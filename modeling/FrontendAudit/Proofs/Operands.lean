import FrontendAudit.Disk.Tree
import FrontendAudit.Proofs.Arguments

namespace FrontendAudit.Command

def handsOn (g : Grammar) (arg : String) : Bool :=
  Argument.ofChars g (Text.trim arg.toList) ∈ [.subcommand, .notFlag]

/-- No argument that is read one by one has white space around it. -/
def Unpadded (g : Grammar) (args : List String) : Prop :=
  ∀ a ∈ args.takeWhile (fun a ↦ !handsOn g a), Text.trim a.toList = a.toList

theorem unpadded_of_handsOn {g : Grammar} {a : String} (h : handsOn g a = true) (rest : List String) :
    Unpadded g (a :: rest) := by
  simp [Unpadded, h]

theorem unpadded_cons_iff {g : Grammar} {a : String} (h : handsOn g a = false) (rest : List String) :
    Unpadded g (a :: rest) ↔ Text.trim a.toList = a.toList ∧ Unpadded g rest := by
  simp [Unpadded, h]

theorem reading_of_handsOn {g : Grammar} {a : String} (h : handsOn g a = true) (rest : List String) :
    reading g a rest = .stop (a :: rest) := by
  simp only [handsOn, List.mem_cons, List.not_mem_nil, or_false, decide_eq_true_eq] at h
  rcases h with h | h
  · simp only [reading, h]
  · simp only [reading, h]

theorem ofChars_of_head {g : Grammar} {c : Char} (hc : c ≠ '-') (cs : List Char) :
    Argument.ofChars g (c :: cs) =
      if String.ofList (c :: cs) ∈ g.subcommands then .subcommand else .operand := by
  rw [Argument.ofChars]
  all_goals simp [hc]

theorem reading_of_trimmed {g : Grammar} {a : String} (hhands : handsOn g a = false) (hne : a ≠ "")
    (hdash : a.toList.head? ≠ some '-') (htrim : Text.trim a.toList = a.toList) (rest : List String) :
    reading g a rest = .operand a := by
  have hcs : a.toList ≠ [] := by simpa using hne
  obtain ⟨c, cs, hcs⟩ := List.exists_cons_of_ne_nil hcs
  have hc : c ≠ '-' := by simpa [hcs] using hdash
  have hof := ofChars_of_head (g := g) hc cs
  rw [← hcs] at hof
  split at hof
  · simp [handsOn, htrim, hof] at hhands
  · simp only [reading, htrim, hof, String.ofList_toList]

theorem readArgs_of_unpadded {g : Grammar} (s : Settings) (before : List String) {args : List String}
    (hne : ∀ a ∈ args, a ≠ "") (hdash : ∀ a ∈ args, a.toList.head? ≠ some '-') (h : Unpadded g args) :
    readArgs g s before args = .ok (s, before ++ args) := by
  induction args generalizing before with
  | nil => simp [readArgs]
  | cons a rest ih =>
    rw [readArgs_cons]
    cases hhands : handsOn g a with
    | true => rw [reading_of_handsOn hhands]
    | false =>
      obtain ⟨htrim, hrest⟩ := (unpadded_cons_iff hhands rest).1 h
      obtain ⟨hne, hne'⟩ := List.forall_mem_cons.1 hne
      obtain ⟨hdash, hdash'⟩ := List.forall_mem_cons.1 hdash
      simp only [reading_of_trimmed hhands hne hdash htrim, ih (before ++ [a]) hne' hdash' hrest,
        List.append_assoc, List.singleton_append]

theorem flagReading_fails_or_sets (g : Grammar) (a name value : String) (rest : List String) :
    (∃ e, flagReading g a name value rest = .fail e) ∨
      ∃ c rest', flagReading g a name value rest = .set c rest' := by
  fun_cases flagReading g a name value rest
  all_goals simp

theorem reading_eq_stop {g : Grammar} {a : String} {rest more : List String}
    (h : reading g a rest = .stop more) :
    more = [] ∨ more = rest ∨ more = ["-"] ∨ more = a :: rest ∧ handsOn g a = true := by
  rw [reading] at h
  cases hof : Argument.ofChars g (Text.trim a.toList) with
  | flag name value =>
    rcases flagReading_fails_or_sets g (String.ofList (Text.trim a.toList)) name value rest with
      ⟨e, he⟩ | ⟨c, rest', hset⟩
    all_goals simp_all
  | blank => simp_all
  | terminator => simp_all
  | subcommand => simp_all [handsOn]
  | operand => simp_all
  | dash => simp_all
  | notFlag => simp_all [handsOn]

theorem length_le_of_reading_stop {g : Grammar} {a : String} {rest more : List String}
    (h : reading g a rest = .stop more) : more.length ≤ rest.length + 1 := by
  rcases reading_eq_stop h with rfl | rfl | rfl | ⟨rfl, -⟩
  all_goals simp

theorem readArgs_grows {g : Grammar} {s s' : Settings} {before args l : List String}
    (h : readArgs g s before args = .ok (s', l)) : before <+: l ∧ l.length ≤ before.length + args.length := by
  induction hlen : args.length using Nat.strongRecOn generalizing s before args with
  | ind n ih =>
    cases args with
    | nil =>
      obtain ⟨-, rfl⟩ : s = s' ∧ before = l := by simpa [readArgs] using h
      exact ⟨List.prefix_rfl, by omega⟩
    | cons arg rest =>
      rw [readArgs_cons] at h
      rw [List.length_cons] at hlen
      cases hr : reading g arg rest with
      | fail e => simp [hr] at h
      | stop more =>
        obtain ⟨-, rfl⟩ : s = s' ∧ before ++ more = l := by simpa [hr] using h
        have hle := length_le_of_reading_stop hr
        exact ⟨List.prefix_append _ _, by rw [List.length_append]; omega⟩
      | operand a =>
        simp only [hr] at h
        obtain ⟨hbefore, hle⟩ := ih rest.length (by omega) h rfl
        rw [List.length_append, List.length_singleton] at hle
        exact ⟨(List.prefix_append before [a]).trans hbefore, by omega⟩
      | set c rest' =>
        simp only [hr] at h
        have hrest : rest'.length ≤ rest.length := length_le_of_reading_set hr
        obtain ⟨hbefore, hle⟩ := ih rest'.length (by omega) h rfl
        exact ⟨hbefore, by omega⟩

theorem reading_eq_operand {g : Grammar} {a x : String} {rest : List String}
    (h : reading g a rest = .operand x) : x = String.ofList (Text.trim a.toList) ∧ handsOn g a = false := by
  rw [reading] at h
  cases hof : Argument.ofChars g (Text.trim a.toList) with
  | flag name value =>
    rcases flagReading_fails_or_sets g (String.ofList (Text.trim a.toList)) name value rest with
      ⟨e, he⟩ | ⟨c, rest', hset⟩
    all_goals simp_all
  | operand => simp_all [handsOn]
  | _ => simp_all

theorem unpadded_of_readArgs {g : Grammar} {s s' : Settings} (before : List String) {args : List String}
    (h : readArgs g s before args = .ok (s', before ++ args)) : Unpadded g args := by
  induction args generalizing before with
  | nil => simp [Unpadded]
  | cons a rest ih =>
    rw [readArgs_cons] at h
    cases hr : reading g a rest with
    | fail e => simp [hr] at h
    | stop more =>
      obtain ⟨-, rfl⟩ : s = s' ∧ more = a :: rest := by simpa [hr] using h
      rcases reading_eq_stop hr with hmore | hmore | hmore | ⟨-, hhands⟩
      · cases hmore
      · simp at hmore
      · obtain ⟨rfl, rfl⟩ := List.cons.inj hmore
        exact (unpadded_cons_iff rfl []).2 ⟨rfl, by simp [Unpadded]⟩
      · exact unpadded_of_handsOn hhands rest
    | operand x =>
      simp only [hr] at h
      obtain ⟨hx, hhands⟩ := reading_eq_operand hr
      obtain ⟨⟨more, hmore⟩, -⟩ := readArgs_grows h
      obtain ⟨rfl, -⟩ : x = a ∧ more = rest := by simpa using hmore
      refine (unpadded_cons_iff hhands rest).2 ⟨?_, ?_⟩
      · rw [← String.toList_ofList (l := Text.trim x.toList), ← hx]
      · exact ih (before ++ [x]) (by simpa using h)
    | set c rest' =>
      simp only [hr] at h
      have hrest : rest'.length ≤ rest.length := length_le_of_reading_set hr
      have hle := (readArgs_grows h).2
      simp only [List.length_append, List.length_cons] at hle
      omega

theorem occupied_empty (root : Disk.Node) (place : Disk.Place) : (root.disk place).occupied "" = false := rfl

theorem subcommand?_of_occupied {host : Audit.Host} (build : Build) {args : List String}
    (h : ∀ a ∈ args, host.disk.occupied a = true) : subcommand? host build args = none := by
  cases args with
  | nil => rfl
  | cons a rest => simp [subcommand?, h a List.mem_cons_self]

/-- Arguments that name existing paths and start with no dash reach the audit as they are exactly if none of
those read one by one has white space around it. If so, the command line prints and ends as the audit of these
paths does, and it is logged as the audit is. -/
theorem run_existing_paths (root : Disk.Node) (place : Disk.Place) (host : Audit.Host) (build : Build)
    (logger : Log.Logger) (args : List String) (hdash : ∀ a ∈ args, a.toList.head? ≠ some '-')
    (hexists : ∀ a ∈ args, (root.disk place).occupied a = true) :
    let host := { host with disk := root.disk place }
    (readArgs (rootGrammar build) {} [] args = .ok ({}, args) ↔ Unpadded (rootGrammar build) args) ∧
    (Unpadded (rootGrammar build) args →
      (run host build logger args).output = (Audit.run host args).output ∧
      (run host build logger args).error? = (Audit.run host args).error?.map .audit ∧
      (run host build logger args).logger = logger ∧
      (run host build logger args).entries = logger.emit (Audit.run host args).entries) := by
  intro host
  have hne : ∀ a ∈ args, a ≠ "" := by
    intro a ha hempty
    have hoccupied := hexists a ha
    rw [hempty, occupied_empty] at hoccupied
    cases hoccupied
  have hread : Unpadded (rootGrammar build) args →
      readArgs (rootGrammar build) {} [] args = .ok ({}, args) :=
    readArgs_of_unpadded {} [] hne hdash
  refine ⟨⟨fun h ↦ unpadded_of_readArgs [] h, hread⟩, ?_⟩
  intro hunpadded
  have hsub : subcommand? host build args = none := subcommand?_of_occupied build hexists
  have hrun : run host build logger args = runAudit host logger "" args := by
    simp only [run, hread hunpadded, hsub, Bool.false_eq_true, if_false]
  rw [hrun]
  exact ⟨rfl, rfl, rfl, rfl⟩

theorem run_existing_paths_subcommands :
    let root : Disk.Node := .dir [(" a.ts", .file "p-[13px]".toUTF8), ("help", .dir []),
      ("version", .dir [("b.css", .file "gap: 7px".toUTF8)])]
    let args := ["help", "version", " a.ts"]
    let host : Audit.Host := { disk := root.disk [] }
    (∀ a ∈ args, a.toList.head? ≠ some '-') ∧ (∀ a ∈ args, (root.disk []).occupied a = true) ∧
      Unpadded (rootGrammar {}) args ∧
      (run host {} {} args).output = (Audit.run host args).output ∧
      (Audit.run host args).output = "\n=== PREMIUM QUALITY AUDIT REPORT ===\n\n" ++
        "FILE:  a.ts\n  - L1: Grid Violation - Arbitrary value [13px] is not a multiple of 4.\n\n" ++
        "FILE: version/b.css\n  - L1: Grid Violation - gap value 7px is not a multiple of 4.\n\n" ++
        "Total files with quality issues: 2\n" := by
  intro root args host
  have hdash : ∀ a ∈ args, a.toList.head? ≠ some '-' := by decide +kernel
  have hexists : ∀ a ∈ args, (root.disk []).occupied a = true := by decide +kernel
  have hunpadded : Unpadded (rootGrammar {}) args := by
    unfold Unpadded
    decide +kernel
  exact ⟨hdash, hexists, hunpadded,
    ((run_existing_paths root [] host {} {} args hdash hexists).2 hunpadded).1, by decide +kernel⟩

/-- A file whose name starts with a blank exists and breaks a rule, and yet the command line that names it
prints that all is well. -/
theorem run_padded_path :
    let root : Disk.Node := .dir [(" a.ts", .file "p-[13px]".toUTF8)]
    let host : Audit.Host := { disk := root.disk [] }
    (root.disk []).occupied " a.ts" = true ∧ " a.ts".toList.head? ≠ some '-' ∧
      (run host {} {} [" a.ts"]).output = "\n✅ All quality gates passed! (Design + Performance)\n" ∧
      (Audit.run host [" a.ts"]).output = "\n=== PREMIUM QUALITY AUDIT REPORT ===\n\n" ++
        "FILE:  a.ts\n  - L1: Grid Violation - Arbitrary value [13px] is not a multiple of 4.\n\n" ++
        "Total files with quality issues: 1\n" := by
  decide +kernel

end FrontendAudit.Command
