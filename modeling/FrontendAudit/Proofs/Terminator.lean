import FrontendAudit.Proofs.CommandLine

namespace FrontendAudit

namespace Text

theorem dropWhile_of_head {p : Char → Bool} {cs : List Char} (h : ∀ c, cs.head? = some c → p c = false) :
    cs.dropWhile p = cs := by
  cases cs with
  | nil => rfl
  | cons c cs => rw [List.dropWhile_cons_of_neg (by simp [h c rfl])]

theorem trim_of_ends {cs : List Char} (hfirst : ∀ c, cs.head? = some c → isSpace c = false)
    (hlast : ∀ c, cs.getLast? = some c → isSpace c = false) : trim cs = cs := by
  rw [← List.head?_reverse] at hlast
  rw [trim, dropWhile_of_head hfirst, dropWhile_of_head hlast, List.reverse_reverse]

end Text

namespace Command

structure Plain (x : String) : Prop where
  ne_empty : x ≠ ""
  first_no_space : ∀ c, x.toList.head? = some c → Text.isSpace c = false
  last_no_space : ∀ c, x.toList.getLast? = some c → Text.isSpace c = false
  no_dash : x.toList.head? ≠ some '-'

theorem parsed_terminator (g : Grammar) (xs : List String) : Parsed g ("--" :: xs) [] (.ok xs) :=
  .stop (.terminator rfl)

theorem parsed_plain (g : Grammar) {xs : List String} (h : ∀ x ∈ xs, Plain x) : Parsed g xs [] (.ok xs) := by
  induction xs with
  | nil => exact .done
  | cons x xs ih =>
    obtain ⟨hx, hxs⟩ := List.forall_mem_cons.1 h
    cases hhands : handsOn g x with
    | true => exact .stop (reads_iff.2 (reading_of_handsOn hhands xs))
    | false =>
      have htrim : Text.trim x.toList = x.toList := Text.trim_of_ends hx.first_no_space hx.last_no_space
      exact .operand (reads_iff.2 (reading_of_trimmed hhands hx.ne_empty hx.no_dash htrim xs)) (ih hxs)

theorem run_eq_of_parsed (host : Audit.Host) {build : Build} (logger : Log.Logger) {args args' : List String}
    {cs : List Change} {r : Except UsageError (List String)} (h : Parsed (rootGrammar build) args cs r)
    (h' : Parsed (rootGrammar build) args' cs r) : run host build logger args = run host build logger args' := by
  rw [run, run, readArgs_of_parsed h, readArgs_of_parsed h']

/-- Behind a terminator the arguments are audited as they are, unless the first is the name of a subcommand and of
nothing else. Plain arguments come to the same without it, be it an audit or a subcommand. -/
theorem terminator_passes_paths (host : Audit.Host) (build : Build) (logger : Log.Logger) (xs : List String) :
    ((∀ name rest, xs = name :: rest → name ∈ ["version", "help-all", "completion"] →
        host.disk.occupied name = true) →
      (run host build logger ("--" :: xs)).output = (Audit.run host xs).output ∧
      (run host build logger ("--" :: xs)).error? = (Audit.run host xs).error?.map .audit) ∧
    ((∀ x ∈ xs, Plain x) → run host build logger xs = run host build logger ("--" :: xs)) := by
  have hparsed := parsed_terminator (rootGrammar build) xs
  refine ⟨fun hfirst ↦ ?_, fun hplain ↦ run_eq_of_parsed host logger (parsed_plain _ hplain) hparsed⟩
  have haudit : ¬NoAudit host.disk [] (.ok xs) := by
    intro hno
    cases hno with
    | help _ on => cases on
    | version _ on => cases on
    | subcommand rest known free => exact absurd ((hfirst _ _ rfl known).symm.trans free) (by decide)
  obtain ⟨paths, hpaths, hrun⟩ := run_of_audit hparsed logger haudit
  cases hpaths
  rw [hrun]
  exact ⟨rfl, rfl⟩

theorem terminator_passes_paths_flaglike :
    let root : Disk.Node := .dir [(" a.ts", .file "top: 5px".toUTF8), ("--help", .file "gap: 7px".toUTF8)]
    let host : Audit.Host := { disk := root.disk [] }
    let xs := ["--help", " a.ts", ""]
    (run host {} {} ("--" :: xs)).output = (Audit.run host xs).output ∧
      (Audit.run host xs).output = "\n=== PREMIUM QUALITY AUDIT REPORT ===\n\n" ++
        "FILE:  a.ts\n  - L1: Grid Violation - top value 5px is not a multiple of 4.\n\n" ++
        "FILE: --help\n  - L1: Grid Violation - gap value 7px is not a multiple of 4.\n\n" ++
        "Total files with quality issues: 2\n" ∧
      (∀ x ∈ ["version", "src"], Plain x) ∧
      run host {} {} ["version", "src"] = run host {} {} ["--", "version", "src"] ∧
      (run host {} {} ["version", "src"]).output = "unknown\n" := by
  intro root host xs
  have hplain : ∀ x ∈ ["version", "src"], Plain x := by
    simp only [List.forall_mem_cons, List.not_mem_nil, false_implies, implies_true, and_true]
    refine ⟨⟨by decide, ?_, ?_, by decide⟩, ⟨by decide, ?_, ?_, by decide⟩⟩
    all_goals
      rintro c ⟨⟩
      decide
  refine ⟨((terminator_passes_paths host {} {} xs).1 ?_).1, by decide +kernel, hplain,
    (terminator_passes_paths host {} {} ["version", "src"]).2 hplain, by decide +kernel⟩
  intro name rest hxs
  obtain rfl : "--help" = name := (List.cons.inj hxs).1
  decide

end Command

end FrontendAudit
