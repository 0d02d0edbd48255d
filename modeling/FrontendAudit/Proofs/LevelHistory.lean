import FrontendAudit.Log.Logger
import FrontendAudit.Proofs.LetterCase
import FrontendAudit.Proofs.LogLevel

namespace FrontendAudit.Log

open Text (LowersSimply)

namespace Level

def names : List (String × Level) :=
  [("panic", panic), ("fatal", fatal), ("error", error), ("warn", warning), ("warning", warning), ("info", info),
    ("debug", debug), ("trace", trace)]

def named? (low : Char → Char) (name : String) : Option Level :=
  names.lookup (String.ofList (name.toList.map low))

theorem ofName?_eq_lookup (name : String) : ofName? name = named? Text.lower name := by
  rw [ofName?, named?]
  generalize String.ofList (name.toList.map Text.lower) = word
  split
  case h_9 hpanic hfatal herror hwarn hwarning hinfo hdebug htrace =>
    symm
    rw [List.lookup_eq_none_iff]
    simpa [names] using ⟨hpanic, hfatal, herror, hwarn, hwarning, hinfo, hdebug, htrace⟩
  all_goals rfl

theorem isAlpha_of_mem_names {e : String × Level} (he : e ∈ names) : ∀ c ∈ e.1.toList, c.isAlpha = true := by
  have hall : names.all (fun e ↦ e.1.toList.all Char.isAlpha) = true := by decide
  exact List.all_eq_true.1 (List.all_eq_true.1 hall e he)

theorem lookup_congr {table : List (String × Level)} {a b : String}
    (h : ∀ e ∈ table, a = e.1 ↔ b = e.1) : table.lookup a = table.lookup b := by
  induction table with
  | nil => rfl
  | cons e table ih =>
    obtain ⟨he, htable⟩ := List.forall_mem_cons.1 h
    obtain ⟨word, level⟩ := e
    have hbeq : (a == word) = (b == word) := Bool.eq_iff_iff.2 (by simpa using he)
    rw [List.lookup_cons, List.lookup_cons, hbeq, ih htable]

theorem ofName?_eq_named? {low : Char → Char} (hlow : LowersSimply low) (name : String) :
    ofName? name = named? low name := by
  rw [ofName?_eq_lookup]
  apply lookup_congr
  intro e he
  rw [← String.toList_inj, ← String.toList_inj, String.toList_ofList, String.toList_ofList]
  apply Text.map_eq_iff_of_agree
  intro d hd c
  exact Text.lowersSimply_lower.eq_iff_of_isAlpha hlow (isAlpha_of_mem_names he d hd)

end Level

def Request.level? (low : Char → Char) : Request → Option Level
  | changeLevel name => Level.named? low name
  | log _ => none

/-- The last level that the requests ask for by name, or else the level at the start. -/
def lastNamed (low : Char → Char) (start : Level) (requests : List Request) : Level :=
  (requests.filterMap (Request.level? low)).getLast?.getD start

theorem lastNamed_cons (low : Char → Char) (start : Level) (q : Request) (rest : List Request) :
    lastNamed low start (q :: rest) = lastNamed low ((q.level? low).getD start) rest := by
  rw [lastNamed, lastNamed]
  cases hq : q.level? low with
  | none =>
    rw [List.filterMap_cons_none hq]
    rfl
  | some level =>
    rw [List.filterMap_cons_some hq, List.getLast?_cons]
    rfl

theorem lastNamed_append (low : Char → Char) (start : Level) (earlier later : List Request) :
    lastNamed low start (earlier ++ later) = lastNamed low (lastNamed low start earlier) later := by
  induction earlier generalizing start with
  | nil => rfl
  | cons q earlier ih => rw [List.cons_append, lastNamed_cons, lastNamed_cons, ih]

namespace Logger

variable {low : Char → Char}

theorem emit_singleton (l : Logger) (e : Entry) :
    l.emit [e] = if l.level.admits e.level then [l.stamp e] else [] := by
  rw [emit, List.filter_cons]
  split <;> rfl

theorem setLevel_eq (hlow : LowersSimply low) (l : Logger) (name : String) :
    l.setLevel name =
      ({ l with level := (Level.named? low name).getD l.level },
        if name = "" ∨ (Level.named? low name).isSome then [] else l.emit [invalidLevel name]) := by
  rw [setLevel, ← Level.ofName?_eq_named? hlow]
  by_cases hempty : name = ""
  · subst hempty
    rfl
  rw [if_neg hempty]
  cases Level.ofName? name with
  | none => simp [hempty]
  | some level => simp

theorem answer_logger (hlow : LowersSimply low) (l : Logger) (q : Request) :
    (l.answer q).1 = { l with level := (q.level? low).getD l.level } := by
  cases q with
  | changeLevel name => rw [answer, setLevel_eq hlow, Request.level?]
  | log e => rfl

/-- In a run every request meets the level that the earlier ones have left. -/
theorem getElem?_answers (hlow : LowersSimply low) (l : Logger) (earlier later : List Request) (q : Request) :
    (l.answers (earlier ++ q :: later))[earlier.length]? =
      some (answer { l with level := lastNamed low l.level earlier } q) := by
  induction earlier generalizing l with
  | nil => rfl
  | cons p earlier ih =>
    rw [List.cons_append, answers, List.length_cons, List.getElem?_cons_succ, ih, answer_logger hlow, lastNamed_cons]

/-- After every request of a run the level is the last that was asked for by a level's name, in any letter case,
or the one at the start. The empty name and the levels' names log nothing. Any other name keeps the level and
logs one error, if the level admits errors. An entry is logged if the level admits it. -/
theorem level_is_last_named (hlow : LowersSimply low) (start : Logger) (earlier later : List Request) (q : Request) :
    ∃ (level : Level) (logged : List Entry),
      (start.answers (earlier ++ q :: later))[earlier.length]? = some ({ start with level }, logged) ∧
      level = lastNamed low start.level (earlier ++ [q]) ∧
      (∀ name, q = .changeLevel name →
        (name = "" ∨ (Level.named? low name).isSome → logged = []) ∧
        (name ≠ "" → Level.named? low name = none →
          level = lastNamed low start.level earlier ∧
          (start.stamp (invalidLevel name)).level = .error ∧
          logged =
            if (lastNamed low start.level earlier).admits .error then [start.stamp (invalidLevel name)] else [])) ∧
      ∀ e, q = .log e →
        logged = if (lastNamed low start.level earlier).admits e.level then [start.stamp e] else [] := by
  have hanswer := getElem?_answers hlow start earlier later q
  have hlevel := answer_logger hlow { start with level := lastNamed low start.level earlier } q
  refine ⟨_, _, hanswer.trans (congrArg some (Prod.ext hlevel rfl)), ?_, ?_, ?_⟩
  · rw [lastNamed_append, lastNamed_cons]
    rfl
  · rintro name rfl
    rw [answer, setLevel_eq hlow]
    constructor
    · intro hquiet
      exact if_pos hquiet
    · intro hne hnone
      refine ⟨by rw [Request.level?, hnone]; rfl, level_stamp start (invalidLevel name), ?_⟩
      exact (if_neg (by simp [hne, hnone])).trans (emit_singleton _ _)
  · rintro e rfl
    exact emit_singleton _ _

theorem level_is_last_named_dotted :
    let start : Logger := { level := .panic, version := "v1" }
    let earlier : List Request :=
      [.changeLevel "loud", .changeLevel "Warn\u0130NG", .log ⟨.info, "probe", []⟩, .changeLevel ""]
    LowersSimply Text.lower ∧
      (start.answers (earlier ++ [.changeLevel "verbose"]))[4]? =
        some ({ start with level := .warning }, [start.stamp (invalidLevel "verbose")]) ∧
      (start.answers (earlier ++ [.changeLevel "verbose"]))[0]? = some (start, []) := by
  intro start earlier
  have hlow := Text.lowersSimply_lower
  refine ⟨hlow, ?_, ?_⟩
  · obtain ⟨level, logged, hanswer, -, hname, -⟩ :=
      level_is_last_named hlow start earlier [] (.changeLevel "verbose")
    obtain ⟨hlevel, -, hlogged⟩ := (hname "verbose" rfl).2 (by decide) (by decide +kernel)
    have hwarning : lastNamed Text.lower start.level earlier = .warning := by decide +kernel
    rw [hwarning] at hlevel hlogged
    rw [hlevel, hlogged] at hanswer
    exact hanswer
  · obtain ⟨level, logged, hanswer, -, hname, -⟩ :=
      level_is_last_named hlow start [] (earlier.tail ++ [.changeLevel "verbose"]) (.changeLevel "loud")
    obtain ⟨hlevel, -, hlogged⟩ := (hname "loud" rfl).2 (by decide) (by decide +kernel)
    rw [hlevel, hlogged] at hanswer
    exact hanswer

end Logger

end FrontendAudit.Log
