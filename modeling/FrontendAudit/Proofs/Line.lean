import FrontendAudit.Line
import FrontendAudit.Proofs.Spacing
import Mathlib.Data.List.Basic

namespace FrontendAudit

theorem map_filter_eq_flatMap {α β : Type} (p : α → Bool) (g : α → β) (l : List α) :
    (l.filter p).map g = l.flatMap fun a ↦ if p a then [g a] else [] := by
  induction l with
  | nil => rfl
  | cons a l ih => cases h : p a <;> simp [h, ih]

namespace Spacing

def judged (ds : List Char) (f : Finding) (e : Log.Entry) : List Finding × List Log.Entry :=
  let n := Nat.ofDigitChars 10 ds 0
  if UInt64.size ≤ n then ([], [e])
  else if n ≤ 400 ∧ 4 ∣ n then ([], [])
  else ([f], [])

def outcome (number : Int) : Spacing → List Finding × List Log.Entry
  | arbitrary ds =>
    judged ds ⟨number, "Grid Violation - Arbitrary value [" ++ String.ofList ds ++ "px] is not a multiple of 4."⟩
      (.debug "skip an arbitrary value"
        [("error", ValueError.message .tooLarge ds), ("line_number", toString number),
          ("value", String.ofList ds)])
  | declared p ds =>
    judged ds
      ⟨number, "Grid Violation - " ++ p.name ++ " value " ++ String.ofList ds ++ "px is not a multiple of 4."⟩
      (.debug "skip a declaration"
        [("property", p.name), ("error", ValueError.message .tooLarge ds), ("line_number", toString number),
          ("value", String.ofList ds)])

theorem outcome_eq_judged (number : Int) (s : Spacing) :
    s.outcome number =
      judged s.digits ⟨number, (Violation.spacing s).message⟩ (Line.skipped number s .tooLarge) := by
  cases s <;> rfl

theorem error?_eq {s : Spacing} (h : Digits s.digits) :
    s.error? = if UInt64.size ≤ Nat.ofDigitChars 10 s.digits 0 then some .tooLarge else none := by
  rw [error?, Value.read_of_digits h.1 h.2]
  by_cases hfits : Nat.ofDigitChars 10 s.digits 0 < UInt64.size
  · rw [if_pos hfits, if_neg (Nat.not_le.2 hfits)]
  · rw [if_neg hfits, if_pos (Nat.not_lt.1 hfits)]

theorem fst_outcome {s : Spacing} (h : Digits s.digits) (number : Int) :
    (s.outcome number).1 = if s.offScale then [⟨number, (Violation.spacing s).message⟩] else [] := by
  have hoff := offScale_iff h
  rw [outcome_eq_judged, judged]
  by_cases hfits : Nat.ofDigitChars 10 s.digits 0 < UInt64.size
  · by_cases hgrid : Nat.ofDigitChars 10 s.digits 0 ≤ 400 ∧ 4 ∣ Nat.ofDigitChars 10 s.digits 0
    · rw [if_neg (Nat.not_le.2 hfits), if_pos hgrid, if_neg (fun hs ↦ (hoff.1 hs).2 hgrid)]
    · rw [if_neg (Nat.not_le.2 hfits), if_neg hgrid, if_pos (hoff.2 ⟨hfits, hgrid⟩)]
  · rw [if_pos (Nat.not_lt.1 hfits), if_neg (fun hs ↦ hfits (hoff.1 hs).1)]

theorem snd_outcome {s : Spacing} (h : Digits s.digits) (number : Int) :
    (s.outcome number).2 = (s.error?.map (Line.skipped number s)).toList := by
  rw [outcome_eq_judged, judged, error?_eq h]
  by_cases hlarge : UInt64.size ≤ Nat.ofDigitChars 10 s.digits 0
  · rw [if_pos hlarge, if_pos hlarge]
    rfl
  · rw [if_neg hlarge, if_neg hlarge]
    split <;> rfl

theorem findings_offScale {spacings : List Spacing} (h : ∀ s ∈ spacings, Digits s.digits) (number : Int) :
    (((spacings.filter offScale).map Violation.spacing).map fun v ↦ (⟨number, v.message⟩ : Finding)) =
      spacings.flatMap fun s ↦ (s.outcome number).1 := by
  rw [List.map_map, map_filter_eq_flatMap]
  apply List.flatMap_congr
  intro s hs
  rw [fst_outcome (h s hs)]
  rfl

theorem digits_of_mem_ofLine {line : List Char} {s : Spacing} (h : s ∈ ofLine line) : Digits s.digits := by
  obtain ⟨piece, hwritten, -⟩ := exists_written_of_mem h
  exact hwritten.digits

end Spacing

def Violation.apartFromSpacings (line : List Char) : List Violation :=
  ((Padding.asymmetry? line).map fun xy ↦ asymmetricPadding xy.1 xy.2).toList ++
    if Loop.hasAwaitInLoop line then [awaitInLoop] else []

namespace Line

theorem findings_eq (number : Int) (line : List Char) :
    findings number line =
      (Spacing.ofLine line).flatMap (fun s ↦ (s.outcome number).1) ++
        (Violation.apartFromSpacings line).map fun v ↦ ⟨number, v.message⟩ := by
  have hdigits : ∀ s ∈ Spacing.ofLine line, Spacing.Digits s.digits := fun s ↦ Spacing.digits_of_mem_ofLine
  have hspacings := Spacing.findings_offScale hdigits number
  rw [findings, Violation.ofLine, List.append_assoc, List.map_append, hspacings]
  rfl

theorem entries_eq (number : Int) (line : List Char) :
    entries number line = (Spacing.ofLine line).flatMap fun s ↦ (s.outcome number).2 := by
  rw [entries, List.filterMap_eq_flatMap_toList]
  apply List.flatMap_congr
  intro s hs
  rw [Spacing.snd_outcome (Spacing.digits_of_mem_ofLine hs)]

end Line

end FrontendAudit
