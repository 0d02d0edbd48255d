import FrontendAudit.Proofs.Rules
import FrontendAudit.Proofs.Violation

namespace FrontendAudit

open Text

theorem Violation.length_ofRule_le_one (line : List Char) {r : Rule} (hr : r = .symmetry ∨ r = .loop) :
    (ofRule line r).length ≤ 1 := by
  rcases hr with rfl | rfl
  · rw [ofRule]
    exact Option.length_toList_le
  · rw [ofRule]
    split <;> simp

namespace Padding

def HasUtility (axis : Char) (line : List Char) : Prop :=
  ∃ before d after, before ++ 'p' :: axis :: '-' :: d :: after = line ∧ d.isDigit = true

section FirstUtility

variable {axis : Char} {line ds : List Char}

theorem exists_firstUtility_iff : (∃ ds, FirstUtility axis line ds) ↔ HasUtility axis line := by
  constructor
  · intro h
    obtain ⟨ds, before, after, hline, ⟨hne, hall⟩, -, -⟩ := h
    cases ds with
    | nil => exact absurd rfl hne
    | cons d ds => exact ⟨before, d, ds ++ after, hline, hall d List.mem_cons_self⟩
  · intro h
    obtain ⟨before, d, after, hline, hd⟩ := h
    simp only [firstUtility_iff, ← hline]
    cases hutility : utility? axis ('p' :: axis :: '-' :: d :: after) with
    | some ds => exact exists_first?_eq_some before hutility
    | none =>
      have hnone := utility?_eq_none_iff.1 hutility d after rfl
      rw [hd] at hnone
      cases hnone

/-- A utility further to the left would end within the line, since the leftmost one of the line does. -/
theorem FirstUtility.append (h : FirstUtility axis line ds) {s : List Char}
    (hs : ∀ c, s.head? = some c → c.isDigit = false) : FirstUtility axis (line ++ s) ds := by
  obtain ⟨before, after, hline, hds, hafter, hleft⟩ := h
  refine ⟨before, after ++ s, by simp [← hline], hds, ?_, ?_⟩
  · intro c hc
    cases after with
    | nil => exact hs c hc
    | cons d after => exact hafter c hc
  · intro before' d after' hwhole hd
    apply Nat.le_of_not_lt
    intro hlt
    have hpos : 0 < ds.length := List.length_pos_iff.2 hds.1
    have hlength : line.length = before.length + 3 + ds.length + after.length := by
      rw [← hline]
      simp only [List.length_append, List.length_cons]
      omega
    have hprefix : before' ++ ['p', axis, '-', d] <+: line ++ s := ⟨after', by simpa using hwhole⟩
    obtain ⟨rest, hrest⟩ : before' ++ ['p', axis, '-', d] <+: line := by
      refine List.prefix_of_prefix_length_le hprefix (List.prefix_append line s) ?_
      simp only [List.length_append, List.length_cons, List.length_nil]
      omega
    have hle := hleft before' d rest (by simpa using hrest) hd
    omega

theorem asymmetry?_append {line x y s : List Char} (hx : FirstUtility 'x' line x) (hy : FirstUtility 'y' line y)
    (hs : ∀ c, s.head? = some c → c.isDigit = false) : asymmetry? (line ++ s) = asymmetry? line := by
  have hx' := firstUtility_iff.1 (hx.append hs)
  have hy' := firstUtility_iff.1 (hy.append hs)
  unfold asymmetry?
  rw [hx', hy', firstUtility_iff.1 hx, firstUtility_iff.1 hy]

end FirstUtility

end Padding

theorem Loop.hasAwaitInLoop_eq {low : Char → Char} (h : LowersSimply low) (line : List Char) :
    hasAwaitInLoop line =
      (occursIn awaitWord line && (occursIn mapCall line || occursIn forEachWord (line.map low))) := by
  have hforEach : occursIn forEachWord (line.map lower) = occursIn forEachWord (line.map low) := by
    rw [Bool.eq_iff_iff, occursIn_iff, occursIn_iff, forEachWord_infix_map_iff lowersSimply_lower,
      forEachWord_infix_map_iff h]
  rw [hasAwaitInLoop, hforEach]

namespace Line

open Padding

/-- A line is reported for its padding exactly if it has a utility for each axis and the digits of the leftmost
ones differ; the message repeats these digits. So where a line has both utilities, text behind it that does not
start with a digit leaves the report as it is. -/
theorem symmetry_goes_by_first_utilities (number : Int) (line : List Char) :
    (Rule.symmetry.among (findings number line) ≠ [] ↔
      ∃ x y, FirstUtility 'x' line x ∧ FirstUtility 'y' line y ∧ x ≠ y) ∧
    (∀ x y, FirstUtility 'x' line x → FirstUtility 'y' line y → x ≠ y →
      Rule.symmetry.among (findings number line) =
        [⟨number, "Symmetry Violation - Asymmetric padding (px-" ++ String.ofList x ++ " vs py-" ++
          String.ofList y ++ ")."⟩]) ∧
    (HasUtility 'x' line → HasUtility 'y' line →
      ∀ s : List Char, (∀ c, s.head? = some c → c.isDigit = false) →
        Rule.symmetry.among (findings number (line ++ s)) = Rule.symmetry.among (findings number line)) := by
  simp only [Rule.among_findings, Violation.ofRule]
  refine ⟨?_, ?_, ?_⟩
  · simp only [← asymmetry?_eq_some_iff]
    cases asymmetry? line with
    | none => simp
    | some xy => exact iff_of_true (List.cons_ne_nil _ _) ⟨xy.1, xy.2, rfl⟩
  · intro x y hx hy hne
    rw [asymmetry?_eq_some_iff.2 ⟨hx, hy, hne⟩]
    rfl
  · intro hx hy s hs
    obtain ⟨x, hx⟩ := exists_firstUtility_iff.2 hx
    obtain ⟨y, hy⟩ := exists_firstUtility_iff.2 hy
    rw [asymmetry?_append hx hy hs]

theorem symmetry_goes_by_first_utilities_leading_zero :
    let line := "px- px-04 py-4".toList
    let more := "px-4 py-04".toList
    FirstUtility 'x' line ['0', '4'] ∧ FirstUtility 'y' line ['4'] ∧
      Rule.symmetry.among (findings 1 line) =
        [⟨1, "Symmetry Violation - Asymmetric padding (px-04 vs py-4)."⟩] ∧
      Rule.symmetry.among (findings 1 (line ++ more)) = Rule.symmetry.among (findings 1 line) := by
  intro line more
  have hx : FirstUtility 'x' line ['0', '4'] := firstUtility_iff.2 (by decide +kernel)
  have hy : FirstUtility 'y' line ['4'] := firstUtility_iff.2 (by decide +kernel)
  have hmore : ∀ c, more.head? = some c → c.isDigit = false := by
    intro c hc
    obtain rfl : 'p' = c := Option.some.inj hc
    rfl
  obtain ⟨-, hmessage, happend⟩ := symmetry_goes_by_first_utilities 1 line
  refine ⟨hx, hy, ?_, ?_⟩
  · exact hmessage _ _ hx hy (by decide)
  · exact happend (exists_firstUtility_iff.1 ⟨_, hx⟩) (exists_firstUtility_iff.1 ⟨_, hy⟩) more hmore

/-- A line is reported for awaiting in a loop exactly if it holds `await`, and either `.map(` or `foreach` in any
case of the ASCII letters. Looking for `foreach` in the line that a simple lower case has changed, whatever it
does beyond ASCII, gives the same report. -/
theorem loop_goes_by_ascii_case (number : Int) (line : List Char) :
    (Rule.loop.among (findings number line) ≠ [] ↔
      ['a', 'w', 'a', 'i', 't'] <:+: line ∧
        (['.', 'm', 'a', 'p', '('] <:+: line ∨
          ∃ w, w <:+: line ∧ w.map Char.toLower = ['f', 'o', 'r', 'e', 'a', 'c', 'h'])) ∧
    ∀ low : Char → Char, LowersSimply low →
      Rule.loop.among (findings number line) =
        if occursIn ['a', 'w', 'a', 'i', 't'] line && (occursIn ['.', 'm', 'a', 'p', '('] line ||
            occursIn ['f', 'o', 'r', 'e', 'a', 'c', 'h'] (line.map low)) then
          [⟨number, "Perf Warning - Possible 'await' in a synchronous-looking loop."⟩]
        else [] := by
  have hamong : Rule.loop.among (findings number line) =
      if Loop.hasAwaitInLoop line then
        [⟨number, "Perf Warning - Possible 'await' in a synchronous-looking loop."⟩]
      else [] := by
    rw [Rule.among_findings, Violation.ofRule]
    split <;> rfl
  rw [hamong]
  constructor
  · refine Iff.trans ?_ Loop.hasAwaitInLoop_iff
    cases Loop.hasAwaitInLoop line <;> simp
  · intro low hlow
    rw [Loop.hasAwaitInLoop_eq hlow]
    rfl

theorem loop_goes_by_ascii_case_accents :
    let low : Char → Char := fun c ↦ if c = 'É' then 'é' else lower c
    let line := "await É.FOREACH(\u212a\u0130".toList
    LowersSimply low ∧ line.map low = "await é.foreach(ki".toList ∧
      Rule.loop.among (findings 1 line) =
        [⟨1, "Perf Warning - Possible 'await' in a synchronous-looking loop."⟩] := by
  intro low line
  have hlow : LowersSimply low := by
    refine ⟨?_, rfl, rfl, ?_⟩
    · intro c hc
      have hne : c ≠ 'É' := by
        intro heq
        rw [heq] at hc
        exact absurd hc (by decide)
      exact (if_neg hne).trans (lowersSimply_lower.ascii c hc)
    · intro c hc hdotted hkelvin
      by_cases heq : c = 'É'
      · rw [heq]
        rfl
      · have hother : low c = lower c := if_neg heq
        rw [hother]
        exact lowersSimply_lower.beyond c hc hdotted hkelvin
  have hreport := (loop_goes_by_ascii_case 1 line).2 low hlow
  rw [if_pos (by decide +kernel)] at hreport
  exact ⟨hlow, by decide +kernel, hreport⟩

end Line

end FrontendAudit
