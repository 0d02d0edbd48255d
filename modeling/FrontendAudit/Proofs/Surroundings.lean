import FrontendAudit.Proofs.Context
import FrontendAudit.Proofs.Rules
import FrontendAudit.Proofs.Violation
import Mathlib.Data.List.Basic

namespace FrontendAudit

open Text

namespace Spacing

def declaration? : Spacing → Option (Property × List Char)
  | arbitrary _ => none
  | declared p ds => some (p, ds)

def reported (spacings : List Spacing) : List (Property × List Char) :=
  (spacings.filter offScale).filterMap declaration?

theorem exists_declared_of_mem_scan {line : List Char} {s : Spacing} (h : s ∈ scan declared? line) :
    ∃ p ds, s = .declared p ds := by
  obtain ⟨_, _, m, -, hm, rfl⟩ := exists_of_mem_scan h
  obtain ⟨p, w, value, px, -, -, -, rfl⟩ := declared?_eq_some_iff.1 hm
  exact ⟨p, px.value, rfl⟩

theorem map_message_reported {spacings : List Spacing} (h : ∀ s ∈ spacings, ∃ p ds, s = .declared p ds) :
    (reported spacings).map (fun d ↦ (Violation.spacing (.declared d.1 d.2)).message) =
      ((spacings.filter offScale).map Violation.spacing).map Violation.message := by
  rw [reported, List.map_filterMap, List.map_map, ← List.filterMap_eq_map]
  apply List.filterMap_congr
  intro s hs
  obtain ⟨p, ds, rfl⟩ := h s (List.mem_filter.1 hs).1
  rfl

theorem sameButFirst_reported {found spacings : List Spacing} (h : SameButFirst digits found spacings)
    (hfound : ∀ s ∈ found, ∃ p ds, s = .declared p ds)
    (hspacings : ∀ s ∈ spacings, ∃ p ds, s = .declared p ds) :
    SameButFirst Prod.snd (reported found) (reported spacings) := by
  cases h with
  | nil => exact .nil
  | cons rest hdigits =>
    obtain ⟨p, ds, rfl⟩ := hfound _ List.mem_cons_self
    obtain ⟨q, ds', rfl⟩ := hspacings _ List.mem_cons_self
    obtain rfl : ds = ds' := hdigits
    have hoff : offScale (declared p ds) = offScale (declared q ds) := rfl
    cases hq : offScale (declared q ds) with
    | false =>
      rw [reported, reported, List.filter_cons_of_neg (by simp [hoff, hq]), List.filter_cons_of_neg (by simp [hq])]
      exact .refl _ _
    | true =>
      rw [reported, reported, List.filter_cons_of_pos (hoff.trans hq), List.filter_cons_of_pos hq]
      exact .cons _ rfl

end Spacing

theorem Loop.hasAwaitInLoop_of_infix {line whole : List Char} (h : line <:+: whole)
    (hline : hasAwaitInLoop line = true) : hasAwaitInLoop whole = true := by
  obtain ⟨hawait, hloop⟩ := hasAwaitInLoop_iff.1 hline
  refine hasAwaitInLoop_iff.2 ⟨hawait.trans h, ?_⟩
  rcases hloop with hmap | ⟨w, hw, hlower⟩
  · exact .inl (hmap.trans h)
  · exact .inr ⟨w, hw.trans h, hlower⟩

namespace Line

/-- Of a line within a longer text, the messages about arbitrary values are a contiguous part of those of the
text. So are the declarations that are reported, with all of their digits and, after the first, with their
properties. A line that is reported for awaiting in a loop is so in every text around it. -/
theorem surrounding_text_hides_nothing (number : Int) (pre line post : List Char) :
    Rule.arbitraryValue.messages (findings number line) <:+:
        Rule.arbitraryValue.messages (findings number (pre ++ line ++ post)) ∧
      (∃ reported front found back : List (Spacing.Property × List Char),
        Rule.declaration.messages (findings number line) =
          reported.map (fun d ↦ (Violation.spacing (.declared d.1 d.2)).message) ∧
        Rule.declaration.messages (findings number (pre ++ line ++ post)) =
          (front ++ found ++ back).map (fun d ↦ (Violation.spacing (.declared d.1 d.2)).message) ∧
        found.map Prod.snd = reported.map Prod.snd ∧
        found.tail.map Prod.fst = reported.tail.map Prod.fst) ∧
      (Rule.loop.messages (findings number line) ≠ [] →
        Rule.loop.messages (findings number (pre ++ line ++ post)) ≠ []) := by
  simp only [Rule.messages_findings, Violation.ofRule]
  refine ⟨?_, ?_, ?_⟩
  · obtain ⟨front, found, back, hscan, hsame⟩ :=
      scan_part Spacing.takes_arbitrary? Spacing.endsTogether_arbitrary? pre line post
    have hfound : found = scan Spacing.arbitrary? line := by simpa using hsame.map_eq
    rw [hscan, hfound]
    exact ((List.infix_append front _ back).filter _ |>.map _).map _
  · obtain ⟨front, found, back, hscan, hsame⟩ :=
      scan_part Spacing.takes_declared? Spacing.endsTogether_declared? pre line post
    have hwhole : ∀ s ∈ front ++ found ++ back, ∃ p ds, s = .declared p ds :=
      fun s hs ↦ Spacing.exists_declared_of_mem_scan (hscan ▸ hs)
    have hline : ∀ s ∈ scan Spacing.declared? line, ∃ p ds, s = .declared p ds :=
      fun s ↦ Spacing.exists_declared_of_mem_scan
    have hreported := Spacing.sameButFirst_reported hsame (fun s hs ↦ hwhole s (by simp [hs])) hline
    refine ⟨Spacing.reported (scan Spacing.declared? line), Spacing.reported front, Spacing.reported found,
      Spacing.reported back, (Spacing.map_message_reported hline).symm, ?_, hreported.map_eq, ?_⟩
    · rw [hscan, ← Spacing.map_message_reported hwhole]
      simp only [Spacing.reported, List.filter_append, List.filterMap_append]
    · rw [hreported.tail_eq]
  · intro hreport
    cases hloop : Loop.hasAwaitInLoop line with
    | false => simp [hloop] at hreport
    | true =>
      rw [if_pos (Loop.hasAwaitInLoop_of_infix (List.infix_append pre line post) hloop)]
      exact List.cons_ne_nil _ _

theorem surrounding_text_hides_nothing_completed :
    let line := "top: 5px; left: 7px [9px] await xs.map( [1".toList
    let whole := "padding-".toList ++ line ++ "1px]".toList
    Rule.loop.messages (findings 1 line) ≠ [] ∧ Rule.loop.messages (findings 1 whole) ≠ [] ∧
      Rule.declaration.messages (findings 1 line) =
        ["Grid Violation - top value 5px is not a multiple of 4.",
          "Grid Violation - left value 7px is not a multiple of 4."] ∧
      Rule.declaration.messages (findings 1 whole) =
        ["Grid Violation - padding value 5px is not a multiple of 4.",
          "Grid Violation - left value 7px is not a multiple of 4."] ∧
      Rule.arbitraryValue.messages (findings 1 whole) =
        ["Grid Violation - Arbitrary value [9px] is not a multiple of 4.",
          "Grid Violation - Arbitrary value [11px] is not a multiple of 4."] := by
  intro line whole
  have hline : Rule.loop.messages (findings 1 line) ≠ [] := by
    rw [Rule.messages_findings, Violation.ofRule, if_pos (by decide +kernel)]
    exact List.cons_ne_nil _ _
  have hdeclared : Violation.ofRule line .declaration =
      [.spacing (.declared .top ['5']), .spacing (.declared .left ['7'])] := by decide +kernel
  have hcompleted : Violation.ofRule whole .declaration =
      [.spacing (.declared .padding ['5']), .spacing (.declared .left ['7'])] := by decide +kernel
  have harbitrary : Violation.ofRule whole .arbitraryValue =
      [.spacing (.arbitrary ['9']), .spacing (.arbitrary ['1', '1'])] := by decide +kernel
  refine ⟨hline, (surrounding_text_hides_nothing 1 "padding-".toList line "1px]".toList).2.2 hline, ?_, ?_, ?_⟩
  · rw [Rule.messages_findings, hdeclared]
    rfl
  · rw [Rule.messages_findings, hcompleted]
    rfl
  · rw [Rule.messages_findings, harbitrary]
    rfl

end Line

end FrontendAudit
