import FrontendAudit.Proofs.LetterCase
import FrontendAudit.Proofs.Spacing
import FrontendAudit.Line

namespace FrontendAudit

open Text

namespace Padding

/-- The leftmost utility for the axis has these digits, up to the first character that is none. -/
def FirstUtility (axis : Char) (line ds : List Char) : Prop :=
  ∃ before after, before ++ 'p' :: axis :: '-' :: (ds ++ after) = line ∧ Spacing.Digits ds ∧
    (∀ c, after.head? = some c → c.isDigit = false) ∧
    ∀ before' d after', before' ++ 'p' :: axis :: '-' :: d :: after' = line → d.isDigit = true →
      before.length ≤ before'.length

theorem utility?_eq_some_iff {axis : Char} {cs ds : List Char} :
    utility? axis cs = some ds ↔
      Spacing.Digits ds ∧ ∃ after, cs = 'p' :: axis :: '-' :: (ds ++ after) ∧
        ∀ c, after.head? = some c → c.isDigit = false := by
  constructor
  · intro h
    unfold utility? at h
    split at h
    case h_2 => cases h
    case h_1 a cs =>
      dsimp only at h
      split at h
      case isFalse => cases h
      case isTrue haxis =>
        obtain ⟨rfl, hne⟩ := haxis
        obtain rfl := Option.some.inj h
        refine ⟨⟨hne, List.all_eq_true.1 List.all_takeWhile⟩, cs.dropWhile Char.isDigit, ?_, ?_⟩
        · rw [List.takeWhile_append_dropWhile]
        · intro c hc
          have hhead := List.head?_dropWhile_not Char.isDigit cs
          rw [hc] at hhead
          simpa using hhead
  · intro ⟨hds, after, hcs, hafter⟩
    obtain ⟨htake, -⟩ := Spacing.span_stop hds.2 hafter
    rw [hcs, utility?, htake, if_pos ⟨rfl, hds.1⟩]

theorem utility?_eq_none_iff {axis : Char} {cs : List Char} :
    utility? axis cs = none ↔ ∀ d after, cs = 'p' :: axis :: '-' :: d :: after → d.isDigit = false := by
  constructor
  · intro h d after hcs
    cases hd : d.isDigit with
    | false => rfl
    | true =>
      rw [hcs, utility?, List.takeWhile_cons_of_pos hd, if_pos ⟨rfl, by simp⟩] at h
      cases h
  · intro h
    cases hu : utility? axis cs with
    | none => rfl
    | some ds =>
      obtain ⟨⟨hne, hall⟩, after, rfl, -⟩ := utility?_eq_some_iff.1 hu
      cases ds with
      | nil => exact absurd rfl hne
      | cons d ds =>
        have hd := hall d List.mem_cons_self
        rw [h d (ds ++ after) rfl] at hd
        cases hd

theorem firstUtility_iff {axis : Char} {line ds : List Char} :
    FirstUtility axis line ds ↔ first? (utility? axis) line = some ds := by
  rw [first?_eq_some_iff rfl]
  constructor
  · intro ⟨before, after, hline, hds, hafter, hleft⟩
    refine ⟨before, _, hline, utility?_eq_some_iff.2 ⟨hds, after, rfl, hafter⟩, ?_⟩
    intro before' after' hline' hlt
    apply utility?_eq_none_iff.2
    intro d rest hrest
    cases hd : d.isDigit with
    | false => rfl
    | true =>
      have hle := hleft before' d rest (hrest ▸ hline') hd
      omega
  · intro ⟨before, _, hline, hu, hleft⟩
    obtain ⟨hds, after, rfl, hafter⟩ := utility?_eq_some_iff.1 hu
    refine ⟨before, after, hline, hds, hafter, ?_⟩
    intro before' d after' hline' hd
    apply Nat.le_of_not_lt
    intro hlt
    have hnone := utility?_eq_none_iff.1 (hleft before' _ hline' hlt) d after' rfl
    rw [hd] at hnone
    cases hnone

theorem asymmetry?_eq_some_iff {line x y : List Char} :
    asymmetry? line = some (x, y) ↔ FirstUtility 'x' line x ∧ FirstUtility 'y' line y ∧ x ≠ y := by
  rw [firstUtility_iff, firstUtility_iff, asymmetry?]
  constructor
  · intro h
    obtain ⟨x', hx, h⟩ := Option.bind_eq_some_iff.1 h
    obtain ⟨y', hy, h⟩ := Option.bind_eq_some_iff.1 h
    split at h
    case isTrue => cases h
    case isFalse hne =>
      obtain ⟨rfl, rfl⟩ := Prod.mk.inj (Option.some.inj h)
      exact ⟨hx, hy, hne⟩
  · intro ⟨hx, hy, hne⟩
    rw [hx, hy]
    exact if_neg hne

end Padding

namespace Loop

theorem forEachWord_infix_map_iff {low : Char → Char} (h : LowersSimply low) {line : List Char} :
    forEachWord <:+: line.map low ↔ ∃ w, w <:+: line ∧ w.map Char.toLower = forEachWord := by
  have hletters : ∀ d ∈ forEachWord, d.isAlpha = true ∧ d ≠ 'i' ∧ d ≠ 'k' := by simp [forEachWord]
  apply infix_map_iff_of_agree
  intro d hd c
  obtain ⟨halpha, hi, hk⟩ := hletters d hd
  exact h.eq_iff_toLower halpha hi hk

theorem hasAwaitInLoop_iff {line : List Char} :
    hasAwaitInLoop line = true ↔
      awaitWord <:+: line ∧
        (mapCall <:+: line ∨ ∃ w, w <:+: line ∧ w.map Char.toLower = forEachWord) := by
  rw [hasAwaitInLoop, Bool.and_eq_true, Bool.or_eq_true, occursIn_iff, occursIn_iff, occursIn_iff,
    forEachWord_infix_map_iff lowersSimply_lower]

end Loop

namespace Violation

inductive Flawed (line : List Char) : Prop
  | offGrid (s : Spacing) (piece : List Char) :
      Spacing.Written s piece → piece <:+: line → Spacing.OffGrid s.digits → Flawed line
  | asymmetric (x y : List Char) :
      Padding.FirstUtility 'x' line x → Padding.FirstUtility 'y' line y → x ≠ y → Flawed line
  | awaitInMap :
      ['a', 'w', 'a', 'i', 't'] <:+: line → ['.', 'm', 'a', 'p', '('] <:+: line → Flawed line
  | awaitInForEach (w : List Char) :
      ['a', 'w', 'a', 'i', 't'] <:+: line → w <:+: line →
      w.map Char.toLower = ['f', 'o', 'r', 'e', 'a', 'c', 'h'] → Flawed line

theorem flawed_iff {line : List Char} :
    Flawed line ↔ (∃ s ∈ Spacing.ofLine line, Spacing.offScale s = true) ∨
      (∃ x y, Padding.asymmetry? line = some (x, y)) ∨ Loop.hasAwaitInLoop line = true := by
  simp only [Spacing.exists_offScale_iff, Padding.asymmetry?_eq_some_iff, Loop.hasAwaitInLoop_iff]
  constructor
  · intro h
    cases h with
    | offGrid s piece hwritten hin hoff => exact .inl ⟨s, piece, hwritten, hin, hoff⟩
    | asymmetric x y hx hy hne => exact .inr (.inl ⟨x, y, hx, hy, hne⟩)
    | awaitInMap hawait hmap => exact .inr (.inr ⟨hawait, .inl hmap⟩)
    | awaitInForEach w hawait hw he => exact .inr (.inr ⟨hawait, .inr ⟨w, hw, he⟩⟩)
  · intro h
    rcases h with ⟨s, piece, hwritten, hin, hoff⟩ | ⟨x, y, hx, hy, hne⟩ | ⟨hawait, hmap | ⟨w, hw, he⟩⟩
    · exact .offGrid s piece hwritten hin hoff
    · exact .asymmetric x y hx hy hne
    · exact .awaitInMap hawait hmap
    · exact .awaitInForEach w hawait hw he

theorem ofLine_eq_nil_iff (line : List Char) : ofLine line = [] ↔ ¬Flawed line := by
  rw [flawed_iff, ofLine]
  constructor
  · intro h
    obtain ⟨hleft, hawait⟩ := List.append_eq_nil_iff.1 h
    obtain ⟨hspacing, hpadding⟩ := List.append_eq_nil_iff.1 hleft
    intro hflaw
    rcases hflaw with ⟨s, hs, hoff⟩ | ⟨x, y, hxy⟩ | hloop
    · have hmem : s ∈ (Spacing.ofLine line).filter Spacing.offScale := List.mem_filter.2 ⟨hs, hoff⟩
      rw [List.map_eq_nil_iff.1 hspacing] at hmem
      cases hmem
    · rw [hxy] at hpadding
      cases hpadding
    · rw [if_pos hloop] at hawait
      cases hawait
  · intro h
    have hspacing : (Spacing.ofLine line).filter Spacing.offScale = [] :=
      List.filter_eq_nil_iff.2 fun s hs hoff ↦ h (.inl ⟨s, hs, hoff⟩)
    have hpadding : Padding.asymmetry? line = none :=
      Option.eq_none_iff_forall_ne_some.2 fun xy hxy ↦ h (.inr (.inl ⟨xy.1, xy.2, hxy⟩))
    have hloop : ¬Loop.hasAwaitInLoop line = true := fun hloop ↦ h (.inr (.inr hloop))
    rw [hspacing, hpadding, if_neg hloop]
    rfl

end Violation

end FrontendAudit
