import FrontendAudit.Proofs.Line
import FrontendAudit.Proofs.Rules

namespace FrontendAudit

namespace Text

variable {α : Type} {recognise : List Char → Option (Match α)}

/-- Where no piece starts within another one, a scan has every piece that the recogniser accepts. -/
theorem mem_scan_placed_iff (hnil : recognise [] = none)
    (hapart : ∀ between after m m', recognise (between ++ after) = some m' → recognise after = some m →
      between.length < m'.length → between = [])
    {cs : List Char} {piece : List Char × Match α} :
    piece ∈ scan (placed recognise) cs ↔ piece.1 <:+ cs ∧ recognise piece.1 = some piece.2 := by
  constructor
  · intro h
    obtain ⟨before, hbefore, hm⟩ := exists_of_mem_scan_placed h
    exact ⟨⟨before, hbefore⟩, hm⟩
  · intro h
    obtain ⟨⟨before, hbefore⟩, hm⟩ := h
    have hne : piece.1 ≠ [] := by
      intro hempty
      rw [hempty, hnil] at hm
      cases hm
    have hplaced := placed_eq_some_iff.2 ⟨piece.2, hm, rfl⟩
    obtain ⟨_, between, _, -, hcover, hover, hmem⟩ := scan_covers before hne hplaced
    obtain ⟨m, hm', rfl⟩ := placed_eq_some_iff.1 hcover
    obtain rfl : between = [] := hover.elim id (hapart between piece.1 piece.2 m hm' hm)
    obtain rfl : piece.2 = m := Option.some.inj (hm.symm.trans hm')
    rwa [hbefore] at hmem

end Text

namespace Spacing

open Text

/-- Digits in a line, with the texts before the bracket that opens and behind the one that closes. -/
@[ext]
structure Bracketed where
  before : List Char
  digits : List Char
  after : List Char
  isDigits : Digits digits

namespace Bracketed

def text (b : Bracketed) : List Char :=
  '[' :: (b.digits ++ 'p' :: 'x' :: ']' :: b.after)

def line (b : Bracketed) : List Char :=
  b.before ++ b.text

def spacing (b : Bracketed) : Spacing :=
  .arbitrary b.digits

def piece (b : Bracketed) : List Char × Match Spacing :=
  (b.text, ⟨b.spacing, b.digits.length + 4⟩)

theorem arbitrary?_piece (b : Bracketed) : arbitrary? b.piece.1 = some b.piece.2 :=
  arbitrary?_eq_some_iff.2 ⟨b.digits, b.after, b.isDigits, rfl, rfl⟩

theorem eq_of_piece_eq {a b : Bracketed} (hline : a.line = b.line) (hpiece : a.piece = b.piece) : a = b := by
  obtain ⟨htext, hmatch⟩ := Prod.mk.inj hpiece
  have hdigits : a.digits = b.digits := Spacing.arbitrary.inj (Match.mk.inj hmatch).1
  have hafter : a.after = b.after := by
    rw [text, text, hdigits] at htext
    simpa using htext
  have hbefore : a.before = b.before := by
    rw [line, line, htext] at hline
    exact List.append_cancel_right hline
  exact Bracketed.ext hbefore hdigits hafter

end Bracketed

section Found

variable {line : List Char}

theorem mem_scan_iff_exists_bracketed {piece : List Char × Match Spacing} :
    piece ∈ scan (placed arbitrary?) line ↔ ∃ b : Bracketed, b.line = line ∧ b.piece = piece := by
  rw [mem_scan_placed_iff rfl fun _ _ _ _ ↦ arbitrary?_not_inside]
  constructor
  · intro h
    obtain ⟨⟨before, hbefore⟩, hm⟩ := h
    obtain ⟨ds, after, hds, htext, hm⟩ := arbitrary?_eq_some_iff.1 hm
    refine ⟨⟨before, ds, after, hds⟩, ?_, Prod.ext htext.symm hm.symm⟩
    rw [← hbefore, htext]
    rfl
  · intro h
    obtain ⟨b, hline, rfl⟩ := h
    exact ⟨⟨b.before, hline⟩, b.arbitrary?_piece⟩

theorem exists_bracketed_scan (line : List Char) :
    ∃ found : List Bracketed, found.map Bracketed.piece = scan (placed arbitrary?) line ∧
      ∀ b, b ∈ found ↔ b.line = line := by
  have hlift : ∀ pieces ⊆ scan (placed arbitrary?) line,
      ∃ found : List Bracketed, found.map Bracketed.piece = pieces ∧ ∀ b ∈ found, b.line = line := by
    intro pieces hsub
    induction pieces with
    | nil => exact ⟨[], rfl, by simp⟩
    | cons piece pieces ih =>
      obtain ⟨hpiece, hrest⟩ := List.cons_subset.1 hsub
      obtain ⟨b, hline, rfl⟩ := mem_scan_iff_exists_bracketed.1 hpiece
      obtain ⟨found, rfl, hfound⟩ := ih hrest
      exact ⟨b :: found, rfl, List.forall_mem_cons.2 ⟨hline, hfound⟩⟩
  obtain ⟨found, hmap, hfound⟩ := hlift _ (List.Subset.refl _)
  refine ⟨found, hmap, fun b ↦ ⟨hfound b, fun hline ↦ ?_⟩⟩
  have hmem : b.piece ∈ found.map Bracketed.piece := by
    rw [hmap]
    exact mem_scan_iff_exists_bracketed.2 ⟨b, hline, rfl⟩
  obtain ⟨a, ha, hpiece⟩ := List.mem_map.1 hmem
  obtain rfl : a = b := Bracketed.eq_of_piece_eq ((hfound a ha).trans hline.symm) hpiece
  exact ha

end Found

section Outcome

theorem eq_of_mem_judged {ds : List Char} {f : Finding} {e e' : Log.Entry} (h : e' ∈ (judged ds f e).2) :
    e' = e := by
  rw [judged] at h
  split at h
  · exact List.mem_singleton.1 h
  · split at h <;> cases h

theorem filter_skips_arbitrary (number : Int) (ds : List Char) :
    (((arbitrary ds).outcome number).2.filter fun e ↦ e.message = "skip an arbitrary value") =
      ((arbitrary ds).outcome number).2 := by
  rw [List.filter_eq_self]
  intro e he
  rw [eq_of_mem_judged he]
  rfl

theorem filter_skips_declared (number : Int) (p : Property) (ds : List Char) :
    (((declared p ds).outcome number).2.filter fun e ↦ e.message = "skip an arbitrary value") = [] := by
  rw [List.filter_eq_nil_iff]
  intro e he
  have hmessage : e.message = "skip a declaration" := by
    rw [eq_of_mem_judged he]
    rfl
  rw [hmessage]
  decide

end Outcome

/-- A scan comes to every place of the line where digits stand in brackets with the unit, from left to right. The
findings of the rule and the entries about skipped values are the outcomes of these places, one after the
other. -/
theorem arbitrary_values_all_found (number : Int) (line : List Char) :
    ∃ found : List Bracketed,
      (∀ b, b ∈ found ↔ b.line = line) ∧
      found.Pairwise (fun a b ↦ a.before.length < b.before.length) ∧
      scan (placed arbitrary?) line = found.map Bracketed.piece ∧
      scan arbitrary? line = found.map Bracketed.spacing ∧
      Rule.arbitraryValue.among (Line.findings number line) =
        found.flatMap (fun b ↦ (b.spacing.outcome number).1) ∧
      ((Line.entries number line).filter fun e ↦ e.message = "skip an arbitrary value") =
        found.flatMap fun b ↦ (b.spacing.outcome number).2 := by
  obtain ⟨found, hmap, hfound⟩ := exists_bracketed_scan line
  have hscan : scan arbitrary? line = found.map Bracketed.spacing := by
    rw [← scan_placed, ← hmap, List.map_map]
    rfl
  refine ⟨found, hfound, ?_, hmap.symm, hscan, ?_, ?_⟩
  · have hpairwise := pairwise_scan_placed arbitrary? line
    rw [← hmap, List.pairwise_map] at hpairwise
    refine hpairwise.imp_of_mem ?_
    intro a b ha hb hle
    have hlength := congrArg List.length (((hfound a).1 ha).trans ((hfound b).1 hb).symm)
    simp only [Bracketed.line, Bracketed.piece, List.length_append] at hlength hle
    omega
  · have hdigits : ∀ s ∈ found.map Bracketed.spacing, Digits s.digits := by
      intro s hs
      obtain ⟨b, -, rfl⟩ := List.mem_map.1 hs
      exact b.isDigits
    rw [Rule.among_findings, Violation.ofRule, hscan, findings_offScale hdigits, List.flatMap_map]
  · have hdeclared : ((scan declared? line).flatMap fun s ↦
        (s.outcome number).2.filter fun e ↦ e.message = "skip an arbitrary value") = [] := by
      rw [List.flatMap_eq_nil_iff]
      intro s hs
      obtain ⟨_, _, m, -, hm, rfl⟩ := exists_of_mem_scan hs
      obtain ⟨p, w, value, px, -, -, -, rfl⟩ := declared?_eq_some_iff.1 hm
      exact filter_skips_declared number p px.value
    rw [Line.entries_eq, ofLine, hscan, List.filter_flatMap, List.flatMap_append, hdeclared, List.append_nil,
      List.flatMap_map]
    simp only [Bracketed.spacing, filter_skips_arbitrary]

example : scan arbitrary? "[[13px] [1[2px]] [px] [07px]".toList =
    [.arbitrary ['1', '3'], .arbitrary ['2'], .arbitrary ['0', '7']] := by decide

end Spacing

end FrontendAudit
