import FrontendAudit.Proofs.Line
import Mathlib.Data.List.Nodup

namespace FrontendAudit.Spacing

open Text

def Hyphenated (before : List Char) (p : Property) : Prop :=
  ∃ name, name ≠ [] ∧ (∀ c ∈ name, isWord c = true) ∧ p.word ++ '-' :: name <:+ before

/-- The property that the text before a colon names: the one in front of the last hyphen, if the text ends in
a property with a hyphen and a word, and otherwise the one that it ends in. -/
def Names (before : List Char) (p : Property) : Prop :=
  Hyphenated before p ∨ (∀ q, ¬Hyphenated before q) ∧ p.word <:+ before

def Pixels (after ds : List Char) : Prop :=
  ∃ blanks rest, (∀ c ∈ blanks, isBlank c = true) ∧ Digits ds ∧ after = blanks ++ (ds ++ 'p' :: 'x' :: rest)

def Live (before after : List Char) : Prop :=
  (∃ (p : Property) (w : List Char), IsSuffix w ∧ p.word ++ w <:+ before) ∧ ∃ ds, Pixels after ds

inductive Declares (before after : List Char) : Spacing → Prop
  | intro {p : Property} {ds : List Char} :
      Names before p → Pixels after ds → Declares before after (.declared p ds)

theorem Property.eq_of_isSuffix {l : List Char} {p q : Property} (hp : p.word <:+ l) (hq : q.word <:+ l) :
    p = q := by
  have hword : ∀ p q : Property, p.word <:+ q.word → p = q := by
    intro p q h
    rw [← List.isSuffixOf_iff_suffix] at h
    revert h
    cases p <;> cases q <;> decide
  rcases List.suffix_or_suffix_of_suffix hp hq with h | h
  · exact hword p q h
  · exact (hword q p h).symm

theorem hyphen_not_mem {name : List Char} (h : ∀ c ∈ name, isWord c = true) : '-' ∉ name :=
  fun hmem ↦ absurd (h '-' hmem) (by decide)

theorem Hyphenated.unique {before : List Char} {p q : Property} (hp : Hyphenated before p)
    (hq : Hyphenated before q) : p = q := by
  obtain ⟨name, -, hname, front, hfront⟩ := hp
  obtain ⟨name', -, hname', front', hfront'⟩ := hq
  have hcut : name.reverse ++ '-' :: (front ++ p.word).reverse =
      name'.reverse ++ '-' :: (front' ++ q.word).reverse := by
    have heq := congrArg List.reverse (hfront.trans hfront'.symm)
    simpa using heq
  obtain ⟨-, hrest⟩ := append_cons_inj (by simpa using hyphen_not_mem hname)
    (by simpa using hyphen_not_mem hname') hcut
  have hsame : front ++ p.word = front' ++ q.word := List.reverse_inj.1 hrest
  exact Property.eq_of_isSuffix ⟨front, hsame⟩ ⟨front', rfl⟩

theorem Names.unique {before : List Char} {p q : Property} (hp : Names before p) (hq : Names before q) :
    p = q := by
  rcases hp with hp | ⟨hnone, hp⟩
  · rcases hq with hq | ⟨hnone, -⟩
    · exact hp.unique hq
    · exact absurd hp (hnone p)
  · rcases hq with hq | ⟨-, hq⟩
    · exact absurd hq (hnone q)
    · exact Property.eq_of_isSuffix hp hq

theorem exists_names_iff {before : List Char} :
    (∃ p, Names before p) ↔ ∃ (p : Property) (w : List Char), IsSuffix w ∧ p.word ++ w <:+ before := by
  constructor
  · intro ⟨p, h⟩
    rcases h with ⟨name, hne, hname, hsuffix⟩ | ⟨-, hsuffix⟩
    · exact ⟨p, '-' :: name, .inr ⟨name, hne, hname, rfl⟩, hsuffix⟩
    · exact ⟨p, [], .inl rfl, by rwa [List.append_nil]⟩
  · intro ⟨p, w, hw, hsuffix⟩
    by_cases hhyphen : ∃ q, Hyphenated before q
    · obtain ⟨q, hq⟩ := hhyphen
      exact ⟨q, .inl hq⟩
    · rcases hw with rfl | ⟨name, hne, hname, rfl⟩
      · rw [List.append_nil] at hsuffix
        exact ⟨p, .inr ⟨fun q hq ↦ hhyphen ⟨q, hq⟩, hsuffix⟩⟩
      · exact absurd ⟨p, name, hne, hname, hsuffix⟩ hhyphen

theorem pixels_iff {after ds : List Char} : Pixels after ds ↔ ∃ n, pixels? after = some ⟨ds, n⟩ := by
  simp only [pixels?_eq_some_iff, Pixels, Match.mk.injEq]
  constructor
  · intro ⟨blanks, rest, hblanks, hds, hafter⟩
    exact ⟨_, blanks, ds, rest, hblanks, hds, hafter, rfl, rfl⟩
  · intro h
    obtain ⟨n, blanks, _, rest, hblanks, hds, hafter, rfl, -⟩ := h
    exact ⟨blanks, rest, hblanks, hds, hafter⟩

theorem Pixels.unique {after ds ds' : List Char} (h : Pixels after ds) (h' : Pixels after ds') : ds = ds' := by
  obtain ⟨n, hn⟩ := pixels_iff.1 h
  obtain ⟨n', hn'⟩ := pixels_iff.1 h'
  rw [hn] at hn'
  cases hn'
  rfl

theorem live_iff {before after : List Char} : Live before after ↔ ∃ s, Declares before after s := by
  rw [Live, ← exists_names_iff]
  constructor
  · intro ⟨⟨p, hp⟩, ds, hds⟩
    exact ⟨.declared p ds, .intro hp hds⟩
  · intro ⟨s, h⟩
    cases h with
    | intro hp hds => exact ⟨⟨_, hp⟩, _, hds⟩

def behindColon (text : List Char) : List Char :=
  (text.dropWhile (· ≠ ':')).drop 1

theorem behindColon_append {front after : List Char} (h : ':' ∉ front) :
    behindColon (front ++ ':' :: after) = after := by
  have hfront : ∀ c ∈ front, (decide (c ≠ ':')) = true := by
    intro c hc
    have hne : c ≠ ':' := fun heq ↦ h (heq ▸ hc)
    simpa using hne
  rw [behindColon, List.dropWhile_append_of_pos hfront]
  simp

/-- A piece of the scan in its line, behind the text `front`: a property, perhaps with a suffix, a colon and the
value. -/
structure Scanned (line : List Char) (piece : List Char × Match Spacing) (front : List Char) (p : Property)
    (w value : List Char) (px : Match (List Char)) : Prop where
  isSuffix : IsSuffix w
  pixels : pixels? value = some px
  text : piece.1 = p.word ++ (w ++ ':' :: value)
  found : piece.2 = ⟨.declared p px.value, p.word.length + w.length + 1 + px.length⟩
  inLine : front ++ piece.1 = line

section Scanned

variable {line front w value : List Char} {piece : List Char × Match Spacing} {p : Property}
variable {px : Match (List Char)}

theorem exists_scanned (h : piece ∈ scan (placed declared?) line) :
    ∃ front p w value px, Scanned line piece front p w value px := by
  obtain ⟨front, hfront, hpiece⟩ := exists_of_mem_scan_placed h
  obtain ⟨p, w, value, px, hw, hpx, htext, hfound⟩ := declared?_eq_some_iff.1 hpiece
  exact ⟨front, p, w, value, px, hw, hpx, htext, hfound, hfront⟩

theorem Scanned.behindColon_eq (h : Scanned line piece front p w value px) : behindColon piece.1 = value := by
  rw [h.text, ← List.append_assoc]
  exact behindColon_append (colon_not_mem p h.isSuffix)

theorem Scanned.line_eq (h : Scanned line piece front p w value px) :
    front ++ (p.word ++ w) ++ ':' :: value = line := by
  rw [← h.inLine, h.text]
  simp

theorem pairwise_behindColon (line : List Char) :
    (scan (placed declared?) line).Pairwise fun a b ↦
      (behindColon b.1).length < (behindColon a.1).length := by
  refine (pairwise_scan_placed declared? line).imp_of_mem ?_
  intro a b ha hb hle
  obtain ⟨_, p, w, value, px, ha⟩ := exists_scanned ha
  obtain ⟨_, q, w', value', _, hb⟩ := exists_scanned hb
  rw [ha.behindColon_eq, hb.behindColon_eq]
  rw [ha.text, hb.text, ha.found] at hle
  simp only [List.length_append, List.length_cons] at hle
  omega

theorem eq_of_behindColon_eq {a b : List Char × Match Spacing} (ha : a ∈ scan (placed declared?) line)
    (hb : b ∈ scan (placed declared?) line) (h : behindColon a.1 = behindColon b.1) : a = b := by
  have hnodup : ((scan (placed declared?) line).map fun a ↦ behindColon a.1).Nodup := by
    refine List.pairwise_map.2 ((pairwise_behindColon line).imp ?_)
    intro a b hlt heq
    rw [heq] at hlt
    exact Nat.lt_irrefl _ hlt
  exact List.inj_on_of_nodup_map hnodup ha hb h

/-- A property before a live colon lies within the piece that the scan has for the colon. -/
theorem exists_scanned_of_live {before after w : List Char} {p : Property} {ds : List Char}
    (hline : before ++ ':' :: after = line) (hw : IsSuffix w) (hword : p.word ++ w <:+ before)
    (hds : Pixels after ds) :
    ∃ piece ∈ scan (placed declared?) line, ∃ front' p' w' px',
      Scanned line piece front' p' w' after px' ∧ front' ++ (p'.word ++ w') = before ∧
        p.word ++ w <:+ p'.word ++ w' := by
  obtain ⟨front, rfl⟩ := hword
  obtain ⟨n, hpx⟩ := pixels_iff.1 hds
  have hdeclared := declared?_eq_some_iff.2 ⟨p, w, after, _, hw, hpx, rfl, rfl⟩
  have hplaced := placed_eq_some_iff.2 ⟨_, hdeclared, rfl⟩
  have hcs : front ++ (p.word ++ (w ++ ':' :: after)) = line := by
    rw [← hline]
    simp
  obtain ⟨start, between, m', hstart, hm', hcovers, hmem⟩ := scan_covers front (by simp) hplaced
  obtain ⟨m, hm, rfl⟩ := placed_eq_some_iff.1 hm'
  obtain ⟨p', w', value', px', hw', hpx', htext, rfl⟩ := declared?_eq_some_iff.1 hm
  have hlt : between.length < p'.word.length + w'.length + 1 + px'.length := by
    rcases hcovers with rfl | hlt
    · rw [List.length_nil]
      omega
    · exact hlt
  obtain ⟨hbetween, rfl⟩ := colon_shared hw hw' hpx' htext hlt
  rw [hcs] at hmem
  refine ⟨_, hmem, start, p', w', px', ⟨hw', hpx', htext, rfl, ?_⟩, ?_, between, hbetween⟩
  · rw [← hcs, ← hstart, List.append_assoc]
  · rw [← hbetween, ← hstart, List.append_assoc]

theorem Scanned.names (h : Scanned line piece front p w value px)
    (hmem : piece ∈ scan (placed declared?) line) : Names (front ++ (p.word ++ w)) p := by
  rcases h.isSuffix with rfl | ⟨name, hne, hname, rfl⟩
  · refine .inr ⟨?_, front, by rw [List.append_nil]⟩
    intro q hq
    obtain ⟨name, hne, hname, hsuffix⟩ := hq
    have hpx : Pixels value px.value := pixels_iff.2 ⟨px.length, h.pixels⟩
    obtain ⟨piece', hmem', front', p', w', px', h', -, hcovers⟩ :=
      exists_scanned_of_live h.line_eq (.inr ⟨name, hne, hname, rfl⟩) hsuffix hpx
    obtain rfl : piece = piece' := by
      apply eq_of_behindColon_eq hmem hmem'
      rw [h.behindColon_eq, h'.behindColon_eq]
    have hsame : p'.word ++ w' = p.word := by
      have htext := h'.text.symm.trans h.text
      rw [List.nil_append, ← List.append_assoc] at htext
      exact List.append_cancel_right htext
    have hhyphen : '-' ∈ p.word := by
      rw [← hsame]
      exact hcovers.subset (by simp)
    cases p <;> simp [Property.word] at hhyphen
  · exact .inl ⟨name, hne, hname, front, rfl⟩

theorem Scanned.declares (h : Scanned line piece front p w value px)
    (hmem : piece ∈ scan (placed declared?) line) :
    Declares (front ++ (p.word ++ w)) value piece.2.value := by
  rw [h.found]
  exact .intro (h.names hmem) (pixels_iff.2 ⟨px.length, h.pixels⟩)

end Scanned

structure Declaration where
  before : List Char
  after : List Char
  spacing : Spacing

def Declaration.ofPiece (line : List Char) (piece : List Char × Match Spacing) : Declaration where
  before := line.take (line.length - (behindColon piece.1).length - 1)
  after := behindColon piece.1
  spacing := piece.2.value

section Found

variable {line : List Char} {piece : List Char × Match Spacing}

theorem Scanned.ofPiece_eq {front w value : List Char} {p : Property} {px : Match (List Char)}
    (h : Scanned line piece front p w value px) :
    Declaration.ofPiece line piece = ⟨front ++ (p.word ++ w), value, piece.2.value⟩ := by
  have hlength : line.length - value.length - 1 = (front ++ (p.word ++ w)).length := by
    rw [← h.line_eq, List.length_append, List.length_cons]
    omega
  rw [Declaration.ofPiece, h.behindColon_eq, hlength, ← h.line_eq, List.take_left]

theorem mem_ofPiece_iff {d : Declaration} :
    d ∈ (scan (placed declared?) line).map (Declaration.ofPiece line) ↔
      d.before ++ ':' :: d.after = line ∧ Declares d.before d.after d.spacing := by
  rw [List.mem_map]
  constructor
  · intro h
    obtain ⟨piece, hmem, rfl⟩ := h
    obtain ⟨front, p, w, value, px, h⟩ := exists_scanned hmem
    rw [h.ofPiece_eq]
    exact ⟨h.line_eq, h.declares hmem⟩
  · intro h
    obtain ⟨before, after, spacing⟩ := d
    obtain ⟨hline, hdeclares⟩ := h
    cases hdeclares with
    | @intro p ds hnames hds =>
      obtain ⟨q, w, hw, hword⟩ := exists_names_iff.1 ⟨p, hnames⟩
      obtain ⟨piece, hmem, front, p', w', px', h, hbefore, -⟩ := exists_scanned_of_live hline hw hword hds
      have hdeclares' := h.declares hmem
      refine ⟨piece, hmem, ?_⟩
      rw [h.ofPiece_eq]
      rw [hbefore] at hdeclares' ⊢
      generalize piece.2.value = s at hdeclares' ⊢
      cases hdeclares' with
      | intro hnames' hds' => rw [hnames.unique hnames', hds.unique hds']

theorem pairwise_ofPiece (line : List Char) :
    ((scan (placed declared?) line).map (Declaration.ofPiece line)).Pairwise fun a b ↦
      a.before.length < b.before.length := by
  refine List.pairwise_map.2 ((pairwise_behindColon line).imp_of_mem ?_)
  intro a b ha hb hlt
  obtain ⟨_, _, _, _, _, ha⟩ := exists_scanned ha
  obtain ⟨_, _, _, _, _, hb⟩ := exists_scanned hb
  rw [ha.behindColon_eq, hb.behindColon_eq] at hlt
  have hlen := congrArg List.length (ha.line_eq.trans hb.line_eq.symm)
  simp only [List.length_append, List.length_cons] at hlen
  simp only [ha.ofPiece_eq, hb.ofPiece_eq, List.length_append]
  omega

end Found

/-- The declarations that a scan of the line goes through are its live colons, from left to right. Each has the
property that the text before the colon names and all digits behind the colon, and from each comes one outcome:
the line's findings and entries are those of its arbitrary values, those of these declarations and, for the
findings, those of the other rules. -/
theorem declarations_are_live_colons (number : Int) (line : List Char) :
    ∃ found : List Declaration,
      (∀ d, d ∈ found ↔ d.before ++ ':' :: d.after = line ∧ Declares d.before d.after d.spacing) ∧
      (∀ before after, before ++ ':' :: after = line ∧ Live before after ↔
        ∃ d ∈ found, d.before = before ∧ d.after = after) ∧
      found.Pairwise (fun a b ↦ a.before.length < b.before.length) ∧
      (scan (placed declared?) line).map (fun piece ↦ (behindColon piece.1, piece.2.value)) =
        found.map (fun d ↦ (d.after, d.spacing)) ∧
      scan declared? line = found.map Declaration.spacing ∧
      Line.findings number line =
        (scan arbitrary? line).flatMap (fun s ↦ (s.outcome number).1) ++
          found.flatMap (fun d ↦ (d.spacing.outcome number).1) ++
          (Violation.apartFromSpacings line).map (fun v ↦ ⟨number, v.message⟩) ∧
      Line.entries number line =
        (scan arbitrary? line).flatMap (fun s ↦ (s.outcome number).2) ++
          found.flatMap fun d ↦ (d.spacing.outcome number).2 := by
  have hscan : scan declared? line =
      ((scan (placed declared?) line).map (Declaration.ofPiece line)).map Declaration.spacing := by
    rw [← scan_placed, List.map_map]
    rfl
  have hflatMap : ∀ {β : Type} (f : Spacing → List β),
      (ofLine line).flatMap f = (scan arbitrary? line).flatMap f ++
        ((scan (placed declared?) line).map (Declaration.ofPiece line)).flatMap fun d ↦ f d.spacing := by
    intro β f
    rw [ofLine, List.flatMap_append, hscan, List.flatMap_map]
  refine ⟨(scan (placed declared?) line).map (Declaration.ofPiece line), fun d ↦ mem_ofPiece_iff, ?_,
    pairwise_ofPiece line, ?_, hscan, ?_, ?_⟩
  · intro before after
    rw [live_iff]
    constructor
    · intro h
      obtain ⟨hline, s, hs⟩ := h
      exact ⟨⟨before, after, s⟩, mem_ofPiece_iff.2 ⟨hline, hs⟩, rfl, rfl⟩
    · intro h
      obtain ⟨d, hd, rfl, rfl⟩ := h
      obtain ⟨hline, hdeclares⟩ := mem_ofPiece_iff.1 hd
      exact ⟨hline, d.spacing, hdeclares⟩
  · rw [List.map_map]
    rfl
  · rw [Line.findings_eq, hflatMap]
  · rw [Line.entries_eq, hflatMap]

example : scan declared? "padding-top: 5px; border-top: 5px; margin-gap-top: 5px".toList =
    [.declared .padding ['5'], .declared .top ['5'], .declared .gap ['5']] := by decide

end FrontendAudit.Spacing
