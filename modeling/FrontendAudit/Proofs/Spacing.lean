import FrontendAudit.Proofs.Search
import FrontendAudit.Proofs.Value
import FrontendAudit.Spacing.Basic

namespace FrontendAudit.Spacing

open Text

def Digits (ds : List Char) : Prop :=
  ds ≠ [] ∧ ∀ c ∈ ds, c.isDigit = true

def IsSuffix (w : List Char) : Prop :=
  w = [] ∨ ∃ name, name ≠ [] ∧ (∀ c ∈ name, isWord c = true) ∧ w = '-' :: name

inductive Written : Spacing → List Char → Prop
  | arbitrary {ds : List Char} : Digits ds → Written (.arbitrary ds) ('[' :: (ds ++ ['p', 'x', ']']))
  | declared (p : Property) {w blanks ds : List Char} :
      IsSuffix w → (∀ c ∈ blanks, isBlank c = true) → Digits ds →
      Written (.declared p ds) (p.word ++ (w ++ ':' :: (blanks ++ (ds ++ ['p', 'x']))))

/-- The value has a place in 64 bits and is off the grid of every fourth pixel up to 400. -/
def OffGrid (ds : List Char) : Prop :=
  Nat.ofDigitChars 10 ds 0 < UInt64.size ∧
    ¬(Nat.ofDigitChars 10 ds 0 ≤ 400 ∧ 4 ∣ Nat.ofDigitChars 10 ds 0)

theorem span_stop {p : Char → Bool} {run rest : List Char} (hrun : ∀ c ∈ run, p c = true)
    (hrest : ∀ c, rest.head? = some c → p c = false) :
    (run ++ rest).takeWhile p = run ∧ (run ++ rest).dropWhile p = rest := by
  rw [List.takeWhile_append_of_pos hrun, List.dropWhile_append_of_pos hrun]
  cases rest with
  | nil => simp
  | cons c rest =>
    have hc : ¬p c = true := by simp [hrest c rfl]
    rw [List.takeWhile_cons_of_neg hc, List.dropWhile_cons_of_neg hc, List.append_nil]
    exact ⟨rfl, rfl⟩

theorem takeWhile_digits {ds : List Char} {c : Char} (hds : Digits ds) (hc : c.isDigit = false)
    (after : List Char) :
    (ds ++ c :: after).takeWhile Char.isDigit = ds ∧ (ds ++ c :: after).dropWhile Char.isDigit = c :: after :=
  span_stop hds.2 fun _ hd ↦ Option.some.inj hd ▸ hc

theorem arbitrary?_eq_some_iff {cs : List Char} {m : Match Spacing} :
    arbitrary? cs = some m ↔
      ∃ ds after, Digits ds ∧ cs = '[' :: (ds ++ 'p' :: 'x' :: ']' :: after) ∧
        m = ⟨.arbitrary ds, ds.length + 4⟩ := by
  constructor
  · intro h
    unfold arbitrary? at h
    split at h
    case h_2 => cases h
    case h_1 cs =>
    have hcs := List.takeWhile_append_dropWhile (p := Char.isDigit) (l := cs)
    split at h
    case h_2 => cases h
    case h_1 after hafter =>
      rw [hafter] at hcs
      dsimp only at h
      split at h
      case isTrue => cases h
      case isFalse hne =>
        refine ⟨cs.takeWhile Char.isDigit, after, ⟨by simpa using hne, ?_⟩, by rw [hcs], by simpa using h.symm⟩
        exact List.all_eq_true.1 List.all_takeWhile
  · intro ⟨ds, after, hds, hcs, hm⟩
    obtain ⟨htake, hdrop⟩ := takeWhile_digits (c := 'p') hds rfl ('x' :: ']' :: after)
    subst hcs
    simp only [arbitrary?, htake, hdrop, hm]
    rw [if_neg (by simpa using hds.1)]

theorem not_isBlank_of_isDigit {c : Char} (hc : c.isDigit = true) : isBlank c = false := by
  have hblank : isBlank c = true → c ∈ [' ', '\t', '\n', '\x0c', '\r'] := by
    simp [isBlank, or_assoc]
  have hno : ∀ d ∈ [' ', '\t', '\n', '\x0c', '\r'], d.isDigit = false := by simp
  cases hb : isBlank c with
  | false => rfl
  | true => exact absurd hc (by simp [hno c (hblank hb)])

theorem isSuffix_suffix (cs : List Char) : IsSuffix (suffix cs) := by
  unfold suffix
  split
  case h_2 => exact .inl rfl
  case h_1 cs =>
    dsimp only
    split
    case isTrue => exact .inl rfl
    case isFalse hne =>
      exact .inr ⟨cs.takeWhile isWord, by simpa using hne, List.all_eq_true.1 List.all_takeWhile, rfl⟩

theorem suffix_isPrefix (cs : List Char) : suffix cs <+: cs := by
  unfold suffix
  split
  case h_2 => exact List.nil_prefix
  case h_1 cs =>
    dsimp only
    split
    case isTrue => exact List.nil_prefix
    case isFalse => exact List.cons_prefix_cons.2 ⟨rfl, List.takeWhile_prefix isWord⟩

theorem IsSuffix.suffix_append {w : List Char} (hw : IsSuffix w) (rest : List Char) :
    suffix (w ++ ':' :: rest) = w := by
  rcases hw with rfl | ⟨name, hne, hname, rfl⟩
  · rfl
  · have hstop : ∀ c, (':' :: rest).head? = some c → isWord c = false :=
      fun _ hc ↦ Option.some.inj hc ▸ rfl
    rw [List.cons_append, suffix, (span_stop hname hstop).1, if_neg (by simpa using hne)]

theorem pixels?_eq_some_iff {cs : List Char} {m : Match (List Char)} :
    pixels? cs = some m ↔
      ∃ blanks ds after, (∀ c ∈ blanks, isBlank c = true) ∧ Digits ds ∧
        cs = blanks ++ (ds ++ 'p' :: 'x' :: after) ∧ m = ⟨ds, blanks.length + ds.length + 2⟩ := by
  constructor
  · intro h
    unfold pixels? at h
    have hcs := List.takeWhile_append_dropWhile (p := isBlank) (l := cs)
    have hrest := List.takeWhile_append_dropWhile (p := Char.isDigit) (l := cs.dropWhile isBlank)
    dsimp only at h
    split at h
    case h_2 => cases h
    case h_1 after hafter =>
      rw [hafter] at hrest
      split at h
      case isTrue => cases h
      case isFalse hne =>
        refine ⟨cs.takeWhile isBlank, (cs.dropWhile isBlank).takeWhile Char.isDigit, after,
          List.all_eq_true.1 List.all_takeWhile, ⟨by simpa using hne, ?_⟩, by rw [hrest, hcs],
          by simpa using h.symm⟩
        exact List.all_eq_true.1 List.all_takeWhile
  · intro ⟨blanks, ds, after, hblanks, hds, hcs, hm⟩
    have hhead : ∀ c, (ds ++ 'p' :: 'x' :: after).head? = some c → isBlank c = false := by
      intro c hc
      obtain ⟨hne, hall⟩ := hds
      cases ds with
      | nil => exact absurd rfl hne
      | cons d ds =>
        obtain rfl : d = c := Option.some.inj hc
        exact not_isBlank_of_isDigit (hall d List.mem_cons_self)
    obtain ⟨hblank, hvalue⟩ := span_stop hblanks hhead
    obtain ⟨htake, hdrop⟩ := takeWhile_digits (c := 'p') hds rfl ('x' :: after)
    subst hcs
    simp only [pixels?, hblank, hvalue, htake, hdrop, hm]
    rw [if_neg (by simpa using hds.1)]

theorem Property.startOf?_eq_some_iff {cs : List Char} {p : Property} :
    startOf? cs = some p ↔ p.word <+: cs := by
  constructor
  · intro h
    have hp := List.find?_some (p := fun q : Property ↦ q.word.isPrefixOf cs) h
    exact List.isPrefixOf_iff_prefix.1 hp
  · intro ⟨rest, hrest⟩
    subst hrest
    cases p <;> rfl

theorem declared?_eq_some_iff {cs : List Char} {m : Match Spacing} :
    declared? cs = some m ↔
      ∃ (p : Property) (w value : List Char) (px : Match (List Char)), IsSuffix w ∧
        pixels? value = some px ∧ cs = p.word ++ (w ++ ':' :: value) ∧
        m = ⟨.declared p px.value, p.word.length + w.length + 1 + px.length⟩ := by
  constructor
  · intro h
    unfold declared? at h
    obtain ⟨p, hp, h⟩ := Option.bind_eq_some_iff.1 h
    have hcs := List.prefix_iff_eq_append.1 (Property.startOf?_eq_some_iff.1 hp)
    have hrest := List.prefix_iff_eq_append.1 (suffix_isPrefix (cs.drop p.word.length))
    dsimp only at h
    split at h
    case h_2 => cases h
    case h_1 value hvalue =>
      obtain ⟨px, hpx, h⟩ := Option.bind_eq_some_iff.1 h
      rw [hvalue] at hrest
      exact ⟨p, suffix (cs.drop p.word.length), value, px, isSuffix_suffix _, hpx, by rw [hrest, hcs],
        (Option.some.inj h).symm⟩
  · intro ⟨p, w, value, px, hw, hpx, hcs, hm⟩
    have hstart : Property.startOf? cs = some p := Property.startOf?_eq_some_iff.2 ⟨_, hcs.symm⟩
    have hdrop : cs.drop p.word.length = w ++ ':' :: value := by rw [hcs, List.drop_left]
    rw [declared?, hstart]
    simp only [Option.bind_eq_bind, Option.bind_some, hdrop, hw.suffix_append, List.drop_left, hpx, hm]

section Overlap

theorem exists_of_append_eq_append {l r a b : List Char} (h : l ++ r = a ++ b) (hlt : l.length < a.length) :
    ∃ t, t ≠ [] ∧ a = l ++ t ∧ r = t ++ b := by
  rcases List.append_eq_append_iff.1 h with ⟨t, ha, hr⟩ | ⟨t, hl, hb⟩
  · refine ⟨t, ?_, ha, hr⟩
    intro ht
    rw [ha, ht, List.append_nil] at hlt
    exact absurd hlt (Nat.lt_irrefl _)
  · rw [hl, List.length_append] at hlt
    omega

theorem mem_of_append_eq_append {l r a b : List Char} {c : Char} (h : l ++ c :: r = a ++ b)
    (hlt : l.length < a.length) : c ∈ a := by
  obtain ⟨t, hne, ha, ht⟩ := exists_of_append_eq_append h hlt
  cases t with
  | nil => exact absurd rfl hne
  | cons d t =>
    rw [ha, (List.cons.inj ht).1]
    simp

theorem arbitrary?_not_inside {between after : List Char} {m m' : Match Spacing}
    (hm' : arbitrary? (between ++ after) = some m') (hm : arbitrary? after = some m)
    (hlt : between.length < m'.length) : between = [] := by
  obtain ⟨ds', after', hds', hcs', rfl⟩ := arbitrary?_eq_some_iff.1 hm'
  obtain ⟨ds, after, hds, rfl, rfl⟩ := arbitrary?_eq_some_iff.1 hm
  cases between with
  | nil => rfl
  | cons c between =>
    have hrest : between ++ '[' :: (ds ++ 'p' :: 'x' :: ']' :: after) = (ds' ++ ['p', 'x', ']']) ++ after' := by
      simpa using (List.cons.inj hcs').2
    have hmem : '[' ∈ ds' ++ ['p', 'x', ']'] := mem_of_append_eq_append hrest (by simpa using hlt)
    have hdigit : '[' ∈ ds' := by simpa using hmem
    exact absurd (hds'.2 '[' hdigit) (by decide)

theorem colon_not_mem (p : Property) {w : List Char} (hw : IsSuffix w) : ':' ∉ p.word ++ w := by
  have hword : ':' ∉ p.word := by cases p <;> decide
  have hsuffix : ':' ∉ w := by
    rcases hw with rfl | ⟨name, -, hname, rfl⟩
    · exact List.not_mem_nil
    · intro hmem
      cases List.mem_cons.1 hmem with
      | inl h => exact absurd h (by decide)
      | inr h => exact absurd (hname ':' h) (by decide)
  simp [hword, hsuffix]

theorem word_not_inside_pixels {value between rest : List Char} {px : Match (List Char)} {q : Property}
    (hpx : pixels? value = some px) (h : between ++ (q.word ++ rest) = value) :
    px.length ≤ between.length := by
  obtain ⟨blanks, ds, after, hblanks, hds, rfl, rfl⟩ := pixels?_eq_some_iff.1 hpx
  have hrun : between ++ (q.word ++ rest) = (blanks ++ ds) ++ 'p' :: 'x' :: after := by simpa using h
  have hletter : ∃ c t, q.word = c :: t ∧ isBlank c = false ∧ c.isDigit = false := by
    cases q <;> exact ⟨_, _, rfl, by decide, by decide⟩
  obtain ⟨c, t, hword, hblank, hdigit⟩ := hletter
  rcases List.append_eq_append_iff.1 hrun with ⟨u, hu, hrest⟩ | ⟨u, rfl, hrest⟩
  · cases u with
    | nil =>
      rw [List.nil_append] at hrest
      cases q <;> simp [Property.word] at hrest
    | cons d u =>
      rw [hword] at hrest
      have hmem : c ∈ blanks ++ ds := by
        rw [hu, (List.cons.inj hrest).1]
        simp
      cases List.mem_append.1 hmem with
      | inl hc => exact absurd (hblanks c hc) (by simp [hblank])
      | inr hc => exact absurd (hds.2 c hc) (by simp [hdigit])
  · match u with
    | [] => cases q <;> simp [Property.word] at hrest
    | [_] => cases q <;> simp [Property.word] at hrest
    | _ :: _ :: u =>
      simp only [List.length_append, List.length_cons]
      omega

/-- A declaration that starts within another one shares its colon. -/
theorem colon_shared {between w w' value value' : List Char} {p q : Property} {px' : Match (List Char)}
    (hw : IsSuffix w) (hw' : IsSuffix w') (hpx' : pixels? value' = some px')
    (h : between ++ (q.word ++ (w ++ ':' :: value)) = p.word ++ (w' ++ ':' :: value'))
    (hlt : between.length < p.word.length + w'.length + 1 + px'.length) :
    between ++ (q.word ++ w) = p.word ++ w' ∧ value = value' := by
  rw [← List.append_assoc p.word] at h
  rcases List.append_eq_append_iff.1 h with ⟨t, ht, hafter⟩ | ⟨t, ht, hvalue⟩
  · -- The inner declaration starts before the colon, and there is no other colon up to it.
    have hfree : ':' ∉ t := by
      intro hmem
      exact colon_not_mem p hw' (ht ▸ List.mem_append_right _ hmem)
    rw [← List.append_assoc] at hafter
    obtain ⟨rfl, hv⟩ := append_cons_inj (colon_not_mem q hw) hfree hafter
    exact ⟨ht.symm, hv⟩
  · cases t with
    | nil =>
      rw [List.nil_append] at hvalue
      cases q <;> simp [Property.word] at hvalue
    | cons c t =>
      have hle := word_not_inside_pixels hpx' (List.cons.inj hvalue).2.symm
      rw [ht] at hlt
      simp only [List.length_append, List.length_cons] at hlt
      omega

theorem declared?_inside {between after : List Char} {m m' : Match Spacing}
    (hm' : declared? (between ++ after) = some m') (hm : declared? after = some m)
    (hlt : between.length < m'.length) :
    m'.length = between.length + m.length ∧ m'.value.digits = m.value.digits := by
  obtain ⟨p, w', value', px', hw', hpx', hcs', rfl⟩ := declared?_eq_some_iff.1 hm'
  obtain ⟨q, w, value, px, hw, hpx, rfl, rfl⟩ := declared?_eq_some_iff.1 hm
  obtain ⟨hnames, rfl⟩ := colon_shared hw hw' hpx' hcs' hlt
  rw [hpx'] at hpx
  obtain rfl := Option.some.inj hpx
  have hlength := congrArg List.length hnames
  simp only [List.length_append] at hlength ⊢
  exact ⟨by omega, rfl⟩

end Overlap

theorem Written.digits {s : Spacing} {piece : List Char} (h : Written s piece) : Digits s.digits := by
  cases h with
  | arbitrary hds => exact hds
  | declared p _ _ hds => exact hds

theorem exists_written_of_mem {line : List Char} {s : Spacing} (h : s ∈ ofLine line) :
    ∃ piece, Written s piece ∧ piece <:+: line := by
  cases List.mem_append.1 h with
  | inl h =>
    obtain ⟨before, _, m, rfl, hm, rfl⟩ := exists_of_mem_scan h
    obtain ⟨ds, after, hds, rfl, rfl⟩ := arbitrary?_eq_some_iff.1 hm
    exact ⟨_, .arbitrary hds, before, after, by simp⟩
  | inr h =>
    obtain ⟨before, _, m, rfl, hm, rfl⟩ := exists_of_mem_scan h
    obtain ⟨p, w, value, px, hw, hpx, rfl, rfl⟩ := declared?_eq_some_iff.1 hm
    obtain ⟨blanks, ds, after, hblanks, hds, rfl, rfl⟩ := pixels?_eq_some_iff.1 hpx
    exact ⟨_, .declared p hw hblanks hds, before, after, by simp⟩

theorem exists_mem_of_written {line piece : List Char} {s : Spacing} (h : Written s piece)
    (hin : piece <:+: line) : ∃ s' ∈ ofLine line, s'.digits = s.digits := by
  obtain ⟨before, after, hline⟩ := hin
  rw [List.append_assoc] at hline
  subst hline
  cases h with
  | @arbitrary ds hds =>
    have hm : arbitrary? (('[' :: (ds ++ ['p', 'x', ']'])) ++ after) = some ⟨.arbitrary ds, ds.length + 4⟩ :=
      arbitrary?_eq_some_iff.2 ⟨ds, after, hds, by simp, rfl⟩
    obtain ⟨start, between, m', -, hm', hbetween, hmem⟩ := scan_covers before (by simp) hm
    have hnil : between = [] := hbetween.elim id (arbitrary?_not_inside hm' hm)
    rw [hnil, List.nil_append, hm] at hm'
    exact ⟨m'.value, List.mem_append_left _ hmem, by rw [← Option.some.inj hm']⟩
  | @declared p w blanks ds hw hblanks hds =>
    have hpx : pixels? (blanks ++ (ds ++ 'p' :: 'x' :: after)) = some ⟨ds, blanks.length + ds.length + 2⟩ :=
      pixels?_eq_some_iff.2 ⟨blanks, ds, after, hblanks, hds, rfl, rfl⟩
    have hm := declared?_eq_some_iff.2 ⟨p, w, _, _, hw, hpx, rfl, rfl⟩
    have happ : (p.word ++ (w ++ ':' :: (blanks ++ (ds ++ ['p', 'x'])))) ++ after =
        p.word ++ (w ++ ':' :: (blanks ++ (ds ++ 'p' :: 'x' :: after))) := by simp
    rw [← happ] at hm
    obtain ⟨start, between, m', -, hm', hbetween, hmem⟩ := scan_covers before (by simp) hm
    refine ⟨m'.value, List.mem_append_right _ hmem, ?_⟩
    cases hbetween with
    | inl hnil =>
      rw [hnil, List.nil_append, hm] at hm'
      rw [← Option.some.inj hm']
    | inr hlt => exact (declared?_inside hm' hm hlt).2

theorem offScale_iff {s : Spacing} (h : Digits s.digits) : offScale s = true ↔ OffGrid s.digits := by
  rw [offScale, Value.read_of_digits h.1 h.2, OffGrid]
  split
  case h_1 v hv =>
    split at hv
    case isFalse => cases hv
    case isTrue hfits =>
      obtain rfl := Except.ok.inj hv
      rw [Bool.not_eq_true', ← Bool.not_eq_true, onScale_iff, UInt64.toNat_ofNat_of_lt' hfits]
      exact ⟨fun hoff ↦ ⟨hfits, hoff⟩, fun hoff ↦ hoff.2⟩
  case h_2 hv =>
    split at hv
    case isTrue => cases hv
    case isFalse hover => exact iff_of_false Bool.false_ne_true fun hoff ↦ hover hoff.1

theorem exists_offScale_iff {line : List Char} :
    (∃ s ∈ ofLine line, offScale s = true) ↔
      ∃ s piece, Written s piece ∧ piece <:+: line ∧ OffGrid s.digits := by
  constructor
  · intro ⟨s, hs, hoff⟩
    obtain ⟨piece, hwritten, hin⟩ := exists_written_of_mem hs
    exact ⟨s, piece, hwritten, hin, (offScale_iff hwritten.digits).1 hoff⟩
  · intro ⟨s, piece, hwritten, hin, hoff⟩
    obtain ⟨s', hs', hdigits⟩ := exists_mem_of_written hwritten hin
    refine ⟨s', hs', (offScale_iff ?_).2 ?_⟩
    · rw [hdigits]
      exact hwritten.digits
    · rwa [hdigits]

end FrontendAudit.Spacing
