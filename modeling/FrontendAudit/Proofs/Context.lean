import FrontendAudit.Proofs.Spacing

namespace FrontendAudit.Text

variable {α β : Type} {recognise : List Char → Option (Match α)} {Written : α → List Char → Prop}

/-- What the recogniser accepts is a written piece, and it goes by that piece alone. -/
def Takes (recognise : List Char → Option (Match α)) (Written : α → List Char → Prop) : Prop :=
  ∀ cs m, recognise cs = some m → ∃ piece after, Written m.value piece ∧ piece ++ after = cs ∧
    piece.length = m.length ∧ ∀ rest, recognise (piece ++ rest) = some m

/-- A piece that starts within another one ends where that one ends, and the two have the same key. -/
def EndsTogether (recognise : List Char → Option (Match α)) (key : α → β) : Prop :=
  ∀ between after m m', recognise (between ++ after) = some m → recognise after = some m' →
    between.length < m.length → m.length = between.length + m'.length ∧ key m.value = key m'.value

section Takes

variable {cs rest : List Char} {m : Match α}

theorem Takes.length_le (h : Takes recognise Written) (hm : recognise cs = some m) : m.length ≤ cs.length := by
  obtain ⟨piece, after, -, rfl, hlength, -⟩ := h cs m hm
  rw [List.length_append]
  omega

theorem Takes.append (h : Takes recognise Written) (hm : recognise cs = some m) (rest : List Char) :
    recognise (cs ++ rest) = some m := by
  obtain ⟨piece, after, -, rfl, -, haccept⟩ := h cs m hm
  rw [List.append_assoc]
  exact haccept (after ++ rest)

theorem Takes.of_append (h : Takes recognise Written) (hm : recognise (cs ++ rest) = some m)
    (hle : m.length ≤ cs.length) : recognise cs = some m := by
  obtain ⟨piece, after, -, happ, hlength, haccept⟩ := h _ m hm
  obtain ⟨tail, rfl⟩ : piece <+: cs :=
    List.prefix_of_prefix_length_le ⟨after, happ⟩ (List.prefix_append cs rest) (by omega)
  exact haccept tail

theorem Takes.before_separator (h : Takes recognise Written) {c : Char}
    (hc : ∀ a piece, Written a piece → c ∉ piece) (x y : List Char) :
    recognise (x ++ c :: y) = recognise x := by
  refine Option.ext fun m ↦ ⟨fun hm ↦ h.of_append hm ?_, fun hm ↦ h.append hm (c :: y)⟩
  obtain ⟨piece, after, hwritten, happ, hlength, -⟩ := h _ m hm
  apply Nat.le_of_not_lt
  intro hlt
  have hcut : x ++ [c] <+: x ++ c :: y := ⟨y, by simp⟩
  obtain ⟨tail, rfl⟩ : x ++ [c] <+: piece := by
    refine List.prefix_of_prefix_length_le hcut ⟨after, happ⟩ ?_
    rw [List.length_append, List.length_singleton]
    omega
  exact hc m.value _ hwritten (by simp)

end Takes

theorem scan_eq_scan_drop {cs : List Char} {k : Nat}
    (h : ∀ before after, before ++ after = cs → before.length < k → recognise after = none) :
    scan recognise cs = scan recognise (cs.drop k) := by
  induction k generalizing cs with
  | zero => rfl
  | succ k ih =>
    cases cs with
    | nil => rfl
    | cons c cs =>
      rw [scan_cons_of_none (h [] _ rfl (by simp)), List.drop_succ_cons]
      apply ih
      intro before after happ hlt
      exact h (c :: before) after (by rw [List.cons_append, happ]) (by simpa using hlt)

theorem scan_before_separator (h : Takes recognise Written) {c : Char}
    (hc : ∀ a piece, Written a piece → c ∉ piece) (hnil : recognise [] = none) (x y : List Char) :
    scan recognise (x ++ c :: y) = scan recognise x ++ scan recognise y := by
  have hbefore := h.before_separator hc
  induction x using scan_induction recognise with
  | nil => exact scan_cons_of_none ((hbefore [] y).trans hnil)
  | pass d x hd ih =>
    have hd' : recognise (d :: (x ++ c :: y)) = none := (hbefore (d :: x) y).trans hd
    rw [List.cons_append, scan_cons_of_none hd, scan_cons_of_none hd', ih]
  | take d x m hd ih =>
    have hd' : recognise (d :: (x ++ c :: y)) = some m := (hbefore (d :: x) y).trans hd
    have hle : m.length - 1 ≤ x.length := by
      have hlength := h.length_le hd
      rw [List.length_cons] at hlength
      omega
    rw [List.cons_append, scan_cons_of_some hd, scan_cons_of_some hd', List.drop_append_of_le_length hle, ih,
      List.cons_append]

inductive SameButFirst (key : α → β) : List α → List α → Prop
  | nil : SameButFirst key [] []
  | cons {a b : α} (l : List α) : key a = key b → SameButFirst key (a :: l) (b :: l)

theorem SameButFirst.refl (key : α → β) (l : List α) : SameButFirst key l l := by
  cases l with
  | nil => exact .nil
  | cons a l => exact .cons l rfl

theorem SameButFirst.map_eq {key : α → β} {l l' : List α} (h : SameButFirst key l l') :
    l.map key = l'.map key := by
  cases h with
  | nil => rfl
  | cons l hkey => rw [List.map_cons, List.map_cons, hkey]

theorem SameButFirst.tail_eq {key : α → β} {l l' : List α} (h : SameButFirst key l l') : l.tail = l'.tail := by
  cases h <;> rfl

theorem SameButFirst.exists_append {key : α → β} {found l back : List α}
    (h : SameButFirst key found (l ++ back)) :
    ∃ found' back', found = found' ++ back' ∧ SameButFirst key found' l := by
  cases l with
  | nil => exact ⟨[], found, rfl, .nil⟩
  | cons b l =>
    cases h with
    | @cons a _ _ hkey => exact ⟨a :: l, back, rfl, .cons l hkey⟩

section Part

variable {key : α → β}

theorem scan_isPrefix_append (h : Takes recognise Written) (hends : EndsTogether recognise key)
    (cs rest : List Char) : scan recognise cs <+: scan recognise (cs ++ rest) := by
  induction cs using scan_induction recognise with
  | nil => exact List.nil_prefix
  | pass c cs hc ih =>
    rw [scan_cons_of_none hc, List.cons_append]
    cases hwhole : recognise (c :: (cs ++ rest)) with
    | none =>
      rw [scan_cons_of_none hwhole]
      exact ih
    | some m =>
      -- The piece reaches beyond `cs`, and one within `cs` would have to reach as far.
      have hlong : (c :: cs).length < m.length := by
        apply Nat.lt_of_not_le
        intro hle
        have hpart : recognise (c :: cs) = some m := h.of_append hwhole hle
        rw [hc] at hpart
        cases hpart
      have hnone : scan recognise cs = [] := by
        rw [scan_eq_scan_drop (k := cs.length), List.drop_length]
        · rfl
        · intro before after happ hlt
          subst happ
          cases hafter : recognise after with
          | none => rfl
          | some m' =>
            have hle := h.length_le hafter
            rw [List.append_assoc] at hwhole
            simp only [List.length_cons, List.length_append] at hlong
            have hend := (hends (c :: before) (after ++ rest) m m' hwhole (h.append hafter rest)
              (by rw [List.length_cons]; omega)).1
            rw [List.length_cons] at hend
            omega
      rw [hnone]
      exact List.nil_prefix
  | take c cs m hc ih =>
    have hwhole := h.append hc rest
    have hle : m.length - 1 ≤ cs.length := by
      have hlength := h.length_le hc
      rw [List.length_cons] at hlength
      omega
    rw [List.cons_append] at hwhole ⊢
    rw [scan_cons_of_some hc, scan_cons_of_some hwhole, List.drop_append_of_le_length hle]
    exact List.cons_prefix_cons.2 ⟨rfl, ih⟩

/-- Where a piece reaches `k` characters into `cs`, a scan of `cs` takes at most one piece in them. -/
theorem scan_covered (hends : EndsTogether recognise key) {before cs : List Char} {m : Match α} {k : Nat}
    (hm : recognise (before ++ cs) = some m) (hk : m.length = before.length + k) :
    scan recognise cs = scan recognise (cs.drop k) ∨
      ∃ a, key m.value = key a ∧ scan recognise cs = a :: scan recognise (cs.drop k) := by
  induction k generalizing before cs with
  | zero => exact .inl rfl
  | succ k ih =>
    cases cs with
    | nil => exact .inl rfl
    | cons c cs =>
      rw [List.drop_succ_cons]
      cases hc : recognise (c :: cs) with
      | none =>
        rw [scan_cons_of_none hc]
        have hm' : recognise ((before ++ [c]) ++ cs) = some m := by rwa [List.append_assoc]
        apply ih hm'
        rw [List.length_append, List.length_singleton]
        omega
      | some m' =>
        obtain ⟨hend, hkey⟩ := hends before (c :: cs) m m' hm hc (by omega)
        have hlength : m'.length - 1 = k := by omega
        rw [scan_cons_of_some hc, hlength]
        exact .inr ⟨m'.value, hkey, rfl⟩

theorem scan_append_left (hends : EndsTogether recognise key) (before cs : List Char) :
    ∃ front found, scan recognise (before ++ cs) = front ++ found ∧
      SameButFirst key found (scan recognise cs) := by
  generalize hwhole : before ++ cs = whole
  induction whole using scan_induction recognise generalizing before with
  | nil =>
    obtain ⟨-, rfl⟩ := List.append_eq_nil_iff.1 hwhole
    exact ⟨[], [], rfl, .nil⟩
  | pass c rest hc ih =>
    cases before with
    | nil =>
      obtain rfl : cs = c :: rest := hwhole
      exact ⟨[], _, rfl, .refl key _⟩
    | cons d before =>
      obtain ⟨front, found, hfound, hsame⟩ := ih before (List.cons.inj hwhole).2
      exact ⟨front, found, (scan_cons_of_none hc).trans hfound, hsame⟩
  | take c rest m hc ih =>
    cases before with
    | nil =>
      obtain rfl : cs = c :: rest := hwhole
      exact ⟨[], _, rfl, .refl key _⟩
    | cons d before =>
      obtain ⟨rfl, rfl⟩ := List.cons.inj ((List.cons_append ..).symm.trans hwhole)
      rw [scan_cons_of_some hc]
      by_cases hle : m.length - 1 ≤ before.length
      · have hdrop : before.drop (m.length - 1) ++ cs = (before ++ cs).drop (m.length - 1) :=
          (List.drop_append_of_le_length hle).symm
        obtain ⟨front, found, hfound, hsame⟩ := ih _ hdrop
        exact ⟨m.value :: front, found, by rw [hfound, List.cons_append], hsame⟩
      · have hdrop : (before ++ cs).drop (m.length - 1) = cs.drop (m.length - 1 - before.length) := by
          rw [List.drop_append, List.drop_eq_nil_of_le (by omega), List.nil_append]
        rw [hdrop]
        have hreach : m.length = (d :: before).length + (m.length - 1 - before.length) := by
          rw [List.length_cons]
          omega
        have hpiece : recognise ((d :: before) ++ cs) = some m := hc
        rcases scan_covered hends hpiece hreach with hrest | ⟨a, hkey, hrest⟩
        · exact ⟨[m.value], _, rfl, hrest ▸ .refl key _⟩
        · exact ⟨[], _, rfl, hrest ▸ .cons _ hkey⟩

theorem scan_part (h : Takes recognise Written) (hends : EndsTogether recognise key)
    (before cs after : List Char) :
    ∃ front found back, scan recognise (before ++ cs ++ after) = front ++ found ++ back ∧
      SameButFirst key found (scan recognise cs) := by
  obtain ⟨back, hback⟩ := scan_isPrefix_append h hends cs after
  obtain ⟨front, found, hfound, hsame⟩ := scan_append_left hends before (cs ++ after)
  rw [← hback] at hsame
  obtain ⟨found', back', rfl, hsame'⟩ := hsame.exists_append
  exact ⟨front, found', back', by rw [List.append_assoc, hfound, List.append_assoc], hsame'⟩

end Part

end FrontendAudit.Text

namespace FrontendAudit.Spacing

open Text

theorem takes_arbitrary? : Takes arbitrary? Written := by
  intro cs m hm
  obtain ⟨ds, after, hds, rfl, rfl⟩ := arbitrary?_eq_some_iff.1 hm
  refine ⟨_, after, .arbitrary hds, by simp, by simp, fun rest ↦ ?_⟩
  exact arbitrary?_eq_some_iff.2 ⟨ds, rest, hds, by simp, rfl⟩

theorem takes_declared? : Takes declared? Written := by
  intro cs m hm
  obtain ⟨p, w, value, px, hw, hpx, rfl, rfl⟩ := declared?_eq_some_iff.1 hm
  obtain ⟨blanks, ds, after, hblanks, hds, rfl, rfl⟩ := pixels?_eq_some_iff.1 hpx
  refine ⟨_, after, .declared p hw hblanks hds, by simp, ?_, fun rest ↦ ?_⟩
  · simp only [List.length_append, List.length_cons, List.length_nil]
    omega
  · have hpx' := pixels?_eq_some_iff.2 ⟨blanks, ds, rest, hblanks, hds, rfl, rfl⟩
    exact declared?_eq_some_iff.2 ⟨p, w, _, _, hw, hpx', by simp, rfl⟩

theorem endsTogether_arbitrary? : EndsTogether arbitrary? (id : Spacing → Spacing) := by
  intro between after m m' hm hm' hlt
  obtain rfl := arbitrary?_not_inside hm hm' hlt
  obtain rfl := Option.some.inj (hm.symm.trans hm')
  exact ⟨(Nat.zero_add _).symm, rfl⟩

theorem endsTogether_declared? : EndsTogether declared? digits :=
  fun _ _ _ _ hm hm' hlt ↦ declared?_inside hm hm' hlt

theorem Written.semicolon_not_mem {s : Spacing} {piece : List Char} (h : Written s piece) : ';' ∉ piece := by
  have hdigits : ∀ {ds : List Char}, Digits ds → ';' ∉ ds :=
    fun hds hmem ↦ absurd (hds.2 ';' hmem) (by decide)
  cases h with
  | arbitrary hds => simp [hdigits hds]
  | @declared p w blanks ds hw hblanks hds =>
    have hword : ';' ∉ p.word := by cases p <;> decide
    have hblank : ';' ∉ blanks := fun hmem ↦ absurd (hblanks ';' hmem) (by decide)
    have hsuffix : ';' ∉ w := by
      rcases hw with rfl | ⟨name, -, hname, rfl⟩
      · exact List.not_mem_nil
      · have hnone : ';' ∉ name := fun hmem ↦ absurd (hname ';' hmem) (by decide)
        simp [hnone]
    simp [hword, hsuffix, hblank, hdigits hds]

end FrontendAudit.Spacing
