import FrontendAudit.Proofs.Value

namespace FrontendAudit.Spacing.Value

def leading (text : List Char) : List Char :=
  text.takeWhile Char.isDigit

def decimal (digits : List Char) : Nat :=
  Nat.ofDigitChars 10 digits 0

theorem isDigit_of_mem_leading {text : List Char} : ∀ c ∈ leading text, c.isDigit = true :=
  List.all_eq_true.1 List.all_takeWhile

theorem leading_append_eq (text : List Char) : leading text ++ text.dropWhile Char.isDigit = text :=
  List.takeWhile_append_dropWhile

theorem leading_eq_self_iff (text : List Char) : leading text = text ↔ text.dropWhile Char.isDigit = [] := by
  have happ := leading_append_eq text
  constructor
  · intro h
    rw [h] at happ
    exact List.self_eq_append_right.1 happ.symm
  · intro h
    rwa [h, List.append_nil] at happ

theorem readFrom_dropWhile (n : UInt64) (text : List Char) :
    readFrom n (text.dropWhile Char.isDigit) = if leading text = text then .ok n else .error .malformed := by
  have hhead := List.head?_dropWhile_not Char.isDigit text
  simp only [leading_eq_self_iff]
  cases hrest : text.dropWhile Char.isDigit with
  | nil => rfl
  | cons c cs =>
    rw [hrest] at hhead
    have hc : c.isDigit = false := hhead
    rw [readFrom, hc, if_neg (List.cons_ne_nil c cs)]
    rfl

theorem readFrom_zero_append {ds : List Char} (hds : ∀ c ∈ ds, c.isDigit = true) (cs : List Char) :
    readFrom 0 (ds ++ cs) =
      if decimal ds < UInt64.size then readFrom (UInt64.ofNat (decimal ds)) cs else .error .tooLarge :=
  readFrom_append hds 0 cs

theorem read_eq (text : List Char) :
    read text =
      if UInt64.size ≤ decimal (leading text) then .error .tooLarge
      else if text ≠ [] ∧ leading text = text then .ok (UInt64.ofNat (decimal (leading text)))
      else .error .malformed := by
  by_cases hempty : text = []
  · subst hempty
    rfl
  have hread : read text = readFrom 0 (leading text ++ text.dropWhile Char.isDigit) := by
    rw [read, if_neg (by simpa using hempty), leading_append_eq]
  rw [hread, readFrom_zero_append isDigit_of_mem_leading, readFrom_dropWhile]
  simp only [ne_eq, hempty, not_false_eq_true, true_and]
  by_cases hfits : decimal (leading text) < UInt64.size
  · rw [if_pos hfits, if_neg (Nat.not_le.2 hfits)]
  · rw [if_neg hfits, if_pos (Nat.not_lt.1 hfits)]

theorem read_eq_ok_iff (text : List Char) (v : UInt64) :
    read text = .ok v ↔
      text ≠ [] ∧ leading text = text ∧ decimal (leading text) < UInt64.size ∧ v.toNat = decimal (leading text) := by
  rw [read_eq]
  by_cases hlarge : UInt64.size ≤ decimal (leading text)
  · rw [if_pos hlarge]
    refine iff_of_false (by simp) ?_
    rintro ⟨-, -, hfits, -⟩
    omega
  rw [if_neg hlarge]
  have hfits : decimal (leading text) < UInt64.size := Nat.not_le.1 hlarge
  by_cases hdigits : text ≠ [] ∧ leading text = text
  · rw [if_pos hdigits, Except.ok.injEq]
    constructor
    · rintro rfl
      exact ⟨hdigits.1, hdigits.2, hfits, UInt64.toNat_ofNat_of_lt' hfits⟩
    · rintro ⟨-, -, -, hv⟩
      rw [← hv, UInt64.ofNat_toNat]
  · rw [if_neg hdigits]
    exact iff_of_false (by simp) fun h ↦ hdigits ⟨h.1, h.2.1⟩

theorem read_eq_tooLarge_iff (text : List Char) :
    read text = .error .tooLarge ↔ UInt64.size ≤ decimal (leading text) := by
  rw [read_eq]
  by_cases hlarge : UInt64.size ≤ decimal (leading text)
  · rw [if_pos hlarge]
    exact iff_of_true rfl hlarge
  · rw [if_neg hlarge]
    refine iff_of_false ?_ hlarge
    split <;> simp

theorem read_eq_malformed_iff (text : List Char) :
    read text = .error .malformed ↔
      ¬(text ≠ [] ∧ leading text = text ∧ decimal (leading text) < UInt64.size) ∧
        ¬UInt64.size ≤ decimal (leading text) := by
  constructor
  · intro h
    constructor
    · rintro ⟨hne, hdigits, hfits⟩
      have hok := (read_eq_ok_iff text _).2 ⟨hne, hdigits, hfits, UInt64.toNat_ofNat_of_lt' hfits⟩
      rw [h] at hok
      cases hok
    · intro hlarge
      rw [(read_eq_tooLarge_iff text).2 hlarge] at h
      cases h
  · rintro ⟨hvalue, hlarge⟩
    rw [read_eq, if_neg hlarge, if_neg]
    exact fun h ↦ hvalue ⟨h.1, h.2, Nat.not_le.1 hlarge⟩

theorem decimal_replicate_zero (k : Nat) : decimal (List.replicate k '0') = 0 := by
  induction k with
  | zero => rfl
  | succ k ih => exact ih

theorem read_leading_zeros (k : Nat) {text : List Char} (hne : text ≠ []) :
    read (List.replicate k '0' ++ text) = read text := by
  have hzeros : ∀ c ∈ List.replicate k '0', c.isDigit = true := by
    intro c hc
    rw [List.eq_of_mem_replicate hc]
    rfl
  rw [read, read, if_neg (by simp [hne]), if_neg (by simpa using hne), readFrom_zero_append hzeros,
    decimal_replicate_zero]
  rfl

theorem exists_reason_iff (text : List Char) (e : ValueError) :
    (∃ e', read text = .error e' ∧ e'.reason = e.reason) ↔ read text = .error e := by
  constructor
  · rintro ⟨e', hread, hreason⟩
    have heq : e' = e := by
      cases e <;> cases e' <;> first | rfl | exact absurd hreason (by decide)
    rw [hread, heq]
  · intro hread
    exact ⟨e, hread, rfl⟩

/-- A text is a value if and only if it consists of digits, at least one, whose decimal value has a place in 64
bits, and it is this value. It is out of range if and only if the digits at its front are too large, whatever
follows, and ill-formed in all other cases. On the way the number is that of the digits read so far, or the
text is refused, and zeros in front make no difference. -/
theorem read_classifies (text : String) :
    let digits := leading text.toList
    (∀ v : UInt64, read text.toList = .ok v ↔
      text ≠ "" ∧ digits = text.toList ∧ decimal digits < UInt64.size ∧ v.toNat = decimal digits) ∧
    ((∃ e, read text.toList = .error e ∧ e.reason = "value out of range") ↔ UInt64.size ≤ decimal digits) ∧
    ((∃ e, read text.toList = .error e ∧ e.reason = "invalid syntax") ↔
      ¬(text ≠ "" ∧ digits = text.toList ∧ decimal digits < UInt64.size) ∧ ¬UInt64.size ≤ decimal digits) ∧
    (∀ ds rest : List Char, text.toList = ds ++ rest → (∀ c ∈ ds, c.isDigit = true) →
      (∃ n : UInt64, n.toNat = decimal ds ∧ readFrom 0 text.toList = readFrom n rest) ∨
        (UInt64.size ≤ decimal ds ∧ readFrom 0 text.toList = .error .tooLarge)) ∧
    ∀ zeros : Nat, text ≠ "" → read (List.replicate zeros '0' ++ text.toList) = read text.toList := by
  intro digits
  have hempty : text ≠ "" ↔ text.toList ≠ [] := by simp
  rw [hempty]
  refine ⟨read_eq_ok_iff text.toList, ?_, ?_, ?_, fun zeros hne ↦ read_leading_zeros zeros hne⟩
  · exact (exists_reason_iff text.toList .tooLarge).trans (read_eq_tooLarge_iff text.toList)
  · exact (exists_reason_iff text.toList .malformed).trans (read_eq_malformed_iff text.toList)
  · intro ds rest hsplit hds
    rw [hsplit, readFrom_zero_append hds]
    by_cases hfits : decimal ds < UInt64.size
    · rw [if_pos hfits]
      exact .inl ⟨UInt64.ofNat (decimal ds), UInt64.toNat_ofNat_of_lt' hfits, rfl⟩
    · rw [if_neg hfits]
      exact .inr ⟨Nat.not_lt.1 hfits, rfl⟩

theorem read_classifies_largest :
    read "00018446744073709551615".toList = .ok 18446744073709551615 ∧
      (∃ e, read "18446744073709551616x".toList = .error e ∧ e.reason = "value out of range") ∧
      ∃ e, read "1844674407370955161x6".toList = .error e ∧ e.reason = "invalid syntax" := by
  refine ⟨?_, ?_, ?_⟩
  · exact ((read_classifies "00018446744073709551615").1 18446744073709551615).2 (by decide +kernel)
  · exact (read_classifies "18446744073709551616x").2.1.2 (by decide +kernel)
  · exact (read_classifies "1844674407370955161x6").2.2.1.2 (by decide +kernel)

end FrontendAudit.Spacing.Value
