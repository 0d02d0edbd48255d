import FrontendAudit.Spacing.Value

namespace FrontendAudit.Spacing

namespace Value

theorem le_ofDigitChars (ds : List Char) (n : Nat) : n ≤ Nat.ofDigitChars 10 ds n := by
  rw [Nat.ofDigitChars_eq_ofDigitChars_zero]
  have h : 1 * n ≤ 10 ^ ds.length * n := Nat.mul_le_mul_right n (Nat.pow_pos (by decide))
  omega

theorem toNat_digit {c : Char} (hc : c.isDigit = true) :
    (digit c).toNat = c.toNat - '0'.toNat ∧ c.toNat - '0'.toNat < 10 := by
  simp only [Char.isDigit, Bool.and_eq_true, decide_eq_true_eq, ge_iff_le] at hc
  obtain ⟨hlow, hhigh⟩ := hc
  have hlow' : 48 ≤ c.val.toNat := hlow
  have hhigh' : c.val.toNat ≤ 57 := hhigh
  have hsub : (c.val - '0'.val).toNat = c.val.toNat - '0'.val.toNat := UInt32.toNat_sub_of_le _ _ hlow
  constructor
  · rw [digit, UInt32.toNat_toUInt64, hsub]
    rfl
  · have hc : c.toNat = c.val.toNat := rfl
    have hzero : '0'.toNat = 48 := rfl
    omega

theorem readFrom_cons {c : Char} (hc : c.isDigit = true) (n : UInt64) (cs : List Char) :
    readFrom n (c :: cs) =
      if 10 * n.toNat + (c.toNat - '0'.toNat) < UInt64.size then
        readFrom (UInt64.ofNat (10 * n.toNat + (c.toNat - '0'.toNat))) cs
      else .error .tooLarge := by
  obtain ⟨hdigit, hlt⟩ := toNat_digit hc
  have hn : n.toNat < 2 ^ 64 := n.toNat_lt
  have hten : (n * 10).toNat = n.toNat * 10 % 2 ^ 64 := UInt64.toNat_mul n 10
  have hsum : (n * 10 + digit c).toNat = ((n * 10).toNat + (digit c).toNat) % 2 ^ 64 := UInt64.toNat_add ..
  have hsize : UInt64.size = 2 ^ 64 := rfl
  have hcut : cutoff.toNat = 1844674407370955162 := rfl
  rw [readFrom, hc]
  simp only [Bool.not_true, Bool.false_eq_true, if_false, UInt64.le_iff_toNat_le, UInt64.lt_iff_toNat_lt]
  by_cases hfits : 10 * n.toNat + (c.toNat - '0'.toNat) < UInt64.size
  · have hnext : n * 10 + digit c = UInt64.ofNat (10 * n.toNat + (c.toNat - '0'.toNat)) := by
      apply UInt64.toNat_inj.1
      rw [hsum, hten, hdigit, UInt64.toNat_ofNat']
      omega
    rw [if_neg (by omega), if_neg (by omega), if_pos hfits, hnext]
  · rw [if_neg hfits]
    by_cases hlarge : cutoff.toNat ≤ n.toNat
    · rw [if_pos hlarge]
    · -- Below the cutoff the tenfold fits, so only adding the digit can wrap around.
      rw [if_neg hlarge, if_pos (by omega)]

theorem readFrom_append {ds : List Char} (hds : ∀ c ∈ ds, c.isDigit = true) (n : UInt64) (cs : List Char) :
    readFrom n (ds ++ cs) =
      if Nat.ofDigitChars 10 ds n.toNat < UInt64.size then
        readFrom (UInt64.ofNat (Nat.ofDigitChars 10 ds n.toNat)) cs
      else .error .tooLarge := by
  induction ds generalizing n with
  | nil =>
    rw [Nat.ofDigitChars_nil, if_pos n.toNat_lt, UInt64.ofNat_toNat]
    rfl
  | cons c ds ih =>
    obtain ⟨hc, hds⟩ := List.forall_mem_cons.1 hds
    rw [List.cons_append, readFrom_cons hc, Nat.ofDigitChars_cons]
    split
    case isTrue hfits => rw [ih hds, UInt64.toNat_ofNat_of_lt' hfits]
    case isFalse hover =>
      have hle := le_ofDigitChars ds (10 * n.toNat + (c.toNat - '0'.toNat))
      rw [if_neg (by omega)]

theorem read_of_digits {ds : List Char} (hne : ds ≠ []) (hds : ∀ c ∈ ds, c.isDigit = true) :
    read ds =
      if Nat.ofDigitChars 10 ds 0 < UInt64.size then .ok (UInt64.ofNat (Nat.ofDigitChars 10 ds 0))
      else .error .tooLarge := by
  have happ := readFrom_append hds 0 []
  rw [List.append_nil] at happ
  rw [read, if_neg (by simpa using hne), happ]
  rfl

end Value

theorem onScale_iff (v : UInt64) : onScale v = true ↔ v.toNat ≤ 400 ∧ 4 ∣ v.toNat := by
  rw [onScale, scale, List.contains_iff_mem, List.mem_map]
  constructor
  · intro ⟨k, hk, hv⟩
    have hk : k < 101 := List.mem_range.1 hk
    have hsize : 4 * k < UInt64.size := Nat.lt_of_lt_of_le (by omega : 4 * k < 404) (by decide)
    have hnat : (UInt64.ofNat (4 * k)).toNat = 4 * k := UInt64.toNat_ofNat_of_lt' hsize
    rw [← hv, hnat]
    omega
  · intro ⟨hle, k, hk⟩
    refine ⟨k, List.mem_range.2 (by omega), ?_⟩
    rw [← hk, UInt64.ofNat_toNat]

end FrontendAudit.Spacing
