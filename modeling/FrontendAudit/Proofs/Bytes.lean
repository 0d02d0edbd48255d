namespace FrontendAudit.Text

def bytes (s : String) : List UInt8 :=
  s.toUTF8.data.toList

theorem bytes_eq_flatMap (s : String) : bytes s = s.toList.flatMap String.utf8EncodeChar := by
  rw [bytes, String.toUTF8_eq_toByteArray, ← String.utf8Encode_toList, List.utf8Encode,
    List.toList_data_toByteArray]

theorem byte_cons_lt_iff {x y : Nat} (hx : x < 256) (hy : y < 256) (l l' : List UInt8) :
    UInt8.ofNat x :: l < UInt8.ofNat y :: l' ↔ x < y ∨ x = y ∧ l < l' := by
  have hlt : UInt8.ofNat x < UInt8.ofNat y ↔ x < y := by
    rw [UInt8.lt_iff_toNat_lt, UInt8.toNat_ofNat_of_lt' hx, UInt8.toNat_ofNat_of_lt' hy]
  have heq : UInt8.ofNat x = UInt8.ofNat y ↔ x = y := by
    rw [← UInt8.toNat_inj, UInt8.toNat_ofNat_of_lt' hx, UInt8.toNat_ofNat_of_lt' hy]
  rw [List.cons_lt_cons_iff, hlt, heq]

theorem lt_in_base_64 {v w : Nat} (h : v < w) :
    v / 262144 < w / 262144 ∨ v / 262144 = w / 262144 ∧
      (v / 4096 % 64 < w / 4096 % 64 ∨ v / 4096 % 64 = w / 4096 % 64 ∧
        (v / 64 % 64 < w / 64 % 64 ∨ v / 64 % 64 = w / 64 % 64 ∧ v % 64 < w % 64)) := by
  have hstep : ∀ {x y : Nat}, x < y → x / 64 < y / 64 ∨ x / 64 = y / 64 ∧ x % 64 < y % 64 := by omega
  have hshift : ∀ n : Nat, n / 64 / 64 = n / 4096 ∧ n / 4096 / 64 = n / 262144 := fun n ↦
    ⟨Nat.div_div_eq_div_mul n 64 64, Nat.div_div_eq_div_mul n 4096 64⟩
  have hv := hshift v
  have hw := hshift w
  rcases hstep h with h | ⟨heq, hlt⟩
  · rcases hstep h with h | ⟨heq, hlt⟩
    · rw [hv.1, hw.1] at h
      have hlast := hstep h
      omega
    · omega
  · omega

/-- The first byte tells the number of bytes and grows with it; characters of as many bytes differ first where
their digits in base 64 do. -/
theorem utf8EncodeChar_append_lt {c d : Char} (h : c < d) (l l' : List UInt8) :
    String.utf8EncodeChar c ++ l < String.utf8EncodeChar d ++ l' := by
  have hlt : c.val.toNat < d.val.toNat := h
  have hmax : d.val.toNat < 0x110000 := by
    have hvalid := d.valid
    simp only [UInt32.isValidChar, Nat.isValidChar] at hvalid
    omega
  simp only [String.utf8EncodeChar]
  generalize c.val.toNat = v at hlt
  generalize d.val.toNat = w at hlt hmax
  have hdigits := lt_in_base_64 hlt
  have hv : v / 262144 % 8 = v / 262144 := Nat.mod_eq_of_lt (by omega)
  have hw : w / 262144 % 8 = w / 262144 := Nat.mod_eq_of_lt (by omega)
  repeat' split
  all_goals
    simp (disch := omega) only [List.cons_append, List.nil_append, byte_cons_lt_iff]
    omega

theorem utf8EncodeChar_ne_nil (c : Char) : String.utf8EncodeChar c ≠ [] := by
  intro h
  have hlen := String.length_utf8EncodeChar c
  have hpos := c.utf8Size_pos
  rw [h, List.length_nil] at hlen
  omega

theorem flatMap_utf8EncodeChar_lt {cs ds : List Char} (h : cs < ds) :
    cs.flatMap String.utf8EncodeChar < ds.flatMap String.utf8EncodeChar := by
  induction cs generalizing ds with
  | nil =>
    cases ds with
    | nil => exact absurd h (List.lt_irrefl _)
    | cons d ds =>
      obtain ⟨b, bs, hd⟩ := List.exists_cons_of_ne_nil (utf8EncodeChar_ne_nil d)
      rw [List.flatMap_nil, List.flatMap_cons, hd]
      exact List.nil_lt_cons _ _
  | cons c cs ih =>
    cases ds with
    | nil => exact absurd h (List.not_lt_nil _)
    | cons d ds =>
      rw [List.flatMap_cons, List.flatMap_cons]
      rcases List.cons_lt_cons_iff.1 h with hlt | ⟨rfl, hlt⟩
      · exact utf8EncodeChar_append_lt hlt _ _
      · exact List.append_left_lt (ih hlt)

theorem bytes_lt_iff {s t : String} : bytes s < bytes t ↔ s < t := by
  have hmono : ∀ {s t : String}, s < t → bytes s < bytes t := by
    intro s t h
    rw [bytes_eq_flatMap, bytes_eq_flatMap]
    exact flatMap_utf8EncodeChar_lt (String.lt_iff.1 h)
  constructor
  · intro h
    apply Classical.byContradiction
    intro hnot
    rcases String.le_total s t with hle | hle
    · obtain rfl : s = t := String.le_antisymm hle (String.not_lt.1 hnot)
      exact List.lt_irrefl _ h
    · have hne : t ≠ s := by
        intro heq
        rw [heq] at h
        exact List.lt_irrefl _ h
      have hlt : t < s := String.not_le.1 fun hle' ↦ hne (String.le_antisymm hle hle')
      exact List.lt_asymm h (hmono hlt)
  · exact hmono

end FrontendAudit.Text
