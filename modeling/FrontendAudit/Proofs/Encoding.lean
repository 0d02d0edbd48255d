import FrontendAudit.Proofs.Bytes

namespace FrontendAudit.Text

def Trails (b : UInt8) : Prop :=
  0x80 ≤ b ∧ b ≤ 0xbf

inductive Encoded : List UInt8 → Prop
  | one {a : UInt8} : a ≤ 0x7f → Encoded [a]
  | two {a b : UInt8} : 0xc2 ≤ a → a ≤ 0xdf → Trails b → Encoded [a, b]
  | three {a b c : UInt8} : 0xe0 ≤ a → a ≤ 0xef → Trails b → Trails c →
      (a = 0xe0 → 0xa0 ≤ b) → (a = 0xed → b ≤ 0x9f) → Encoded [a, b, c]
  | four {a b c d : UInt8} : 0xf0 ≤ a → a ≤ 0xf4 → Trails b → Trails c → Trails d →
      (a = 0xf0 → 0x90 ≤ b) → (a = 0xf4 → b ≤ 0x8f) → Encoded [a, b, c, d]

inductive IsUtf8 : List UInt8 → Prop
  | nil : IsUtf8 []
  | cons {piece rest : List UInt8} : Encoded piece → IsUtf8 rest → IsUtf8 (piece ++ rest)

section Character

theorem exists_char_of_scalar {n : Nat} (h : n < 0xd800 ∨ 0xdfff < n ∧ n < 0x110000) :
    ∃ c : Char, c.val.toNat = n :=
  ⟨Char.ofNatAux n h, rfl⟩

theorem byte_eq_of_toNat {n : Nat} {b : UInt8} (h : n = b.toNat) : UInt8.ofNat n = b := by
  rw [h, UInt8.ofNat_toNat]

theorem Encoded.exists_char {bs : List UInt8} (h : Encoded bs) : ∃ c : Char, String.utf8EncodeChar c = bs := by
  cases h with
  | @one a ha =>
    simp only [UInt8.le_iff_toNat_le, UInt8.reduceToNat] at ha
    obtain ⟨c, hc⟩ := exists_char_of_scalar (n := a.toNat) (by omega)
    refine ⟨c, ?_⟩
    rw [String.utf8EncodeChar, hc, if_pos ha, UInt8.ofNat_toNat]
  | @two a b hlow hhigh hb =>
    simp only [Trails, UInt8.le_iff_toNat_le, UInt8.reduceToNat] at hlow hhigh hb
    obtain ⟨c, hc⟩ := exists_char_of_scalar (n := (a.toNat - 192) * 64 + (b.toNat - 128)) (by omega)
    refine ⟨c, ?_⟩
    rw [String.utf8EncodeChar, hc, if_neg (by omega), if_pos (by omega),
      byte_eq_of_toNat (b := a) (by omega), byte_eq_of_toNat (b := b) (by omega)]
  | @three a b c hlow hhigh hb hc hshort hsurrogate =>
    simp only [Trails, UInt8.le_iff_toNat_le, UInt8.reduceToNat, ← UInt8.toNat_inj]
      at hlow hhigh hb hc hshort hsurrogate
    obtain ⟨e, he⟩ := exists_char_of_scalar
      (n := (a.toNat - 224) * 4096 + (b.toNat - 128) * 64 + (c.toNat - 128)) (by omega)
    refine ⟨e, ?_⟩
    rw [String.utf8EncodeChar, he, if_neg (by omega), if_neg (by omega), if_pos (by omega),
      byte_eq_of_toNat (b := a) (by omega), byte_eq_of_toNat (b := b) (by omega), byte_eq_of_toNat (b := c) (by omega)]
  | @four a b c d hlow hhigh hb hc hd hshort hlast =>
    simp only [Trails, UInt8.le_iff_toNat_le, UInt8.reduceToNat, ← UInt8.toNat_inj]
      at hlow hhigh hb hc hd hshort hlast
    obtain ⟨e, he⟩ := exists_char_of_scalar
      (n := (a.toNat - 240) * 262144 + (b.toNat - 128) * 4096 + (c.toNat - 128) * 64 + (d.toNat - 128)) (by omega)
    refine ⟨e, ?_⟩
    rw [String.utf8EncodeChar, he, if_neg (by omega), if_neg (by omega), if_neg (by omega),
      byte_eq_of_toNat (b := a) (by omega), byte_eq_of_toNat (b := b) (by omega), byte_eq_of_toNat (b := c) (by omega),
      byte_eq_of_toNat (b := d) (by omega)]

theorem encoded_utf8EncodeChar (c : Char) : Encoded (String.utf8EncodeChar c) := by
  have hvalid : c.val.toNat < 0xd800 ∨ 0xdfff < c.val.toNat ∧ c.val.toNat < 0x110000 := c.valid
  have hbyte : ∀ {n : Nat}, n < 256 → (UInt8.ofNat n).toNat = n := fun h ↦ UInt8.toNat_ofNat_of_lt' h
  have htrails : ∀ n : Nat, Trails (UInt8.ofNat (n % 64 + 128)) := by
    intro n
    simp (disch := omega) only [Trails, UInt8.le_iff_toNat_le, hbyte, UInt8.reduceToNat]
    omega
  rw [String.utf8EncodeChar]
  generalize c.val.toNat = v at hvalid
  split
  case isTrue hone =>
    apply Encoded.one
    rwa [UInt8.le_iff_toNat_le, hbyte (by omega)]
  case isFalse =>
  split
  case isTrue htwo =>
    apply Encoded.two _ _ (htrails v)
    all_goals
      simp (disch := omega) only [UInt8.le_iff_toNat_le, hbyte, UInt8.reduceToNat]
      omega
  case isFalse =>
  split
  case isTrue hthree =>
    apply Encoded.three _ _ (htrails (v / 64)) (htrails v)
    all_goals
      simp (disch := omega) only [UInt8.le_iff_toNat_le, ← UInt8.toNat_inj, hbyte, UInt8.reduceToNat]
      omega
  case isFalse =>
    apply Encoded.four _ _ (htrails (v / 4096)) (htrails (v / 64)) (htrails v)
    all_goals
      simp (disch := omega) only [UInt8.le_iff_toNat_le, ← UInt8.toNat_inj, hbyte, UInt8.reduceToNat]
      omega

theorem encoded_iff {piece : List UInt8} : Encoded piece ↔ ∃ c : Char, String.utf8EncodeChar c = piece := by
  constructor
  · exact Encoded.exists_char
  · intro h
    obtain ⟨c, rfl⟩ := h
    exact encoded_utf8EncodeChar c

end Character

theorem isUtf8_iff {bs : List UInt8} : IsUtf8 bs ↔ ∃ cs : List Char, cs.flatMap String.utf8EncodeChar = bs := by
  constructor
  · intro h
    induction h with
    | nil => exact ⟨[], rfl⟩
    | cons hpiece _ ih =>
      obtain ⟨c, rfl⟩ := encoded_iff.1 hpiece
      obtain ⟨cs, rfl⟩ := ih
      exact ⟨c :: cs, List.flatMap_cons⟩
  · intro h
    obtain ⟨cs, rfl⟩ := h
    induction cs with
    | nil => exact .nil
    | cons c cs ih =>
      rw [List.flatMap_cons]
      exact .cons (encoded_utf8EncodeChar c) ih

/-- Some bytes are those of a text exactly if they are sequences of characters one after the other. -/
theorem exists_toUTF8_iff {content : ByteArray} :
    (∃ text : String, text.toUTF8 = content) ↔ IsUtf8 content.data.toList := by
  rw [isUtf8_iff]
  constructor
  · intro h
    obtain ⟨text, htext⟩ := h
    exact ⟨text.toList, by rw [← bytes_eq_flatMap, bytes, htext]⟩
  · intro h
    obtain ⟨cs, hcs⟩ := h
    refine ⟨String.ofList cs, ByteArray.ext (Array.toList_inj.1 ?_)⟩
    rw [← hcs, ← bytes, bytes_eq_flatMap, String.toList_ofList]

end FrontendAudit.Text
