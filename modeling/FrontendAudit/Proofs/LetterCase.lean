import FrontendAudit.Text.Basic

namespace FrontendAudit.Text

/-- The mapping is a lower case in which two characters beyond ASCII, and no others, become ASCII letters. -/
structure LowersSimply (low : Char → Char) : Prop where
  ascii : ∀ c : Char, c.toNat < 128 → low c = c.toLower
  dottedI : low '\u0130' = 'i'
  kelvin : low '\u212a' = 'k'
  beyond : ∀ c : Char, 128 ≤ c.toNat → c ≠ '\u0130' → c ≠ '\u212a' → (low c).isAlpha = false

theorem toLower_of_not_ascii {c : Char} (h : 128 ≤ c.toNat) : c.toLower = c := by
  have hval : 128 ≤ c.val.toNat := h
  unfold Char.toLower
  split
  case isTrue hupper =>
    have hle : c.val.toNat ≤ 90 := hupper.2
    omega
  case isFalse => rfl

theorem isAlpha_of_not_ascii {c : Char} (h : 128 ≤ c.toNat) : c.isAlpha = false := by
  have hle : ∀ {n : UInt32}, n.toNat < 128 → ¬c.val ≤ n := by
    intro n hn hc
    have hval : 128 ≤ c.val.toNat := h
    have hc : c.val.toNat ≤ n.toNat := hc
    omega
  have hupper : c.isUpper = false := decide_eq_false fun hc ↦ hle (by decide) hc.2
  have hlower : c.isLower = (decide (c.val ≥ 'a'.val) && false) :=
    congrArg _ (decide_eq_false (hle (by decide)))
  have halpha : c.isAlpha = (c.isUpper || c.isLower) := rfl
  rw [halpha, hupper, hlower, Bool.and_false, Bool.or_false]

theorem lowersSimply_lower : LowersSimply lower where
  ascii c hc := by
    have hother : ∀ {d : Char}, 128 ≤ d.toNat → c ≠ d := by
      intro d hd heq
      rw [heq] at hc
      omega
    rw [lower, if_neg (hother (by decide)), if_neg (hother (by decide))]
  dottedI := rfl
  kelvin := rfl
  beyond c hc hdotted hkelvin := by
    rw [lower, if_neg hdotted, if_neg hkelvin, toLower_of_not_ascii hc]
    exact isAlpha_of_not_ascii hc

section Words

variable {low : Char → Char} {c d : Char}

theorem LowersSimply.eq_iff_toLower (h : LowersSimply low) (hd : d.isAlpha = true) (hi : d ≠ 'i') (hk : d ≠ 'k') :
    low c = d ↔ c.toLower = d := by
  by_cases hc : c.toNat < 128
  · rw [h.ascii c hc]
  have hlower : c.toLower ≠ d := by
    intro heq
    rw [toLower_of_not_ascii (Nat.le_of_not_lt hc)] at heq
    rw [← heq, isAlpha_of_not_ascii (Nat.le_of_not_lt hc)] at hd
    cases hd
  refine iff_of_false ?_ hlower
  intro heq
  by_cases hdotted : c = '\u0130'
  · rw [hdotted, h.dottedI] at heq
    exact hi heq.symm
  by_cases hkelvin : c = '\u212a'
  · rw [hkelvin, h.kelvin] at heq
    exact hk heq.symm
  have halpha := h.beyond c (Nat.le_of_not_lt hc) hdotted hkelvin
  rw [heq, hd] at halpha
  cases halpha

theorem LowersSimply.eq_iff_of_isAlpha {low' : Char → Char} (h : LowersSimply low) (h' : LowersSimply low')
    (hd : d.isAlpha = true) : low c = d ↔ low' c = d := by
  by_cases hc : c.toNat < 128
  · rw [h.ascii c hc, h'.ascii c hc]
  by_cases hdotted : c = '\u0130'
  · rw [hdotted, h.dottedI, h'.dottedI]
  by_cases hkelvin : c = '\u212a'
  · rw [hkelvin, h.kelvin, h'.kelvin]
  have hne : ∀ {f : Char → Char}, LowersSimply f → f c ≠ d := by
    intro f hf heq
    have halpha := hf.beyond c (Nat.le_of_not_lt hc) hdotted hkelvin
    rw [heq, hd] at halpha
    cases halpha
  exact iff_of_false (hne h) (hne h')

theorem map_eq_iff_of_agree {f g : Char → Char} {w word : List Char} (h : ∀ d ∈ word, ∀ c, f c = d ↔ g c = d) :
    w.map f = word ↔ w.map g = word := by
  induction w generalizing word with
  | nil => rfl
  | cons c w ih =>
    cases word with
    | nil => simp
    | cons d word =>
      obtain ⟨hd, hword⟩ := List.forall_mem_cons.1 h
      rw [List.map_cons, List.map_cons, List.cons.injEq, List.cons.injEq, hd c, ih hword]

theorem infix_map_iff_of_agree {f g : Char → Char} {word line : List Char}
    (h : ∀ d ∈ word, ∀ c, f c = d ↔ g c = d) :
    word <:+: line.map f ↔ ∃ w, w <:+: line ∧ w.map g = word := by
  rw [List.infix_map_iff]
  constructor
  · intro h'
    obtain ⟨w, hw, heq⟩ := h'
    exact ⟨w, hw, (map_eq_iff_of_agree h).1 heq.symm⟩
  · intro h'
    obtain ⟨w, hw, heq⟩ := h'
    exact ⟨w, hw, ((map_eq_iff_of_agree h).2 heq).symm⟩

end Words

end FrontendAudit.Text
