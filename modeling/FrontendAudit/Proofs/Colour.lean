import FrontendAudit.Proofs.Page
import Mathlib.Logic.Relation

namespace FrontendAudit

namespace Text

/-- Words that a mark starts which stands nowhere else in them, and none of which is the front of another. -/
structure Marked (mark : Char) (words : List (List Char)) : Prop where
  head : ∀ w ∈ words, w.head? = some mark
  tail : ∀ w ∈ words, mark ∉ w.tail
  apart : ∀ w ∈ words, ∀ v ∈ words, w <+: v → w = v

def withoutFrom (words : List (List Char)) (skip : Nat) : List Char → List Char
  | [] => []
  | c :: cs =>
    match skip with
    | n + 1 => withoutFrom words n cs
    | 0 =>
      match words.find? (·.isPrefixOf (c :: cs)) with
      | some w => withoutFrom words (w.length - 1) cs
      | none => c :: withoutFrom words 0 cs

def without (words : List (List Char)) (text : List Char) : List Char :=
  withoutFrom words 0 text

def Deletes (words : List (List Char)) (text rest : List Char) : Prop :=
  ∃ front w back, w ∈ words ∧ text = front ++ (w ++ back) ∧ rest = front ++ back

/-- The text is the plain one, which is free of the mark, with some of the words put in between. -/
inductive Strewn (mark : Char) (words : List (List Char)) : List Char → List Char → Prop
  | nil : Strewn mark words [] []
  | char {c : Char} {text plain : List Char} (hc : c ≠ mark) (h : Strewn mark words text plain) :
      Strewn mark words (c :: text) (c :: plain)
  | word {w text plain : List Char} (hw : w ∈ words) (h : Strewn mark words text plain) :
      Strewn mark words (w ++ text) plain

section Words

variable {mark : Char} {words : List (List Char)}

namespace Marked

theorem eq_cons (hm : Marked mark words) {w : List Char} (hw : w ∈ words) : w = mark :: w.tail := by
  obtain ⟨rest, rfl⟩ := List.head?_eq_some_iff.1 (hm.head w hw)
  rfl

theorem append_inj (hm : Marked mark words) {w v s t : List Char} (hw : w ∈ words) (hv : v ∈ words)
    (h : w ++ s = v ++ t) : w = v ∧ s = t := by
  have hwv : w = v := by
    rcases List.prefix_or_prefix_of_prefix (List.prefix_append w s) (h ▸ List.prefix_append v t) with hpre | hpre
    · exact hm.apart w hw v hv hpre
    · exact (hm.apart v hv w hw hpre).symm
  subst hwv
  exact ⟨rfl, List.append_cancel_left h⟩

theorem not_infix (hm : Marked mark words) {plain : List Char} (h : mark ∉ plain) {w : List Char} (hw : w ∈ words) :
    ¬w <:+: plain := by
  intro hinfix
  apply h
  apply hinfix.subset
  rw [hm.eq_cons hw]
  exact List.mem_cons_self

end Marked

theorem withoutFrom_length_append (skipped cs : List Char) :
    withoutFrom words skipped.length (skipped ++ cs) = without words cs := by
  induction skipped with
  | nil => rfl
  | cons c skipped ih => exact ih

theorem without_cons (hm : Marked mark words) {c : Char} (hc : c ≠ mark) (cs : List Char) :
    without words (c :: cs) = c :: without words cs := by
  have hnone : words.find? (·.isPrefixOf (c :: cs)) = none := by
    rw [List.find?_eq_none]
    intro w hw hpre
    rw [List.isPrefixOf_iff_prefix, hm.eq_cons hw] at hpre
    exact hc (List.cons_prefix_cons.1 hpre).1.symm
  rw [without, withoutFrom, hnone]
  rfl

theorem without_append (hm : Marked mark words) {w : List Char} (hw : w ∈ words) (cs : List Char) :
    without words (w ++ cs) = without words cs := by
  have hcons : w ++ cs = mark :: (w.tail ++ cs) := by
    rw [← List.cons_append, ← hm.eq_cons hw]
  have hfind : words.find? (·.isPrefixOf (w ++ cs)) = some w := by
    cases hfound : words.find? (·.isPrefixOf (w ++ cs)) with
    | none =>
      have hpre := List.find?_eq_none.1 hfound w hw
      exact absurd (List.isPrefixOf_iff_prefix.2 (List.prefix_append w cs)) hpre
    | some v =>
      have hv : v ∈ words := List.mem_of_find?_eq_some hfound
      have hpre := List.find?_some hfound
      obtain ⟨rest, hrest⟩ := List.isPrefixOf_iff_prefix.1 hpre
      rw [(hm.append_inj hv hw hrest).1]
  rw [hcons] at hfind
  rw [hcons, without, withoutFrom, hfind]
  change withoutFrom words (w.length - 1) (w.tail ++ cs) = without words cs
  rw [← List.length_tail, withoutFrom_length_append]

namespace Strewn

variable {text text' plain plain' : List Char}

theorem append (h : Strewn mark words text plain) (h' : Strewn mark words text' plain') :
    Strewn mark words (text ++ text') (plain ++ plain') := by
  induction h with
  | nil => exact h'
  | char hc _ ih => exact .char hc ih
  | word hw _ ih =>
    rw [List.append_assoc]
    exact .word hw ih

theorem of_not_mem (h : mark ∉ text) : Strewn mark words text text := by
  induction text with
  | nil => exact .nil
  | cons c text ih =>
    rw [List.mem_cons, not_or] at h
    exact .char (Ne.symm h.1) (ih h.2)

theorem not_mem_plain (h : Strewn mark words text plain) : mark ∉ plain := by
  induction h with
  | nil => exact List.not_mem_nil
  | char hc _ ih =>
    rw [List.mem_cons, not_or]
    exact ⟨hc.symm, ih⟩
  | word _ _ ih => exact ih

theorem without_eq (hm : Marked mark words) (h : Strewn mark words text plain) : without words text = plain := by
  induction h with
  | nil => rfl
  | char hc _ ih => rw [without_cons hm hc, ih]
  | word hw _ ih => rw [without_append hm hw, ih]

/-- A deletion leaves the plain text as it is. A word that is found starts with the mark, so it starts where one of
those put in does. -/
theorem of_deletes (hm : Marked mark words) (h : Strewn mark words text plain) {rest : List Char}
    (hdel : Deletes words text rest) : Strewn mark words rest plain := by
  obtain ⟨front, w, back, hw, htext, rfl⟩ := hdel
  induction h generalizing front with
  | nil =>
    rw [hm.eq_cons hw] at htext
    simp at htext
  | @char c text plain hc h ih =>
    cases front with
    | nil =>
      rw [hm.eq_cons hw] at htext
      exact absurd (List.cons.inj htext).1 hc
    | cons d front =>
      obtain ⟨rfl, hrest⟩ := List.cons.inj htext
      exact .char hc (ih front hrest)
  | @word v text plain hv h ih =>
    rcases List.append_eq_append_iff.1 htext with ⟨between, rfl, hback⟩ | ⟨between, hfront, hback⟩
    · rw [List.append_assoc]
      exact .word hv (ih between hback)
    · cases between with
      | nil =>
        rw [List.append_nil] at hfront
        rw [← hfront]
        exact .word hv (ih [] hback.symm)
      | cons c between =>
        have hc : c = mark := by
          rw [hm.eq_cons hw] at hback
          exact (List.cons.inj hback).1.symm
        cases front with
        | nil =>
          obtain ⟨-, rfl⟩ := hm.append_inj hw hv (hback.trans (by rw [hfront, List.nil_append]))
          exact h
        | cons d front =>
          have hmem : mark ∈ v.tail := by
            rw [hfront, hc]
            simp
          exact absurd hmem (hm.tail v hv)

theorem of_reduces (hm : Marked mark words) (h : Strewn mark words text plain) {rest : List Char}
    (hdel : Relation.ReflTransGen (Deletes words) text rest) : Strewn mark words rest plain := by
  induction hdel with
  | refl => exact h
  | tail _ hstep ih => exact ih.of_deletes hm hstep

theorem eq_plain (h : Strewn mark words text plain) (hnone : ∀ w ∈ words, ¬w <:+: text) : text = plain := by
  induction h with
  | nil => rfl
  | @char c text plain _ _ ih =>
    rw [ih fun w hw hinfix ↦ hnone w hw (List.infix_cons hinfix)]
  | @word w text plain hw _ _ => exact absurd (List.prefix_append w text).isInfix (hnone w hw)

theorem reduces (h : Strewn mark words text plain) : Relation.ReflTransGen (Deletes words) text plain := by
  induction h with
  | nil => exact .refl
  | @char c text plain _ _ ih =>
    refine ih.lift (c :: ·) ?_
    rintro _ _ ⟨front, w, back, hw, rfl, rfl⟩
    exact ⟨c :: front, w, back, hw, rfl, rfl⟩
  | @word w text plain hw _ ih => exact .head ⟨[], w, text, hw, rfl, rfl⟩ ih

/-- In whatever order the words are deleted, the plain text is what remains in the end. -/
theorem reduces_iff (hm : Marked mark words) (h : Strewn mark words text plain) (rest : List Char) :
    (Relation.ReflTransGen (Deletes words) text rest ∧ ∀ w ∈ words, ¬w <:+: rest) ↔ rest = plain := by
  constructor
  · rintro ⟨hdel, hnone⟩
    exact (h.of_reduces hm hdel).eq_plain hnone
  · rintro rfl
    exact ⟨h.reduces, fun w hw ↦ hm.not_infix h.not_mem_plain hw⟩

end Strewn

end Words

end Text

def Reports.EscapeFree (r : Reports) : Prop :=
  ∀ e ∈ r.entries, '\x1b' ∉ e.1.toList ∧ ∀ f ∈ e.2, '\x1b' ∉ f.message.toList

instance (r : Reports) : Decidable r.EscapeFree :=
  inferInstanceAs (Decidable (∀ e ∈ r.entries, '\x1b' ∉ e.1.toList ∧ ∀ f ∈ e.2, '\x1b' ∉ f.message.toList))

namespace Page

open Text (Strewn without Deletes)

def sequences : List (List Char) :=
  ["\x1b[1m", "\x1b[22m", "\x1b[36m", "\x1b[32m", "\x1b[0m"].map String.toList

theorem marked_sequences : Text.Marked '\x1b' sequences where
  head := by decide
  tail := by decide
  apart := by decide

theorem mem_sequences (style : Style) : style.start.toList ∈ sequences ∧ style.reset.toList ∈ sequences := by
  cases style <;> decide

theorem strewn_paint (colour : Bool) (style : Style) (text : String) (h : '\x1b' ∉ text.toList) :
    Strewn '\x1b' sequences (paint colour style text).toList (paint false style text).toList := by
  cases colour with
  | false => exact .of_not_mem h
  | true =>
    have hreset : Strewn '\x1b' sequences (style.reset.toList ++ []) [] := .word (mem_sequences style).2 .nil
    rw [List.append_nil] at hreset
    have hbody := (Strewn.of_not_mem h).append hreset
    have hwhole := Strewn.word (mem_sequences style).1 hbody
    simpa [paint, String.append_assoc] using hwhole

theorem escape_not_mem_findings {findings : List Finding} (h : ∀ f ∈ findings, '\x1b' ∉ f.message.toList) :
    '\x1b' ∉ (String.join (findings.map fun f ↦ "  - " ++ f.text ++ "\n")).toList := by
  rw [String.toList_join, List.mem_flatMap]
  rintro ⟨row, hrow, hmem⟩
  obtain ⟨f, hf, rfl⟩ := List.mem_map.1 hrow
  have htext : '\x1b' ∉ f.text.toList := Finding.not_mem_text (by decide) (by decide) (h f hf)
  simp [htext] at hmem

theorem strewn_fileSection (colour : Bool) {path : String} {findings : List Finding} (hpath : '\x1b' ∉ path.toList)
    (hfindings : ∀ f ∈ findings, '\x1b' ∉ f.message.toList) :
    Strewn '\x1b' sequences (fileSection colour path findings).toList (fileSection false path findings).toList := by
  have hlabel := strewn_paint colour .cyan "FILE:" (by decide)
  have hlist := escape_not_mem_findings hfindings
  have hrest : '\x1b' ∉ (" " ++ path ++ "\n" ++
      String.join (findings.map fun f ↦ "  - " ++ f.text ++ "\n") ++ "\n").toList := by
    simp only [String.toList_append, List.mem_append, not_or]
    exact ⟨⟨⟨⟨by decide, hpath⟩, by decide⟩, hlist⟩, by decide⟩
  simpa [fileSection, String.append_assoc] using hlabel.append (.of_not_mem hrest)

theorem strewn_sections (colour : Bool) (listed : Nat) {entries : List (String × List Finding)}
    (h : ∀ e ∈ entries, '\x1b' ∉ e.1.toList ∧ ∀ f ∈ e.2, '\x1b' ∉ f.message.toList) :
    Strewn '\x1b' sequences (sections colour listed entries).toList (sections false listed entries).toList := by
  induction entries generalizing listed with
  | nil => exact .nil
  | cons e rest ih =>
    obtain ⟨path, findings⟩ := e
    obtain ⟨⟨hpath, hfindings⟩, hrest⟩ := List.forall_mem_cons.1 h
    rw [sections, sections]
    split
    · exact .of_not_mem (by decide)
    · rw [String.toList_append, String.toList_append]
      exact (strewn_fileSection colour hpath hfindings).append (ih (listed + 1) hrest)

theorem strewn_render (colour : Bool) {r : Reports} (h : r.EscapeFree) :
    Strewn '\x1b' sequences (render colour r).toList (render false r).toList := by
  have hplain : ∀ text : String, '\x1b' ∉ text.toList → Strewn '\x1b' sequences text.toList text.toList :=
    fun _ ↦ Strewn.of_not_mem
  rw [render, render]
  split
  · have hsuccess := strewn_paint colour .green "✅ All quality gates passed! (Design + Performance)" (by decide)
    simp only [String.toList_append]
    exact ((hplain "\n" (by decide)).append hsuccess).append (hplain "\n" (by decide))
  · have hbanner := strewn_paint colour .bold "=== PREMIUM QUALITY AUDIT REPORT ===" (by decide)
    have hcount : '\x1b' ∉ ("Total files with quality issues: " ++ toString r.size).toList := by
      rw [String.toList_append, List.mem_append, not_or]
      exact ⟨by decide, Finding.not_mem_repr r.size (by decide)⟩
    have htotal := strewn_paint colour .bold _ hcount
    simp only [String.toList_append]
    exact (((((hplain "\n" (by decide)).append hbanner).append (hplain "\n\n" (by decide))).append
      (strewn_sections colour 0 h)).append htotal).append (hplain "\n" (by decide))

theorem escape_mem_render_true (r : Reports) : '\x1b' ∈ (render true r).toList := by
  have hstart : ∀ (style : Style) (text : String), '\x1b' ∈ (paint true style text).toList := by
    intro style text
    cases style <;> simp [paint, Style.start]
  rw [render]
  split
  · simp [hstart]
  · simp [hstart]

/-- On a page whose paths and messages hold no escape character, colour is nothing but decoration. The deletion of
the control sequences, from left to right or in any other order until none is left, gives the plain page, and
there is an escape character if and only if the colours are on and the page is not asked to do without them. -/
theorem colour_is_decoration {r : Reports} (hfree : r.EscapeFree) :
    without sequences (render true r).toList = (render false r).toList ∧
    (∀ rest : List Char,
      (Relation.ReflTransGen (Deletes sequences) (render true r).toList rest ∧ ∀ w ∈ sequences, ¬w <:+: rest) ↔
        rest = (render false r).toList) ∧
    ∀ enabled plain : Bool,
      '\x1b' ∈ (render (painted enabled plain) r).toList ↔ enabled = true ∧ plain = false := by
  have hstrewn := strewn_render true hfree
  refine ⟨hstrewn.without_eq marked_sequences, hstrewn.reduces_iff marked_sequences, ?_⟩
  intro enabled plain
  cases hpainted : painted enabled plain with
  | false =>
    refine iff_of_false hstrewn.not_mem_plain ?_
    rintro ⟨rfl, rfl⟩
    cases hpainted
  | true =>
    rw [painted, Bool.and_eq_true, Bool.not_eq_true'] at hpainted
    exact iff_of_true (escape_mem_render_true r) hpainted

theorem colour_is_decoration_lookalikes :
    let r := Reports.ofList [("[1m", [⟨3, "[0m[22m"⟩, ⟨0, "[36mFILE:"⟩]), ("", []), ("32m", [⟨-1, "m"⟩])]
    r.EscapeFree ∧ without sequences (render true r).toList = (render false r).toList ∧
      '\x1b' ∈ (render (painted true false) r).toList ∧ '\x1b' ∉ (render (painted true true) r).toList ∧
      '\x1b' ∉ (render (painted false false) r).toList := by
  intro r
  have hfree : r.EscapeFree := by decide +kernel
  obtain ⟨hwithout, -, hescape⟩ := colour_is_decoration hfree
  refine ⟨hfree, hwithout, (hescape true false).2 ⟨rfl, rfl⟩, ?_, ?_⟩
  · rw [hescape]
    decide
  · rw [hescape]
    decide

end Page

end FrontendAudit
