import FrontendAudit.Proofs.Concatenation
import FrontendAudit.Proofs.Encoding
import FrontendAudit.Proofs.OncePerLine
import FrontendAudit.Proofs.Page

namespace FrontendAudit

namespace Rule

def number : Rule → Nat
  | arbitraryValue => 1
  | declaration => 2
  | symmetry => 3
  | loop => 4

theorem pairwise_all : all.Pairwise fun r s ↦ r.number ≤ s.number := by decide

end Rule

namespace Violation

theorem pairwise_ofLine (line : List Char) : (ofLine line).Pairwise fun v w ↦ v.rule.number ≤ w.rule.number := by
  rw [ofLine_eq_flatMap, List.pairwise_flatMap]
  constructor
  · intro r _
    refine List.pairwise_of_forall_mem_list fun v hv w hw ↦ ?_
    exact Nat.le_of_eq (by rw [rule_of_mem_ofRule hv, rule_of_mem_ofRule hw])
  · refine Rule.pairwise_all.imp fun hle v hv w hw ↦ ?_
    rwa [rule_of_mem_ofRule hv, rule_of_mem_ofRule hw]

end Violation

namespace Line

theorem line_of_mem_findings {number : Int} {line : List Char} {f : Finding} (h : f ∈ findings number line) :
    f.line = number := by
  obtain ⟨v, -, rfl⟩ := List.mem_map.1 h
  rfl

theorem filter_line_findings (number k : Int) (line : List Char) :
    ((findings number line).filter fun f ↦ f.line = k) = if number = k then findings number line else [] := by
  split
  case isTrue heq =>
    rw [List.filter_eq_self]
    intro f hf
    simpa using (line_of_mem_findings hf).trans heq
  case isFalse hne =>
    rw [List.filter_eq_nil_iff]
    intro f hf
    rw [line_of_mem_findings hf]
    simpa using hne

end Line

def Finding.Precedes (f g : Finding) : Prop :=
  f.line < g.line ∨ f.line = g.line ∧ ∃ r s, Rule.ofMessage? f.message = some r ∧
    Rule.ofMessage? g.message = some s ∧ r.number ≤ s.number

namespace Source

/-- The findings are about the lines, one line after the other. -/
structure Shaped (ls : List (List Char)) (findings : List Finding) : Prop where
  numbered : ∀ f ∈ findings, 1 ≤ f.line ∧ f.line ≤ ls.length
  ruled : ∀ f ∈ findings, ∃ r, Rule.ofMessage? f.message = some r
  ordered : findings.Pairwise Finding.Precedes
  once : ∀ (number : Int) (r : Rule), r = .symmetry ∨ r = .loop →
    (r.among (findings.filter fun f ↦ f.line = number)).length ≤ 1
  ofLine : ∀ (i : Nat) (l : List Char), ls[i]? = some l →
    (findings.filter fun f ↦ f.line = (i : Int) + 1) = Line.findings (i + 1) l

section Shaped

variable {ls : List (List Char)}

theorem exists_of_mem_checkLines {f : Finding} (h : f ∈ (checkLines ls).findings) :
    ∃ (i : Nat) (l : List Char), ls[i]? = some l ∧ f ∈ Line.findings (i + 1) l := by
  obtain ⟨⟨l, n⟩, hmem, hf⟩ := List.mem_flatMap.1 h
  obtain ⟨hn, hl⟩ := List.mk_mem_zipIdx_iff_le_and_getElem?_sub.1 hmem
  refine ⟨n - 1, l, hl, ?_⟩
  have hnumber : ((n - 1 : Nat) : Int) + 1 = n := by omega
  rwa [hnumber]

theorem pairwise_checkLines (ls : List (List Char)) : (checkLines ls).findings.Pairwise Finding.Precedes := by
  rw [checkLines, List.pairwise_flatMap]
  constructor
  · intro l _
    refine List.pairwise_map.2 ((Violation.pairwise_ofLine l.1).imp fun hle ↦ .inr ⟨rfl, ?_⟩)
    exact ⟨_, _, Violation.ofMessage?_message _, Violation.ofMessage?_message _, hle⟩
  · have hlt : (ls.zipIdx 1).Pairwise fun l m ↦ l.2 < m.2 := by
      rw [← List.pairwise_map, List.zipIdx_map_snd]
      exact List.pairwise_lt_range'
    refine hlt.imp fun hlt f hf g hg ↦ .inl ?_
    rw [Line.line_of_mem_findings hf, Line.line_of_mem_findings hg]
    exact Int.ofNat_lt.2 hlt

theorem filter_line_zipIdx {i : Nat} {l : List Char} (h : ls[i]? = some l) (n : Nat) :
    (((ls.zipIdx n).flatMap fun a ↦ Line.findings a.2 a.1).filter fun f ↦ f.line = ↑(n + i)) =
      Line.findings ↑(n + i) l := by
  induction ls generalizing n i with
  | nil => cases h
  | cons first rest ih =>
    rw [List.zipIdx_cons, List.flatMap_cons, List.filter_append, Line.filter_line_findings]
    cases i with
    | zero =>
      obtain rfl : first = l := Option.some.inj h
      have hrest : (((rest.zipIdx (n + 1)).flatMap fun a ↦ Line.findings a.2 a.1).filter
          fun f ↦ f.line = ↑(n + 0)) = [] := by
        rw [List.filter_flatMap, List.flatMap_eq_nil_iff]
        intro a ha
        have hle := List.le_snd_of_mem_zipIdx ha
        rw [Line.filter_line_findings, if_neg (by omega)]
      rw [hrest, List.append_nil, Nat.add_zero]
      exact if_pos rfl
    | succ i =>
      have hnumber : n + (i + 1) = n + 1 + i := by omega
      rw [if_neg (by omega), List.nil_append, hnumber]
      exact ih h (n + 1)

theorem filter_line_checkLines {i : Nat} {l : List Char} (h : ls[i]? = some l) :
    ((checkLines ls).findings.filter fun f ↦ f.line = (i : Int) + 1) = Line.findings (i + 1) l := by
  have hnumber : (i : Int) + 1 = ↑(1 + i) := by omega
  rw [hnumber]
  exact filter_line_zipIdx h 1

theorem shaped_checkLines (ls : List (List Char)) : Shaped ls (checkLines ls).findings where
  numbered f hf := by
    obtain ⟨i, l, hl, hf⟩ := exists_of_mem_checkLines hf
    obtain ⟨hi, -⟩ := List.getElem?_eq_some_iff.1 hl
    rw [Line.line_of_mem_findings hf]
    omega
  ruled f hf := by
    obtain ⟨i, l, -, hf⟩ := exists_of_mem_checkLines hf
    obtain ⟨v, -, rfl⟩ := List.mem_map.1 hf
    exact ⟨_, Violation.ofMessage?_message v⟩
  ordered := pairwise_checkLines ls
  once number r hr := by
    by_cases h : ∃ (i : Nat) (l : List Char), ls[i]? = some l ∧ (i : Int) + 1 = number
    · obtain ⟨i, l, hl, rfl⟩ := h
      rw [filter_line_checkLines hl, Rule.among_findings, List.length_map]
      exact Violation.length_ofRule_le_one l hr
    · have hnone : ((checkLines ls).findings.filter fun f ↦ f.line = number) = [] := by
        rw [List.filter_eq_nil_iff]
        intro f hf hline
        obtain ⟨i, l, hl, hf⟩ := exists_of_mem_checkLines hf
        exact h ⟨i, l, hl, (Line.line_of_mem_findings hf).symm.trans (by simpa using hline)⟩
      rw [hnone]
      exact Nat.zero_le 1
  ofLine _ _ := filter_line_checkLines

end Shaped

section Check

variable {disk : Disk} {path : String}

theorem Holds.shaped {text : String} (h : Holds disk path text) :
    Shaped (Text.lines text.toList) (check disk path).findings :=
  h.findings_eq ▸ shaped_checkLines _

theorem findings_check_of_not_text {content : ByteArray} (hread : disk.read path = .ok content)
    (h : ¬∃ text : String, text.toUTF8 = content) :
    (check disk path).findings = [⟨0, "Could not read file: the file isn't valid UTF-8 text"⟩] := by
  have hnone : String.fromUTF8? content = none := by
    rw [Option.eq_none_iff_forall_ne_some]
    intro text htext
    exact h ⟨text, fromUTF8?_eq_some_iff.1 htext⟩
  have hlines : lines disk path = .error .notText := by
    rw [lines, hread]
    simp only [linesOf, hnone]
  rw [check, hlines]
  rfl

theorem findings_check_of_error {e : Disk.Error} (hread : disk.read path = .error e) :
    (check disk path).findings = [⟨0, "Could not read file: " ++ e.message⟩] := by
  have hlines : lines disk path = .error (.disk e) := by rw [lines, hread]
  rw [check, hlines]
  rfl

theorem exists_message_of_no_text (h : ¬∃ text : String, disk.read path = .ok text.toUTF8) :
    ∃ message, (check disk path).findings = [⟨0, message⟩] := by
  cases hread : disk.read path with
  | error e => exact ⟨_, findings_check_of_error hread⟩
  | ok content =>
    refine ⟨_, findings_check_of_not_text hread ?_⟩
    intro htext
    obtain ⟨text, rfl⟩ := htext
    exact h ⟨text, hread⟩

end Check

end Source

theorem Finding.system_isPrefix_iff (f : Finding) : "System: ".toList <+: f.text.toList ↔ f.line = 0 := by
  constructor
  · intro h
    apply Classical.byContradiction
    intro hne
    rw [toList_text_of_ne_zero hne] at h
    simp at h
  · intro h
    rw [toList_text_of_eq_zero h]
    exact List.prefix_append _ _

namespace Source

/-- Bytes that are those of a text give findings about its lines, one line after the other and each from its own
line only. Other bytes, and a file that cannot be read, give a single finding about line 0, so findings that are
rendered as the system's are exactly those of files that could not be read as text. -/
theorem check_shaped (disk : Disk) (path : String) :
    (∀ content, disk.read path = .ok content →
      ((∃ text : String, text.toUTF8 = content) ↔ Text.IsUtf8 content.data.toList) ∧
      (∀ text : String, text.toUTF8 = content → Shaped (Text.lines text.toList) (check disk path).findings) ∧
      ((¬∃ text : String, text.toUTF8 = content) →
        (check disk path).findings = [⟨0, "Could not read file: the file isn't valid UTF-8 text"⟩])) ∧
    (∀ e, disk.read path = .error e →
      (check disk path).findings = [⟨0, "Could not read file: " ++ e.message⟩]) ∧
    ∀ f ∈ (check disk path).findings,
      "System: ".toList <+: f.text.toList ↔ ¬∃ text : String, disk.read path = .ok text.toUTF8 := by
  refine ⟨?_, fun e ↦ findings_check_of_error, ?_⟩
  · intro content hread
    refine ⟨Text.exists_toUTF8_iff, ?_, findings_check_of_not_text hread⟩
    intro text htext
    subst htext
    exact Holds.shaped hread
  · intro f hf
    rw [Finding.system_isPrefix_iff]
    by_cases htext : ∃ text : String, disk.read path = .ok text.toUTF8
    · obtain ⟨text, hread⟩ := htext
      have hline := ((Holds.shaped hread).numbered f hf).1
      exact iff_of_false (by omega) fun hno ↦ hno ⟨text, hread⟩
    · obtain ⟨message, hfindings⟩ := exists_message_of_no_text htext
      rw [hfindings, List.mem_singleton] at hf
      exact iff_of_true (hf ▸ rfl) htext

theorem check_shaped_surrogate :
    let text := "é px-1 [5px] 😀 py-2\rtop: 7px; [9px]"
    let surrogate : ByteArray := ⟨#[0x61, 0xed, 0xa0, 0x80]⟩
    let root : Disk.Node := .dir [("a.tsx", .file text.toUTF8), ("b.tsx", .file surrogate)]
    let findings := fun path ↦ (check (root.disk []) path).findings
    Shaped (Text.lines text.toList) (findings "a.tsx") ∧ (findings "a.tsx").map Finding.line = [1, 1, 2, 2] ∧
      findings "b.tsx" = [⟨0, "Could not read file: the file isn't valid UTF-8 text"⟩] ∧
      findings "c.tsx" = [⟨0, "Could not read file: open c.tsx: no such file or directory"⟩] := by
  intro text surrogate root findings
  have htext : (root.disk []).read "a.tsx" = .ok text.toUTF8 := rfl
  have hsurrogate : (root.disk []).read "b.tsx" = .ok surrogate := rfl
  have hmissing : (root.disk []).read "c.tsx" = .error ⟨.opening, "c.tsx", .missing⟩ := rfl
  have hnone : ¬∃ text : String, text.toUTF8 = surrogate := by
    intro h
    obtain ⟨text, h⟩ := h
    have hsome := fromUTF8?_eq_some_iff.2 h
    rw [show String.fromUTF8? surrogate = none by decide +kernel] at hsome
    cases hsome
  refine ⟨((check_shaped (root.disk []) "a.tsx").1 _ htext).2.1 text rfl, by decide +kernel,
    ((check_shaped (root.disk []) "b.tsx").1 _ hsurrogate).2.2 hnone, ?_⟩
  exact (check_shaped (root.disk []) "c.tsx").2.1 _ hmissing

end Source

end FrontendAudit
