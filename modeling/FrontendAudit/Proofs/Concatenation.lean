import FrontendAudit.Disk.Tree
import FrontendAudit.Proofs.Context
import FrontendAudit.Proofs.Gate
import FrontendAudit.Proofs.Rules
import Mathlib.Data.List.Basic
import Mathlib.Data.List.Induction

namespace FrontendAudit

namespace Text

/-- The text is empty or ends a line, and does so with `next` behind it: a line feed that follows a carriage
return would belong to the same break. -/
def EndsLine (text next : List Char) : Prop :=
  text = [] ∨ text.getLast? = some '\n' ∨ text.getLast? = some '\r' ∧ next.head? ≠ some '\n'

instance (text next : List Char) : Decidable (EndsLine text next) :=
  inferInstanceAs (Decidable (_ ∨ _))

theorem EndsLine.rest {x rest next : List Char} {c : Char} (h : EndsLine (x ++ c :: rest) next) :
    EndsLine rest next := by
  cases rest with
  | nil => exact .inl rfl
  | cons d rest =>
    have hlast : (x ++ c :: d :: rest).getLast? = (d :: rest).getLast? := by
      rw [List.append_cons, List.getLast?_append_of_ne_nil _ (List.cons_ne_nil d rest)]
    rw [EndsLine, hlast] at h
    exact .inr (h.resolve_left (by simp))

theorem BreakFree.not_endsLine {l next : List Char} (hl : BreakFree l) (hne : l ≠ []) : ¬EndsLine l next := by
  intro h
  rcases h with hnil | hfeed | ⟨hreturn, -⟩
  · exact hne hnil
  · exact (hl _ (List.mem_of_getLast? hfeed)).1 rfl
  · exact (hl _ (List.mem_of_getLast? hreturn)).2 rfl

theorem Lined.append {a b : List Char} {ls ls' : List (List Char)} (ha : Lined a ls) (hb : Lined b ls')
    (h : EndsLine a b) : Lined (a ++ b) (ls ++ ls') := by
  induction ha with
  | empty => exact hb
  | unended hne hl => exact absurd h (hl.not_endsLine hne)
  | @feed l rest ls hl _ ih =>
    rw [List.append_assoc]
    exact .feed hl (ih h.rest)
  | @returnFeed l rest ls hl _ ih =>
    rw [List.append_assoc]
    have hfeed : EndsLine ('\n' :: rest) b := h.rest
    exact .returnFeed hl (ih (EndsLine.rest (x := []) hfeed))
  | @bareReturn l rest ls hl hrest _ ih =>
    rw [List.append_assoc]
    refine .bareReturn hl ?_ (ih h.rest)
    -- Only where nothing else follows the carriage return can a line feed come from `b`.
    cases rest with
    | nil =>
      rcases h with hnil | hfeed | ⟨-, hnext⟩
      · simp at hnil
      · simp at hfeed
      · exact hnext
    | cons d rest => exact hrest

theorem lines_append {a b : List Char} (h : EndsLine a b) : lines (a ++ b) = lines a ++ lines b :=
  lined_iff.1 ((lined_iff.2 rfl : Lined a (lines a)).append (lined_iff.2 rfl) h)

theorem Lined.prepend {l b : List Char} {ls : List (List Char)} (hl : BreakFree l) (hne : l ≠ [])
    (hb : Lined b ls) : Lined (l ++ b) ((l ++ ls.headD []) :: ls.tail) := by
  have happend : ∀ {l' : List Char}, BreakFree l' → BreakFree (l ++ l') :=
    fun hl' ↦ List.forall_mem_append.2 ⟨hl, hl'⟩
  cases hb with
  | empty => simpa using Lined.unended hne hl
  | unended _ hb => exact .unended (by simp [hne]) (happend hb)
  | feed hl' hrest =>
    rw [← List.append_assoc]
    exact .feed (happend hl') hrest
  | returnFeed hl' hrest =>
    rw [← List.append_assoc]
    exact .returnFeed (happend hl') hrest
  | bareReturn hl' hhead hrest =>
    rw [← List.append_assoc]
    exact .bareReturn (happend hl') hhead hrest

theorem exists_last_line (a : List Char) :
    ∃ x l, a = x ++ l ∧ BreakFree l ∧ ∀ next, next.head? ≠ some '\n' → EndsLine x (l ++ next) := by
  induction a using List.reverseRecOn with
  | nil => exact ⟨[], [], rfl, by simp [BreakFree], fun _ _ ↦ .inl rfl⟩
  | append_singleton a c ih =>
    by_cases hbreak : c = '\n' ∨ c = '\r'
    · refine ⟨a ++ [c], [], by simp, by simp [BreakFree], fun next hnext ↦ .inr ?_⟩
      rw [List.getLast?_concat]
      exact hbreak.imp (congrArg some) fun hc ↦ ⟨congrArg some hc, hnext⟩
    · obtain ⟨x, l, rfl, hl, hends⟩ := ih
      have hc : c ≠ '\n' ∧ c ≠ '\r' := not_or.1 hbreak
      refine ⟨x, l ++ [c], by rw [List.append_assoc], List.forall_mem_append.2 ⟨hl, by simpa using hc⟩, ?_⟩
      intro next _
      rw [List.append_assoc]
      exact hends ([c] ++ next) (by simpa using hc.1)

/-- A break behind a character cuts the line of that character in two and leaves the other lines alone. -/
theorem exists_lines_cut {c : Char} (hc : c ≠ '\n' ∧ c ≠ '\r') (a b : List Char) :
    ∃ done l, lines (a ++ c :: b) = done ++ (l ++ c :: (lines b).headD []) :: (lines b).tail ∧
      lines (a ++ c :: '\n' :: b) = done ++ (l ++ [c]) :: lines b := by
  obtain ⟨x, l, rfl, hl, hends⟩ := exists_last_line a
  have hlc : BreakFree (l ++ [c]) := List.forall_mem_append.2 ⟨hl, by simpa using hc⟩
  have hb : Lined b (lines b) := lined_iff.2 rfl
  have hwhole : lines (l ++ c :: b) = (l ++ c :: (lines b).headD []) :: (lines b).tail := by
    simpa using lined_iff.1 (hb.prepend hlc (by simp))
  have hcut : lines (l ++ c :: '\n' :: b) = (l ++ [c]) :: lines b := by
    simpa using lined_iff.1 (hb.feed hlc)
  refine ⟨lines x, l, ?_, ?_⟩
  · rw [List.append_assoc, lines_append (hends _ (by simpa using hc.1)), hwhole]
  · rw [List.append_assoc, lines_append (hends _ (by simpa using hc.1)), hcut]

end Text

namespace Violation

open Text

theorem ofRule_arbitraryValue_semicolon (x y : List Char) :
    ofRule (x ++ ';' :: y) .arbitraryValue = ofRule x .arbitraryValue ++ ofRule y .arbitraryValue := by
  simp only [ofRule, scan_before_separator Spacing.takes_arbitrary? (fun _ _ h ↦ h.semicolon_not_mem) rfl x y,
    List.filter_append, List.map_append]

theorem ofRule_declaration_semicolon (x y : List Char) :
    ofRule (x ++ ';' :: y) .declaration = ofRule x .declaration ++ ofRule y .declaration := by
  simp only [ofRule, scan_before_separator Spacing.takes_declared? (fun _ _ h ↦ h.semicolon_not_mem) rfl x y,
    List.filter_append, List.map_append]

end Violation

namespace Source

/-- The file can be read and holds the text. -/
def Holds (disk : Disk) (path text : String) : Prop :=
  disk.read path = .ok text.toUTF8

theorem Holds.findings_eq {disk : Disk} {path text : String} (h : Holds disk path text) :
    (check disk path).findings = (checkLines (Text.lines text.toList)).findings := by
  have hlines : lines disk path = .ok (Text.lines text.toList) :=
    lines_eq_ok_iff.2 ⟨_, h, linesOf_eq_ok_iff.2 ⟨text, rfl, Text.lined_iff.2 rfl⟩⟩
  rw [check, hlines]

theorem findings_checkLines_append (ls ls' : List (List Char)) :
    (checkLines (ls ++ ls')).findings =
      (checkLines ls).findings ++
        (checkLines ls').findings.map fun f ↦ { f with line := f.line + ls.length } := by
  have hmoved : ∀ (number : Nat) (line : List Char), Line.findings ↑(1 + ls.length + number) line =
      (Line.findings ↑(1 + number) line).map fun f ↦ { f with line := f.line + ls.length } := by
    intro number line
    rw [Line.findings, Line.findings, List.map_map]
    apply List.map_congr_left
    intro v _
    simp only [Function.comp_apply, Finding.mk.injEq, and_true]
    omega
  simp only [checkLines, List.zipIdx_append, List.flatMap_append]
  rw [List.zipIdx_eq_map_add (l := ls') (i := 1 + ls.length), List.zipIdx_eq_map_add (l := ls') (i := 1)]
  simp only [List.flatMap_map, List.map_flatMap, hmoved]

/-- Where the first text ends a line, it is split as if alone, and the findings of the whole are those of the
first text and then those of the second, moved on by the number of lines of the first. -/
theorem findings_append_at_line_end {disk disk₁ disk₂ : Disk} {path path₁ path₂ a b : String}
    (hends : Text.EndsLine a.toList b.toList) (h : Holds disk path (a ++ b)) (ha : Holds disk₁ path₁ a)
    (hb : Holds disk₂ path₂ b) :
    (Text.splitLines a.toList = .ok (Text.lines a.toList) ∧
      Text.splitLines (a ++ b).toList = .ok (Text.lines a.toList ++ Text.lines b.toList)) ∧
    (check disk path).findings =
      (check disk₁ path₁).findings ++
        (check disk₂ path₂).findings.map fun f ↦ { f with line := f.line + (Text.lines a.toList).length } := by
  have hlines : Text.lines (a ++ b).toList = Text.lines a.toList ++ Text.lines b.toList := by
    rw [String.toList_append, Text.lines_append hends]
  refine ⟨⟨Text.splitLines_eq _, hlines ▸ Text.splitLines_eq _⟩, ?_⟩
  rw [h.findings_eq, ha.findings_eq, hb.findings_eq, hlines, findings_checkLines_append]

theorem findings_append_at_line_end_returns :
    let a := "a\rtop: 5px\r"
    let b := "\r\nleft: 7px"
    let root : Disk.Node := .dir [("a.css", .file a.toUTF8), ("ab.css", .file (a ++ b).toUTF8),
      ("b.css", .file b.toUTF8)]
    let findings := fun path ↦ (check (root.disk []) path).findings
    Text.EndsLine a.toList b.toList ∧
      findings "ab.css" = findings "a.css" ++ (findings "b.css").map (fun f ↦ { f with line := f.line + 2 }) ∧
      (findings "ab.css").map Finding.line = [2, 4] := by
  intro a b root findings
  have hends : Text.EndsLine a.toList b.toList := by decide +kernel
  have hlength : (Text.lines a.toList).length = 2 := by decide +kernel
  refine ⟨hends, ?_, by decide +kernel⟩
  have hab : Holds (root.disk []) "ab.css" (a ++ b) := rfl
  have ha : Holds (root.disk []) "a.css" a := rfl
  have hb : Holds (root.disk []) "b.css" b := rfl
  have happ := (findings_append_at_line_end hends hab ha hb).2
  rwa [hlength] at happ

theorem messages_checkLines (r : Rule) (ls : List (List Char)) :
    r.messages (checkLines ls).findings = ls.flatMap fun l ↦ (Violation.ofRule l r).map Violation.message := by
  rw [checkLines, Rule.messages_flatMap]
  simp only [Rule.messages_findings]
  have hlines : ls = (ls.zipIdx 1).map Prod.fst := (List.zipIdx_map_fst 1 ls).symm
  conv_rhs => rw [hlines, List.flatMap_map]

theorem messages_checkLines_semicolon {r : Rule}
    (hr : ∀ x y, Violation.ofRule (x ++ ';' :: y) r = Violation.ofRule x r ++ Violation.ofRule y r)
    (hnil : Violation.ofRule [] r = []) (a b : List Char) :
    r.messages (checkLines (Text.lines (a ++ ';' :: b))).findings =
      r.messages (checkLines (Text.lines (a ++ ';' :: '\n' :: b))).findings := by
  obtain ⟨done, l, hwhole, hcut⟩ := Text.exists_lines_cut (c := ';') (by decide) a b
  rw [hwhole, hcut, messages_checkLines, messages_checkLines]
  cases Text.lines b with
  | nil => rfl
  | cons first rest => simp [hr, hnil]

/-- A line break behind a semicolon leaves the messages of both grid rules as they are. -/
theorem grid_messages_semicolon_break {disk disk' : Disk} {path path' a b : String}
    (h : Holds disk path (a ++ ";" ++ b)) (h' : Holds disk' path' (a ++ ";" ++ "\n" ++ b)) :
    Rule.arbitraryValue.messages (check disk path).findings =
        Rule.arbitraryValue.messages (check disk' path').findings ∧
      Rule.declaration.messages (check disk path).findings =
        Rule.declaration.messages (check disk' path').findings := by
  have htext : (a ++ ";" ++ b).toList = a.toList ++ ';' :: b.toList := by simp
  have htext' : (a ++ ";" ++ "\n" ++ b).toList = a.toList ++ ';' :: '\n' :: b.toList := by simp
  rw [h.findings_eq, h'.findings_eq, htext, htext']
  exact ⟨messages_checkLines_semicolon Violation.ofRule_arbitraryValue_semicolon rfl _ _,
    messages_checkLines_semicolon Violation.ofRule_declaration_semicolon rfl _ _⟩

theorem grid_messages_semicolon_break_before_return :
    let a := "[6px] gap: 5px"
    let b := "\rleft: 7px [9px]"
    let root : Disk.Node := .dir [("a.css", .file (a ++ ";" ++ b).toUTF8),
      ("b.css", .file (a ++ ";" ++ "\n" ++ b).toUTF8)]
    let findings := fun path ↦ (check (root.disk []) path).findings
    Rule.arbitraryValue.messages (findings "a.css") = Rule.arbitraryValue.messages (findings "b.css") ∧
      Rule.declaration.messages (findings "a.css") = Rule.declaration.messages (findings "b.css") ∧
      (findings "a.css").map Finding.line = [1, 1, 2, 2] ∧ (findings "b.css").map Finding.line = [1, 1, 3, 3] := by
  intro a b root findings
  have ha : Holds (root.disk []) "a.css" (a ++ ";" ++ b) := rfl
  have hb : Holds (root.disk []) "b.css" (a ++ ";" ++ "\n" ++ b) := rfl
  have hsame := grid_messages_semicolon_break ha hb
  exact ⟨hsame.1, hsame.2, by decide +kernel, by decide +kernel⟩

end Source

end FrontendAudit
