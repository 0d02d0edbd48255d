import FrontendAudit.Proofs.Lines
import FrontendAudit.Proofs.Scan
import FrontendAudit.Proofs.Violation

namespace FrontendAudit

namespace Source

/-- The file can be read, its bytes are UTF-8 text, and no line of it is flawed. -/
def Clean (disk : Disk) (path : String) : Prop :=
  ∃ (content : ByteArray) (text : String) (ls : List (List Char)),
    disk.read path = .ok content ∧ text.toUTF8 = content ∧ Text.Lined text.toList ls ∧
      ∀ l ∈ ls, ¬Violation.Flawed l

theorem fromUTF8?_eq_some_iff {content : ByteArray} {text : String} :
    String.fromUTF8? content = some text ↔ text.toUTF8 = content := by
  unfold String.fromUTF8?
  constructor
  · intro h
    split at h
    case isTrue hvalid =>
      rw [← Option.some.inj h]
      rfl
    case isFalse => cases h
  · intro h
    subst h
    rw [String.toUTF8_eq_toByteArray, dif_pos text.isValidUTF8]
    rfl

theorem linesOf_eq_ok_iff {content : ByteArray} {ls : List (List Char)} :
    linesOf content = .ok ls ↔ ∃ text : String, text.toUTF8 = content ∧ Text.Lined text.toList ls := by
  rw [linesOf]
  constructor
  · intro h
    split at h
    case h_1 text htext =>
      rw [Text.splitLines_eq] at h
      exact ⟨text, fromUTF8?_eq_some_iff.1 htext, Text.lined_iff.2 (Except.ok.inj h)⟩
    case h_2 => cases h
  · intro ⟨text, htext, hls⟩
    have hsplit : Text.splitLines text.toList = .ok ls :=
      (Text.splitLines_eq _).trans (congrArg Except.ok (Text.lined_iff.1 hls))
    rw [fromUTF8?_eq_some_iff.2 htext]
    exact congrArg (·.mapError Error.split) hsplit

theorem lines_eq_ok_iff {disk : Disk} {path : String} {ls : List (List Char)} :
    lines disk path = .ok ls ↔ ∃ content, disk.read path = .ok content ∧ linesOf content = .ok ls := by
  rw [lines]
  cases disk.read path <;> simp

theorem findings_checkLines_eq_nil_iff (ls : List (List Char)) :
    (checkLines ls).findings = [] ↔ ∀ l ∈ ls, ¬Violation.Flawed l := by
  rw [checkLines, List.flatMap_eq_nil_iff]
  constructor
  · intro h l hl
    obtain ⟨i, hi⟩ := List.mem_iff_getElem?.1 hl
    have hmem : (l, 1 + i) ∈ ls.zipIdx 1 :=
      List.mk_mem_zipIdx_iff_le_and_getElem?_sub.2 ⟨by omega, by simpa using hi⟩
    exact (Violation.ofLine_eq_nil_iff l).1 (List.map_eq_nil_iff.1 (h _ hmem))
  · intro h l hl
    have hmem : l.1 ∈ ls := List.fst_mem_of_mem_zipIdx hl
    rw [Line.findings, (Violation.ofLine_eq_nil_iff l.1).2 (h l.1 hmem)]
    rfl

theorem findings_check_eq_nil_iff {disk : Disk} {path : String} :
    (check disk path).findings = [] ↔ Clean disk path := by
  have hclean : Clean disk path ↔ ∃ ls, lines disk path = .ok ls ∧ ∀ l ∈ ls, ¬Violation.Flawed l := by
    simp only [Clean, lines_eq_ok_iff, linesOf_eq_ok_iff]
    constructor
    · intro ⟨content, text, ls, hread, htext, hls, hfree⟩
      exact ⟨ls, ⟨content, hread, text, htext, hls⟩, hfree⟩
    · intro ⟨ls, ⟨content, hread, text, htext, hls⟩, hfree⟩
      exact ⟨content, text, ls, hread, htext, hls, hfree⟩
  rw [hclean, check]
  cases lines disk path with
  | error e => simp [unreadable]
  | ok ls => simp [findings_checkLines_eq_nil_iff]

end Source

namespace Page

theorem success_ne_report (colour : Bool) (rest : String) :
    "\n" ++ (paint colour .green "✅ All quality gates passed! (Design + Performance)" ++ "\n") ≠
      "\n" ++ (paint colour .bold "=== PREMIUM QUALITY AUDIT REPORT ===" ++ rest) := by
  intro h
  have hlist := congrArg (fun s ↦ s.toList.take 4) h
  cases colour <;> simp [paint, Style.start] at hlist

end Page

namespace Audit

theorem output_eq_render (disk : Disk) (colour : Bool) (paths : List String) :
    (run ⟨disk, colour, none, none⟩ paths).output = Page.render colour (collect disk (Target.all disk paths)) := by
  have hrun := (run_uncancelled ⟨disk, colour, none, none⟩ paths).1
  rwa [report_of_written rfl] at hrun

theorem mem_paths_collect {disk : Disk} {targets : List String} {path : String} :
    path ∈ (collect disk targets).paths ↔ HandedOut disk targets path ∧ ¬Source.Clean disk path := by
  rw [Reports.mem_paths_iff, ← Source.findings_check_eq_nil_iff]
  constructor
  · intro ⟨findings, h⟩
    obtain ⟨hout, rfl, hne⟩ := get?_collect_eq_some_iff.1 h
    exact ⟨hout, hne⟩
  · intro ⟨hout, hne⟩
    exact ⟨_, get?_collect_eq_some_iff.2 ⟨hout, rfl, hne⟩⟩

theorem size_collect_eq_zero_iff {disk : Disk} {targets : List String} :
    (collect disk targets).size = 0 ↔ ∀ path, HandedOut disk targets path → Source.Clean disk path := by
  rw [← Reports.length_paths, List.length_eq_zero_iff, List.eq_nil_iff_forall_not_mem]
  simp only [mem_paths_collect, not_and, Classical.not_not]

theorem mem_entries_collect {disk : Disk} {targets : List String} {path : String} {findings : List Finding} :
    (path, findings) ∈ (collect disk targets).entries ↔
      HandedOut disk targets path ∧ ¬Source.Clean disk path ∧ findings = (Source.check disk path).findings := by
  rw [← Reports.get?_eq_some_iff, get?_collect_eq_some_iff, ← Source.findings_check_eq_nil_iff]
  constructor
  · intro ⟨hout, hfindings, hne⟩
    exact ⟨hout, hfindings ▸ hne, hfindings⟩
  · intro ⟨hout, hne, hfindings⟩
    exact ⟨hout, hfindings, hfindings ▸ hne⟩

theorem output_of_clean {disk : Disk} {colour : Bool} {paths : List String}
    (h : ∀ path, HandedOut disk (Target.all disk paths) path → Source.Clean disk path) :
    (run ⟨disk, colour, none, none⟩ paths).output =
      "\n" ++ Page.paint colour .green "✅ All quality gates passed! (Design + Performance)" ++ "\n" := by
  rw [output_eq_render, Page.render, if_pos (size_collect_eq_zero_iff.2 h)]

theorem output_of_not_clean {disk : Disk} {colour : Bool} {paths : List String}
    (h : ¬∀ path, HandedOut disk (Target.all disk paths) path → Source.Clean disk path) :
    (run ⟨disk, colour, none, none⟩ paths).output =
      "\n" ++ Page.paint colour .bold "=== PREMIUM QUALITY AUDIT REPORT ===" ++ "\n\n" ++
        Page.sections colour 0 (collect disk (Target.all disk paths)).entries ++
        Page.paint colour .bold ("Total files with quality issues: " ++
          toString (collect disk (Target.all disk paths)).paths.length) ++ "\n" := by
  have hsize : ¬(collect disk (Target.all disk paths)).size = 0 := fun hzero ↦ h (size_collect_eq_zero_iff.1 hzero)
  rw [output_eq_render, Page.render, if_neg hsize, Reports.length_paths]

theorem success_iff_clean (disk : Disk) (colour : Bool) (paths : List String) :
    let targets := Target.all disk paths
    let result := run ⟨disk, colour, none, none⟩ paths
    result.error? = none ∧
    (result.output =
        "\n" ++ Page.paint colour .green "✅ All quality gates passed! (Design + Performance)" ++ "\n" ↔
      ∀ path, HandedOut disk targets path → Source.Clean disk path) ∧
    (¬(∀ path, HandedOut disk targets path → Source.Clean disk path) →
      ∃ reports : Reports,
        (∀ path findings, (path, findings) ∈ reports.entries ↔
          HandedOut disk targets path ∧ ¬Source.Clean disk path ∧
            findings = (Source.check disk path).findings) ∧
        ∃ bad : List String, bad.Nodup ∧
          (∀ path, path ∈ bad ↔ HandedOut disk targets path ∧ ¬Source.Clean disk path) ∧
          result.output =
            "\n" ++ Page.paint colour .bold "=== PREMIUM QUALITY AUDIT REPORT ===" ++ "\n\n" ++
              Page.sections colour 0 reports.entries ++
              Page.paint colour .bold ("Total files with quality issues: " ++ toString bad.length) ++
              "\n") := by
  intro targets result
  refine ⟨(run_uncancelled ⟨disk, colour, none, none⟩ paths).2, ⟨?_, output_of_clean⟩, ?_⟩
  · intro hsuccess
    apply Classical.byContradiction
    intro hbad
    have hreport := hsuccess.symm.trans (output_of_not_clean hbad)
    simp only [String.append_assoc] at hreport
    exact Page.success_ne_report colour _ hreport
  · intro hbad
    refine ⟨collect disk targets, fun path findings ↦ mem_entries_collect, (collect disk targets).paths,
      Reports.nodup_paths _, fun path ↦ mem_paths_collect, output_of_not_clean hbad⟩

end Audit

end FrontendAudit
