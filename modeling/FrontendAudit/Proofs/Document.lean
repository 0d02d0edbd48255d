import FrontendAudit.Command.Help
import FrontendAudit.Disk.Tree
import FrontendAudit.Proofs.Bytes
import FrontendAudit.Proofs.Scan

namespace FrontendAudit

namespace Page

open Command (unlines)

def findingRow (f : Finding) : String :=
  "  - " ++ f.text

def fileRows (colour : Bool) (e : String × List Finding) : List String :=
  (paint colour .cyan "FILE:" ++ " " ++ e.1) :: (e.2.map findingRow ++ [""])

def document (colour : Bool) (files : List (String × List Finding)) : List String :=
  if files = [] then ["", paint colour .green "✅ All quality gates passed! (Design + Performance)"]
  else
    ["", paint colour .bold "=== PREMIUM QUALITY AUDIT REPORT ===", ""] ++
      (files.take 51).flatMap (fileRows colour) ++
      (if 52 ≤ files.length then ["... (and more files)"] else []) ++
      [paint colour .bold ("Total files with quality issues: " ++ toString files.length)]

theorem unlines_append (rows rows' : List String) : unlines (rows ++ rows') = unlines rows ++ unlines rows' := by
  rw [unlines, List.map_append, String.join_append]
  rfl

theorem fileSection_eq (colour : Bool) (path : String) (findings : List Finding) :
    fileSection colour path findings = unlines (fileRows colour (path, findings)) := by
  simp [fileSection, unlines, fileRows, findingRow, Function.comp_def, String.append_assoc]

theorem sections_eq (colour : Bool) {listed : Nat} (h : listed ≤ 51) (files : List (String × List Finding)) :
    sections colour listed files =
      unlines ((files.take (51 - listed)).flatMap (fileRows colour) ++
        if 52 ≤ listed + files.length then ["... (and more files)"] else []) := by
  induction files generalizing listed with
  | nil =>
    rw [List.take_nil, List.length_nil, if_neg (by omega)]
    rfl
  | cons e rest ih =>
    obtain ⟨path, findings⟩ := e
    rw [sections, List.length_cons]
    by_cases hfull : listed = 51
    · subst hfull
      rw [if_pos (by decide), if_pos (by omega)]
      rfl
    · have hroom : 51 - listed = 51 - (listed + 1) + 1 := by omega
      have hlimit : ¬listedLimit < listed := by
        rw [listedLimit]
        omega
      have hcount : listed + (rest.length + 1) = listed + 1 + rest.length := by omega
      rw [if_neg hlimit, ih (by omega), fileSection_eq, hroom, List.take_succ_cons, List.flatMap_cons,
        List.append_assoc, unlines_append (fileRows _ _), hcount]

theorem render_eq_document (colour : Bool) (r : Reports) :
    render colour r = unlines (document colour r.entries) := by
  rw [render, document, Reports.size]
  by_cases h : r.entries = []
  · rw [if_pos (List.length_eq_zero_iff.2 h), if_pos h]
    simp [unlines, String.append_assoc]
  · rw [if_neg (fun hlen ↦ h (List.length_eq_zero_iff.1 hlen)), if_neg h,
      sections_eq colour (Nat.zero_le 51), Nat.zero_add, Nat.sub_zero, List.append_assoc, List.append_assoc,
      unlines_append _ (_ ++ (_ ++ _)), ← List.append_assoc, unlines_append (_ ++ _) [_]]
    simp [unlines, String.append_assoc]

end Page

namespace Reports

theorem entries_eq (r : Reports) : r.entries = r.paths.map fun path ↦ (path, (r.get? path).getD []) := by
  rw [paths, List.map_map]
  refine (List.map_id _).symm.trans (List.map_congr_left fun e he ↦ ?_)
  have hget : r.get? e.1 = some e.2 := r.get?_eq_some_iff.2 he
  simp [hget]

theorem bytes_ascending_paths (r : Reports) : r.paths.Pairwise fun a b ↦ Text.bytes a < Text.bytes b :=
  List.pairwise_map.2 (r.ascending.imp fun hlt ↦ Text.bytes_lt_iff.2 hlt)

theorem ofList_eq_of_filter_eq {pairs pairs' : List (String × List Finding)}
    (h : ∀ path, pairs.filter (fun e ↦ e.1 = path) = pairs'.filter (fun e ↦ e.1 = path)) :
    ofList pairs = ofList pairs' := by
  apply ext_get?
  intro path
  rw [get?_ofList, get?_ofList, last?, last?, h]

end Reports

namespace Audit

/-- What is printed of a list of pairs, of which the last one of a path counts: its distinct paths in
ascending order of their bytes make up the page, and pairs of different paths may change places. -/
theorem report_renders_document (host : Host) (hwrite : host.writeError? = none)
    (pairs : List (String × List Finding)) :
    (∃ paths : List String,
      (∀ path, path ∈ paths ↔ path ∈ pairs.map Prod.fst) ∧
      paths.Pairwise (fun a b ↦ Text.bytes a < Text.bytes b) ∧
      report host (.ofList pairs) =
        (Command.unlines (Page.document host.colour
          (paths.map fun path ↦ (path, (Reports.last? pairs path).getD []))), none)) ∧
    ∀ pairs' : List (String × List Finding),
      (∀ path, pairs.filter (fun e ↦ e.1 = path) = pairs'.filter (fun e ↦ e.1 = path)) →
      report host (.ofList pairs') = report host (.ofList pairs) := by
  constructor
  · refine ⟨(Reports.ofList pairs).paths, ?_, Reports.bytes_ascending_paths _, ?_⟩
    · intro path
      rw [Reports.mem_paths_iff, Reports.get?_ofList, ← Option.isSome_iff_exists, Reports.last?_isSome_iff]
    · have hentries := (Reports.ofList pairs).entries_eq
      simp only [Reports.get?_ofList] at hentries
      rw [report_of_written hwrite, Page.render_eq_document, hentries]
  · intro pairs' hsame
    rw [Reports.ofList_eq_of_filter_eq hsame]

theorem report_renders_document_moved :
    let host : Host := { disk := (Disk.Node.dir []).disk [], colour := true }
    let pairs : List (String × List Finding) := [("b", [⟨1, "one"⟩]), ("é", []), ("b", [⟨0, "two"⟩, ⟨7, "three"⟩])]
    let pairs' : List (String × List Finding) := [("b", [⟨1, "one"⟩]), ("b", [⟨0, "two"⟩, ⟨7, "three"⟩]), ("é", [])]
    host.writeError? = none ∧
      (∀ path, pairs.filter (fun e ↦ e.1 = path) = pairs'.filter (fun e ↦ e.1 = path)) ∧
      report host (.ofList pairs') = report host (.ofList pairs) := by
  intro host pairs pairs'
  have hsame : ∀ path, pairs.filter (fun e ↦ e.1 = path) = pairs'.filter (fun e ↦ e.1 = path) := by
    intro path
    by_cases hpath : "é" = path
    · subst hpath
      decide
    · simp [pairs, pairs', List.filter_cons, hpath]
  exact ⟨rfl, hsame, (report_renders_document host rfl pairs).2 pairs' hsame⟩

end Audit

end FrontendAudit
