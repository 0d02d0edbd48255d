import FrontendAudit.Disk.Workspace
import FrontendAudit.Proofs.Scan

namespace FrontendAudit.Audit

theorem targets_of_paths (disk : Disk) {paths : List String} (h : paths ≠ []) :
    Target.all disk paths = paths := by
  rw [Target.all, if_neg (by simpa using h)]

theorem collect_eq_of_mem_iff (disk : Disk) {targets targets' : List String}
    (h : ∀ t, t ∈ targets ↔ t ∈ targets') : collect disk targets = collect disk targets' :=
  collect_congr disk fun path ↦ by simp only [HandedOut, h]

theorem get?_collect_append (disk : Disk) (targets targets' : List String) (path : String) :
    (collect disk (targets ++ targets')).get? path =
      ((collect disk targets).get? path).or ((collect disk targets').get? path) := by
  refine Option.ext fun findings ↦ ?_
  rw [get?_collect_eq_some_iff, handedOut_append, Option.or_eq_some_iff, get?_collect_eq_some_iff,
    get?_collect_eq_some_iff]
  constructor
  · intro h
    rcases h with ⟨hout | hout, hf⟩
    · exact .inl ⟨hout, hf⟩
    · by_cases hleft : HandedOut disk targets path
      · exact .inl ⟨hleft, hf⟩
      · refine .inr ⟨?_, hout, hf⟩
        rw [Option.eq_none_iff_forall_ne_some]
        intro other hother
        exact hleft (get?_collect_eq_some_iff.1 hother).1
  · intro h
    rcases h with ⟨hout, hf⟩ | ⟨-, hout, hf⟩
    · exact ⟨.inl hout, hf⟩
    · exact ⟨.inr hout, hf⟩

/-- The order and the number of times in which targets are given do not matter; a scan of two lists of
targets is the union of their scans, which agree where both have findings; and whenever a scan ends, its
report set holds exactly the paths with findings among those that were handed out. -/
theorem scan_target_set (host : Host) :
    (∀ paths paths' : List String, paths ≠ [] → paths' ≠ [] → (∀ t, t ∈ paths ↔ t ∈ paths') →
      (scan host.uncancelled paths).reports = (scan host.uncancelled paths').reports ∧
      (run host.uncancelled paths).output = (run host.uncancelled paths').output ∧
      (run host.uncancelled paths).error? = (run host.uncancelled paths').error?) ∧
    (∀ paths paths' : List String, paths ≠ [] → paths' ≠ [] → ∀ path,
      (scan host.uncancelled (paths ++ paths')).reports.get? path =
        ((scan host.uncancelled paths).reports.get? path).or
          ((scan host.uncancelled paths').reports.get? path) ∧
      ∀ findings findings', (scan host.uncancelled paths).reports.get? path = some findings →
        (scan host.uncancelled paths').reports.get? path = some findings' → findings = findings') ∧
    ∀ (paths : List String) (path : String) (findings : List Finding),
      (scan host paths).reports.get? path = some findings ↔
        HandedOut host.disk (host.deadline.admitted (Target.all host.disk paths)) path ∧
        findings = (Source.check host.disk path).findings ∧ findings ≠ [] := by
  refine ⟨?_, ?_, ?_⟩
  · intro paths paths' hp hp' hsame
    have hcollect : collect host.disk (Target.all host.disk paths) =
        collect host.disk (Target.all host.disk paths') := by
      rw [targets_of_paths host.disk hp, targets_of_paths host.disk hp']
      exact collect_eq_of_mem_iff host.disk hsame
    refine ⟨?_, ?_, ?_⟩
    · rw [reports_uncancelled, reports_uncancelled, hcollect]
    · rw [(run_uncancelled host paths).1, (run_uncancelled host paths').1, hcollect]
    · rw [(run_uncancelled host paths).2, (run_uncancelled host paths').2, hcollect]
  · intro paths paths' hp hp' path
    have happ : paths ++ paths' ≠ [] := by simp [hp]
    simp only [reports_uncancelled, targets_of_paths host.disk hp, targets_of_paths host.disk hp',
      targets_of_paths host.disk happ]
    refine ⟨get?_collect_append host.disk paths paths' path, ?_⟩
    intro findings findings' h h'
    exact (get?_collect_eq_some_iff.1 h).2.1.trans (get?_collect_eq_some_iff.1 h').2.1.symm
  · intro paths path findings
    rw [reports_scan]
    exact get?_collect_eq_some_iff

theorem scan_target_set_overlap :
    let root : Disk.Node := .dir [("a", .dir [("b.ts", .file "p-[13px]".toUTF8), ("c.ts", .file .empty)])]
    let host : Host := { disk := (root.disk []).withFaults [⟨.opening, "a/c.ts", .denied⟩] }
    (scan host.uncancelled ["a", "a/b.ts"]).reports = (scan host.uncancelled ["a/b.ts", "a", "a"]).reports ∧
      (scan host.uncancelled (["a"] ++ ["a/b.ts"])).reports.get? "a/b.ts" =
        ((scan host.uncancelled ["a"]).reports.get? "a/b.ts").or
          ((scan host.uncancelled ["a/b.ts"]).reports.get? "a/b.ts") ∧
      ((scan host.uncancelled ["a", "a/b.ts"]).reports.get? "a/c.ts").isSome := by
  refine ⟨?_, ?_, by decide +kernel⟩
  · refine ((scan_target_set _).1 _ _ (by simp) (by simp) ?_).1
    intro t
    simp only [List.mem_cons, List.not_mem_nil, or_false]
    constructor
    · intro h
      rcases h with rfl | rfl
      · exact .inr (.inl rfl)
      · exact .inl rfl
    · intro h
      rcases h with rfl | rfl | rfl
      · exact .inr rfl
      · exact .inl rfl
      · exact .inl rfl
  · exact ((scan_target_set _).2.1 _ _ (by simp) (by simp) "a/b.ts").1

end FrontendAudit.Audit
