import FrontendAudit.Audit
import FrontendAudit.Proofs.Reports

namespace FrontendAudit

namespace Target

section

variable {disk disk' : Disk} (h : ∀ r ∈ roots, disk.inspect r = disk'.inspect r)

include h

theorem isRoot_congr {r : String} (hr : r ∈ roots) : isRoot disk r = isRoot disk' r := by
  rw [isRoot, isRoot, h r hr]

theorem all_congr (paths : List String) : all disk paths = all disk' paths := by
  have hpresent : present disk = present disk' :=
    List.filter_congr fun r hr ↦ by rw [isRoot_congr h hr]
  rw [all, all, hpresent]

end

end Target

/-- The targets that are gone through before the audit is told that it is cancelled. -/
def Deadline.admitted : Deadline → List String → List String
  | none, targets => targets
  | some n, targets => targets.take n

/-- What is left of a deadline once it has been asked about each of the targets, the refused one
included. -/
def Deadline.spent : Deadline → List String → Deadline
  | none, _ => none
  | some n, targets => some (n - targets.length)

namespace Audit

/-- A file that one of the targets hands out. -/
def HandedOut (disk : Disk) (targets : List String) (path : String) : Prop :=
  ∃ t ∈ targets, path ∈ Walk.files disk t

def checkFiles (disk : Disk) (r : Reports) (files : List String) : Reports :=
  files.foldl (fun r f ↦ r.add f (Source.check disk f).findings) r

/-- The report set of targets that are all gone through. -/
def collect (disk : Disk) (targets : List String) : Reports :=
  checkFiles disk .empty (targets.flatMap (Walk.files disk))

theorem checkFiles_append (disk : Disk) (r : Reports) (files files' : List String) :
    checkFiles disk r (files ++ files') = checkFiles disk (checkFiles disk r files) files' :=
  List.foldl_append

theorem get?_checkFiles (disk : Disk) (r : Reports) (files : List String) (path : String) :
    (checkFiles disk r files).get? path =
      if path ∈ files ∧ (Source.check disk path).findings ≠ [] then
        some (Source.check disk path).findings
      else r.get? path := by
  induction files generalizing r with
  | nil => simp [checkFiles]
  | cons f rest ih =>
    have hstep : checkFiles disk r (f :: rest) =
        checkFiles disk (r.add f (Source.check disk f).findings) rest := rfl
    rw [hstep, ih, Reports.get?_add]
    by_cases hf : path = f
    · subst hf
      by_cases hne : (Source.check disk path).findings = [] <;> simp [hne]
    · simp [hf]

theorem get?_collect_eq_some_iff {disk : Disk} {targets : List String} {path : String}
    {findings : List Finding} :
    (collect disk targets).get? path = some findings ↔
      HandedOut disk targets path ∧ findings = (Source.check disk path).findings ∧ findings ≠ [] := by
  have hmem : HandedOut disk targets path ↔ path ∈ targets.flatMap (Walk.files disk) :=
    List.mem_flatMap.symm
  rw [collect, get?_checkFiles, Reports.get?_empty, hmem]
  constructor
  · intro h
    split at h
    · next hc =>
      obtain rfl := Option.some.inj h
      exact ⟨hc.1, rfl, hc.2⟩
    · exact absurd h (by simp)
  · intro h
    obtain ⟨hmem, rfl, hne⟩ := h
    rw [if_pos ⟨hmem, hne⟩]

theorem collect_congr (disk : Disk) {targets targets' : List String}
    (h : ∀ path, HandedOut disk targets path ↔ HandedOut disk targets' path) :
    collect disk targets = collect disk targets' := by
  refine Reports.ext_get? fun path ↦ Option.ext fun findings ↦ ?_
  rw [get?_collect_eq_some_iff, get?_collect_eq_some_iff, h]

theorem handedOut_append {disk : Disk} {targets targets' : List String} {path : String} :
    HandedOut disk (targets ++ targets') path ↔
      HandedOut disk targets path ∨ HandedOut disk targets' path := by
  simp only [HandedOut, List.mem_append, or_and_right, exists_or]

theorem steps_addTo (disk : Disk) (r : Reports) (visits : List Visit) :
    (visits.map (Step.ofVisit disk)).foldl (fun r s ↦ s.addTo r) r =
      checkFiles disk r (visits.filterMap Visit.path?) := by
  induction visits generalizing r with
  | nil => rfl
  | cons v rest ih =>
    rw [List.map_cons, List.foldl_cons, ih]
    cases v <;> rfl

theorem reports_target (disk : Disk) (p : Progress) (t : String) :
    (p.target disk t).reports = checkFiles disk p.reports (Walk.files disk t) :=
  steps_addTo disk p.reports (Walk.visits disk t)

theorem reports_targets (disk : Disk) (p : Progress) (targets : List String) :
    (p.targets disk targets).reports =
      checkFiles disk p.reports ((p.deadline.admitted targets).flatMap (Walk.files disk)) := by
  induction targets generalizing p with
  | nil => cases hd : p.deadline <;> simp [Progress.targets, Deadline.admitted, checkFiles]
  | cons t rest ih =>
    rw [Progress.targets]
    split
    · next hpassed =>
      have hd : p.deadline = some 0 := by
        unfold Deadline.passed at hpassed
        split at hpassed <;> simp_all
      simp [hd, Deadline.admitted, checkFiles]
    · next hopen =>
      rw [ih, reports_target, ← checkFiles_append]
      congr 1
      match p.deadline, hopen with
      | none, _ => simp [Progress.target, Deadline.asked, Deadline.admitted]
      | some (n + 1), _ => simp [Progress.target, Deadline.asked, Deadline.admitted]

theorem deadline_targets (disk : Disk) (p : Progress) (targets : List String) :
    (p.targets disk targets).deadline = p.deadline.spent targets := by
  induction targets generalizing p with
  | nil => cases hd : p.deadline <;> simp [Progress.targets, Deadline.spent, hd]
  | cons t rest ih =>
    rw [Progress.targets]
    match p.deadline with
    | none => simp [Deadline.passed, ih, Progress.target, Deadline.asked, Deadline.spent]
    | some 0 => simp [Deadline.passed, Deadline.asked, Deadline.spent]
    | some (n + 1) =>
      simp only [Deadline.passed, Bool.false_eq_true, if_false, ih, Progress.target, Deadline.asked,
        Deadline.spent, List.length_cons, Option.some.injEq]
      omega

theorem reports_scan (host : Host) (paths : List String) :
    (scan host paths).reports =
      collect host.disk (host.deadline.admitted (Target.all host.disk paths)) :=
  reports_targets host.disk _ _

theorem deadline_scan (host : Host) (paths : List String) :
    (scan host paths).deadline = host.deadline.spent (Target.all host.disk paths) :=
  deadline_targets host.disk _ _

theorem run_of_passed {host : Host} {paths : List String}
    (h : (scan host paths).deadline.passed = true) :
    (run host paths).output = "" ∧ (run host paths).error? = some .canceled := by
  simp only [run, h, if_true, and_self]

theorem run_of_not_passed {host : Host} {paths : List String}
    (h : (scan host paths).deadline.passed = false) :
    (run host paths).output = (report host (scan host paths).reports).1 ∧
      (run host paths).error? = (report host (scan host paths).reports).2 := by
  simp only [run, h, Bool.false_eq_true, if_false, and_self]

theorem report_of_writeError {host : Host} {e : WriteError} (h : host.writeError? = some e) (r : Reports) :
    report host r = (e.taken (Page.render host.colour r), some (.unwritten e.reason)) := by
  simp only [report, Host.write, h, Option.map_some]

theorem report_of_written {host : Host} (h : host.writeError? = none) (r : Reports) :
    report host r = (Page.render host.colour r, none) := by
  simp only [report, Host.write, h, Option.map_none]

theorem error?_report (host : Host) (r : Reports) :
    (report host r).2 = host.writeError?.map fun e ↦ .unwritten e.reason := by
  cases h : host.writeError? with
  | some e => rw [report_of_writeError h, Option.map_some]
  | none => rw [report_of_written h, Option.map_none]

theorem error?_run (host : Host) (paths : List String) :
    (run host paths).error? =
      if (host.deadline.spent (Target.all host.disk paths)).passed then some .canceled
      else host.writeError?.map fun e ↦ .unwritten e.reason := by
  rw [← deadline_scan]
  split
  · next hpassed => exact (run_of_passed hpassed).2
  · next hopen => rw [(run_of_not_passed (Bool.not_eq_true _ ▸ hopen)).2, error?_report]

def Host.uncancelled (host : Host) : Host :=
  { host with deadline := none }

theorem reports_uncancelled (host : Host) (paths : List String) :
    (scan host.uncancelled paths).reports = collect host.disk (Target.all host.disk paths) :=
  reports_scan host.uncancelled paths

theorem run_uncancelled (host : Host) (paths : List String) :
    (run host.uncancelled paths).output =
        (report host (collect host.disk (Target.all host.disk paths))).1 ∧
      (run host.uncancelled paths).error? =
        (report host (collect host.disk (Target.all host.disk paths))).2 := by
  have hopen : (scan host.uncancelled paths).deadline.passed = false :=
    congrArg Deadline.passed (deadline_scan host.uncancelled paths)
  have hrun := run_of_not_passed hopen
  rwa [reports_uncancelled] at hrun

end Audit

end FrontendAudit
