import FrontendAudit.Audit
import FrontendAudit.Log.Logger
import FrontendAudit.Proofs.Line
import Mathlib.Data.List.Basic

namespace FrontendAudit.Log

namespace Logger

theorem emit_nil (l : Logger) : l.emit [] = [] := rfl

theorem emit_append (l : Logger) (es es' : List Entry) : l.emit (es ++ es') = l.emit es ++ l.emit es' := by
  rw [emit, List.filter_append, List.map_append]
  rfl

end Logger

structure Journal where
  logger : Logger
  entries : List Entry := []

def Journal.log (j : Journal) (es : List Entry) : Journal :=
  { j with entries := j.entries ++ j.logger.emit es }

theorem Journal.log_nil (j : Journal) : j.log [] = j := by
  rw [log, Logger.emit_nil, List.append_nil]

theorem Journal.log_append (j : Journal) (es es' : List Entry) : (j.log es).log es' = j.log (es ++ es') := by
  simp only [log, Logger.emit_append, List.append_assoc]

abbrev Logging := StateM Journal

def note (e : Entry) : Logging Unit :=
  modify fun j ↦ j.log [e]

variable {α β : Type}

/-- Whatever the journal, the program comes to `a` and logs the entries. -/
structure Logs (program : Logging α) (a : α) (es : List Entry) : Prop where
  run_eq : ∀ j, program.run j = (a, j.log es)

namespace Logs

theorem pure (a : α) : Logs (pure a) a [] where
  run_eq j := by
    rw [j.log_nil]
    rfl

theorem note (e : Entry) : Logs (note e) () [e] where
  run_eq _ := rfl

theorem bind {x : Logging α} {f : α → Logging β} {a : α} {b : β} {es es' : List Entry} (hx : Logs x a es)
    (hf : Logs (f a) b es') : Logs (x >>= f) b (es ++ es') where
  run_eq j := by
    have hstep : (x >>= f).run j = (f (x.run j).1).run (x.run j).2 := rfl
    rw [hstep, hx.run_eq j, hf.run_eq (j.log es), j.log_append]

theorem map {x : Logging α} {f : α → Logging β} {a : α} {b : β} {es : List Entry} (hx : Logs x a es)
    (hf : Logs (f a) b []) : Logs (x >>= f) b es := by
  have h := hx.bind hf
  rwa [List.append_nil] at h

theorem forM (f : α → Entry) (l : List α) : Logs (l.forM fun a ↦ Log.note (f a)) () (l.map f) := by
  induction l with
  | nil => exact pure ()
  | cons a l ih => exact (note (f a)).bind ih

theorem flatMapM {f : α → Logging (List β)} {g : α → List β} {es : α → List Entry}
    (h : ∀ a, Logs (f a) (g a) (es a)) (l : List α) : Logs (l.flatMapM f) (l.flatMap g) (l.flatMap es) := by
  induction l with
  | nil => exact pure []
  | cons a l ih =>
    rw [List.flatMapM_cons, List.flatMap_cons, List.flatMap_cons]
    exact (h a).bind (ih.map (pure _))

theorem foldlM {f : β → α → Logging β} {g : β → α → β} {es : α → List Entry}
    (h : ∀ b a, Logs (f b a) (g b a) (es a)) (l : List α) (b : β) :
    Logs (l.foldlM f b) (l.foldl g b) (l.flatMap es) := by
  induction l generalizing b with
  | nil => exact pure b
  | cons a l ih =>
    rw [List.foldlM_cons, List.foldl_cons, List.flatMap_cons]
    exact (h b a).bind (ih (g b a))

end Logs

end FrontendAudit.Log

namespace FrontendAudit.Audit.InPlace

open Log

def checkSpacing (path : String) (number : Int) (s : Spacing) : Logging (List Finding) :=
  match s.error? with
  | some e => do
    note ((Line.skipped number s e).withField "file" path)
    return []
  | none => return if s.offScale then [⟨number, (Violation.spacing s).message⟩] else []

def checkLine (path : String) (number : Int) (line : List Char) : Logging (List Finding) := do
  let spacings ← (Spacing.ofLine line).flatMapM (checkSpacing path number)
  return spacings ++ (((Padding.asymmetry? line).map fun xy ↦ Violation.asymmetricPadding xy.1 xy.2).toList ++
    if Loop.hasAwaitInLoop line then [Violation.awaitInLoop] else []).map fun v ↦ ⟨number, v.message⟩

def checkFile (disk : Disk) (path : String) : Logging (List Finding) :=
  match Source.lines disk path with
  | .ok ls => (ls.zipIdx 1).flatMapM fun l ↦ checkLine path l.2 l.1
  | .error e => do
    (Source.unreadable e).entries.forM fun entry ↦ note (entry.withField "file" path)
    return (Source.unreadable e).findings

def visit (disk : Disk) (target : String) (r : Reports) : Visit → Logging Reports
  | .file path => do
    note (.debug "check a file" [("file", path)])
    return r.add path (← checkFile disk path)
  | v => do
    v.entry?.toList.forM fun e ↦ note (e.withField "target" target)
    return r

def walk (disk : Disk) (target : String) : Nat → Reports → String → Logging Reports
  | 0, r, _ => return r
  | depth + 1, r, dir =>
    match disk.list dir with
    | .error e => visit disk target r (.unreadable dir e)
    | .ok entries => do
      let r ← entries.foldlM (fun r e ↦ (Walk.visit? disk dir e).toList.foldlM (visit disk target) r) r
      (entries.filter Walk.descends).foldlM
        (fun r e ↦ walk disk target depth r (Disk.Path.join dir e.name)) r

def checkTarget (disk : Disk) (r : Reports) (target : String) : Logging Reports :=
  match disk.inspect target with
  | .ok .regular => visit disk target r (.file target)
  | _ => walk disk target (disk.depth + 1) r target

def checkTargets (disk : Disk) (d : Deadline) (r : Reports) : List String → Logging (Deadline × Reports)
  | [] => return (d, r)
  | t :: rest =>
    if d.passed then return (d.asked, r)
    else do checkTargets disk d.asked (← checkTarget disk r t) rest

def root? (disk : Disk) (root : String) : Logging (List String) :=
  match Target.isRoot disk root with
  | .ok present => return if present then [root] else []
  | .error e => do
    note (.debug "check if a directory exists" [("error", e.message), ("path", root)])
    return []

def targets (disk : Disk) (paths : List String) : Logging (List String) :=
  if paths.isEmpty then do
    let present ← Target.roots.flatMapM (root? disk)
    return if present.isEmpty then ["."] else present
  else return paths

def scan (host : Host) (paths : List String) : Logging (Deadline × Reports) := do
  checkTargets host.disk host.deadline .empty (← targets host.disk paths)

def run (host : Host) (paths : List String) : Logging (String × Option Failure) := do
  let p ← scan host paths
  return if p.1.passed then ("", some .canceled) else report host p.2

theorem checkSpacing_logs (path : String) (number : Int) (s : Spacing) :
    Logs (checkSpacing path number s) (if s.offScale then [⟨number, (Violation.spacing s).message⟩] else [])
      ((s.error?.map (Line.skipped number s)).toList.map fun e ↦ e.withField "file" path) := by
  rw [checkSpacing]
  cases he : s.error? with
  | none => exact .pure _
  | some e =>
    have hoff : s.offScale = false := by
      unfold Spacing.error? at he
      unfold Spacing.offScale
      cases hread : Spacing.Value.read s.digits <;> simp [hread] at he ⊢
    rw [hoff]
    exact (Logs.note _).map (.pure _)

theorem checkLine_logs (path : String) (number : Int) (line : List Char) :
    Logs (checkLine path number line) (Line.findings number line)
      ((Line.entries number line).map fun e ↦ e.withField "file" path) := by
  have hspacings := Logs.flatMapM (checkSpacing_logs path number) (Spacing.ofLine line)
  rw [← map_filter_eq_flatMap Spacing.offScale fun s ↦ (⟨number, (Violation.spacing s).message⟩ : Finding)]
    at hspacings
  simp only [Line.findings, Violation.ofLine, List.append_assoc, List.map_append, List.map_map,
    Function.comp_def, Line.entries, List.filterMap_eq_flatMap_toList, List.map_flatMap]
  apply hspacings.map
  rw [List.map_append]
  exact .pure _

theorem checkFile_logs (disk : Disk) (path : String) :
    Logs (checkFile disk path) (Source.check disk path).findings
      ((Source.check disk path).entries.map fun e ↦ e.withField "file" path) := by
  rw [checkFile, Source.check]
  cases Source.lines disk path with
  | ok ls =>
    simp only [Source.checkLines, List.map_flatMap]
    apply Logs.flatMapM
    intro l
    exact checkLine_logs path l.2 l.1
  | error e => exact (Logs.forM _ _).map (.pure _)

theorem visit_logs (disk : Disk) (target : String) (r : Reports) (v : Visit) :
    Logs (visit disk target r v) ((Step.ofVisit disk v).addTo r) ((Step.ofVisit disk v).entries target) := by
  cases v with
  | file path => exact (Logs.note _).bind ((checkFile_logs disk path).map (.pure _))
  | ignored path => exact (Logs.forM _ _).map (.pure r)
  | unreadable path error => exact (Logs.forM _ _).map (.pure r)

theorem walk_logs (disk : Disk) (target : String) (depth : Nat) (r : Reports) (dir : String) :
    Logs (walk disk target depth r dir)
      ((Walk.below disk depth dir).foldl (fun r v ↦ (Step.ofVisit disk v).addTo r) r)
      ((Walk.below disk depth dir).flatMap fun v ↦ (Step.ofVisit disk v).entries target) := by
  induction depth generalizing r dir with
  | zero => exact .pure r
  | succ depth ih =>
    rw [walk, Walk.below]
    cases disk.list dir with
    | error e =>
      rw [List.foldl_cons, List.foldl_nil, List.flatMap_singleton]
      exact visit_logs disk target r (.unreadable dir e)
    | ok entries =>
      rw [List.foldl_append, List.flatMap_append, List.filterMap_eq_flatMap_toList, List.foldl_flatMap,
        List.flatMap_assoc, List.foldl_flatMap, List.flatMap_assoc]
      apply Logs.bind
      · apply Logs.foldlM
        intro r e
        exact Logs.foldlM (visit_logs disk target) _ r
      · apply Logs.foldlM
        intro r e
        exact ih r (Disk.Path.join dir e.name)

theorem checkTarget_logs (disk : Disk) (r : Reports) (t : String) :
    Logs (checkTarget disk r t) ((Walk.visits disk t).foldl (fun r v ↦ (Step.ofVisit disk v).addTo r) r)
      ((Walk.visits disk t).flatMap fun v ↦ (Step.ofVisit disk v).entries t) := by
  rw [checkTarget, Walk.visits]
  cases disk.inspect t with
  | error e => exact walk_logs disk t (disk.depth + 1) r t
  | ok kind =>
    cases kind with
    | directory => exact walk_logs disk t (disk.depth + 1) r t
    | regular =>
      rw [List.foldl_cons, List.foldl_nil, List.flatMap_singleton]
      exact visit_logs disk t r (.file t)

theorem checkTargets_logs (disk : Disk) (ts : List String) (p : Progress) :
    ∃ es, (p.targets disk ts).entries = p.entries ++ es ∧
      Logs (checkTargets disk p.deadline p.reports ts)
        ((p.targets disk ts).deadline, (p.targets disk ts).reports) es := by
  induction ts generalizing p with
  | nil => exact ⟨[], by rw [List.append_nil]; rfl, .pure _⟩
  | cons t rest ih =>
    rw [Progress.targets, checkTargets]
    split
    · exact ⟨[], by rw [List.append_nil], .pure _⟩
    · obtain ⟨es, hentries, hlogs⟩ := ih (Progress.target disk { p with deadline := p.deadline.asked } t)
      rw [Progress.target] at hentries hlogs ⊢
      rw [List.foldl_map, List.flatMap_map] at hentries hlogs ⊢
      refine ⟨_ ++ es, ?_, (checkTarget_logs disk p.reports t).bind hlogs⟩
      rw [hentries, List.append_assoc]

theorem targets_logs (disk : Disk) (paths : List String) :
    Logs (targets disk paths) (Target.all disk paths) (Target.entries disk paths) := by
  rw [targets, Target.all, Target.entries]
  split
  · have hroot : ∀ root, Logs (root? disk root)
        (if (Target.isRoot disk root).toOption = some true then [root] else [])
        ((match Target.isRoot disk root with
          | .ok _ => none
          | .error e => some (Log.Entry.debug "check if a directory exists" [("error", e.message), ("path", root)])
          : Option Log.Entry).toList) := by
      intro root
      rw [root?]
      cases Target.isRoot disk root with
      | ok present => cases present <;> exact .pure _
      | error e => exact (Logs.note _).map (.pure _)
    have hpresent : Target.present disk = Target.roots.flatMap fun root ↦
        if (Target.isRoot disk root).toOption = some true then [root] else [] := by
      rw [Target.present, ← List.map_id (List.filter _ _), map_filter_eq_flatMap]
      simp only [decide_eq_true_eq, id]
    rw [hpresent, List.filterMap_eq_flatMap_toList]
    exact (Logs.flatMapM hroot Target.roots).map (.pure _)
  · exact .pure _

theorem scan_logs (host : Host) (paths : List String) :
    Logs (scan host paths) ((Audit.scan host paths).deadline, (Audit.scan host paths).reports)
      (Audit.scan host paths).entries := by
  obtain ⟨es, hentries, hlogs⟩ := checkTargets_logs host.disk (Target.all host.disk paths)
    ⟨host.deadline, .empty, Target.entries host.disk paths⟩
  rw [Audit.scan, hentries]
  exact (targets_logs host.disk paths).bind hlogs

theorem run_logs (host : Host) (paths : List String) :
    Logs (run host paths) ((Audit.run host paths).output, (Audit.run host paths).error?)
      (Audit.run host paths).entries := by
  have hrun : ((Audit.run host paths).output, (Audit.run host paths).error?) =
      (if (Audit.scan host paths).deadline.passed then ("", some .canceled)
        else report host (Audit.scan host paths).reports) ∧
      (Audit.run host paths).entries = (Audit.scan host paths).entries := by
    rw [Audit.run]
    split
    · exact ⟨rfl, rfl⟩
    · exact ⟨rfl, rfl⟩
  rw [hrun.1, hrun.2]
  exact (scan_logs host paths).map (.pure _)

end FrontendAudit.Audit.InPlace
