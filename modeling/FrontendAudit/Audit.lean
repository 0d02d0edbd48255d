import FrontendAudit.Page
import FrontendAudit.Source
import FrontendAudit.Walk

namespace FrontendAudit

/-- How often an audit may ask before it is told that it is cancelled; `none` if it never is. -/
abbrev Deadline := Option Nat

namespace Deadline

def passed : Deadline → Bool
  | some 0 => true
  | _ => false

def asked : Deadline → Deadline
  | some (n + 1) => some n
  | d => d

end Deadline

namespace Audit

/-- How writing fails. A writer may have taken some of a text by then, but only from its front. -/
structure WriteError where
  reason : String
  taken : String → String := fun _ ↦ ""
  taken_front : ∀ text, (taken text).toList <+: text.toList := by simp

structure Host where
  disk : Disk
  colour : Bool := false
  deadline : Deadline := none
  writeError? : Option WriteError := none

/-- What is written of a text, and why not all of it if writing fails. -/
def Host.write (host : Host) (text : String) : String × Option String :=
  match host.writeError? with
  | some e => (e.taken text, some e.reason)
  | none => (text, none)

inductive Failure
  | canceled
  | unwritten (reason : String)
  deriving DecidableEq, Repr

def Failure.message : Failure → String
  | canceled => "check files: context canceled"
  | unwritten reason => "output a report: " ++ reason

structure Step where
  visit : Visit
  check? : Option Source.Check

def Step.ofVisit (disk : Disk) (v : Visit) : Step :=
  ⟨v, v.path?.map (Source.check disk)⟩

def Step.addTo (s : Step) (reports : Reports) : Reports :=
  match s.visit, s.check? with
  | .file path, some c => reports.add path c.findings
  | _, _ => reports

def Step.entries (target : String) (s : Step) : List Log.Entry :=
  match s.visit, s.check? with
  | .file path, some c =>
    .debug "check a file" [("file", path)] :: c.entries.map fun e ↦ e.withField "file" path
  | v, _ => v.entry?.toList.map fun e ↦ e.withField "target" target

structure Progress where
  deadline : Deadline
  reports : Reports
  entries : List Log.Entry

def Progress.target (disk : Disk) (p : Progress) (target : String) : Progress :=
  let steps := (Walk.visits disk target).map (Step.ofVisit disk)
  { deadline := p.deadline
    reports := steps.foldl (fun r s ↦ s.addTo r) p.reports
    entries := p.entries ++ steps.flatMap (Step.entries target) }

def Progress.targets (disk : Disk) (p : Progress) : List String → Progress
  | [] => p
  | t :: rest =>
    let next := { p with deadline := p.deadline.asked }
    if p.deadline.passed then next else (next.target disk t).targets disk rest

def scan (host : Host) (paths : List String) : Progress :=
  Progress.targets host.disk ⟨host.deadline, .empty, Target.entries host.disk paths⟩
    (Target.all host.disk paths)

structure Result where
  output : String
  error? : Option Failure
  entries : List Log.Entry

/-- Prints a report set. The page is complete before any of it is written. -/
def report (host : Host) (reports : Reports) : String × Option Failure :=
  let written := host.write (Page.render host.colour reports)
  (written.1, written.2.map .unwritten)

def run (host : Host) (paths : List String) : Result :=
  let p := scan host paths
  if p.deadline.passed then ⟨"", some .canceled, p.entries⟩
  else
    let r := report host p.reports
    ⟨r.1, r.2, p.entries⟩

end Audit

end FrontendAudit
