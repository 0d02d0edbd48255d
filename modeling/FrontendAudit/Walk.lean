import FrontendAudit.Disk.Basic
import FrontendAudit.Disk.Path
import FrontendAudit.Log.Entry

namespace FrontendAudit

namespace Target

def roots : List String :=
  ["src", "app", "components"]

/-- Whether a root exists. An error other than its absence is passed on. -/
def isRoot (disk : Disk) (root : String) : Except Disk.Error Bool :=
  match disk.inspect root with
  | .ok _ => .ok true
  | .error e => if e.reason = .missing then .ok false else .error e

def present (disk : Disk) : List String :=
  roots.filter fun root ↦ (isRoot disk root).toOption = some true

def all (disk : Disk) (paths : List String) : List String :=
  if paths.isEmpty then
    if (present disk).isEmpty then ["."] else present disk
  else paths

def entries (disk : Disk) (paths : List String) : List Log.Entry :=
  if paths.isEmpty then
    roots.filterMap fun root ↦
      match isRoot disk root with
      | .ok _ => none
      | .error e => some (.debug "check if a directory exists" [("error", e.message), ("path", root)])
  else []

end Target

namespace Selection

def endsIn (ending name : String) : Bool :=
  ending.toList.isSuffixOf name.toList

/-- A file is a target if its name has one of the endings and is not a type declaration's. A text with a
separator is no name. -/
def isTarget (name : String) : Bool :=
  !name.toList.contains '/' && !endsIn ".d.ts" name &&
    (endsIn ".tsx" name || endsIn ".ts" name || endsIn ".css" name)

def isExcludedDir (name : String) : Bool :=
  name = "node_modules" || name = ".next"

end Selection

/-- What a walk comes across. -/
inductive Visit
  | file (path : String)
  | ignored (path : String)
  | unreadable (path : String) (error : Disk.Error)
  deriving DecidableEq, Repr

namespace Visit

def path? : Visit → Option String
  | file path => some path
  | _ => none

def entry? : Visit → Option Log.Entry
  | file _ => none
  | ignored path => some (.debug "ignore a directory" [("path", path)])
  | unreadable path error =>
    some (.debug "read a directory" [("error", error.message), ("path", path)])

end Visit

namespace Walk

def isDir (disk : Disk) (dir : String) (e : Disk.Entry) : Bool :=
  match e.kind with
  | .directory => true
  | .regular => false
  | .link =>
    match disk.inspect (Disk.Path.join dir e.name) with
    | .ok .directory => true
    | _ => false

/-- What an entry adds to the visits of its own directory. -/
def visit? (disk : Disk) (dir : String) (e : Disk.Entry) : Option Visit :=
  if isDir disk dir e then
    if Selection.isExcludedDir e.name then some (.ignored (Disk.Path.join dir e.name)) else none
  else if Selection.isTarget e.name then some (.file (Disk.Path.join dir e.name))
  else none

def descends (e : Disk.Entry) : Bool :=
  e.kind = .directory && !Selection.isExcludedDir e.name

/-- The visits below a directory, at most `depth` directories deep. -/
def below (disk : Disk) : Nat → String → List Visit
  | 0, _ => []
  | depth + 1, dir =>
    match disk.list dir with
    | .error e => [.unreadable dir e]
    | .ok entries =>
      entries.filterMap (visit? disk dir) ++
        (entries.filter descends).flatMap fun e ↦ below disk depth (Disk.Path.join dir e.name)

/-- The visits for a target. A regular file is handed out whatever its name. -/
def visits (disk : Disk) (target : String) : List Visit :=
  match disk.inspect target with
  | .ok .regular => [.file target]
  | _ => below disk (disk.depth + 1) target

def files (disk : Disk) (target : String) : List String :=
  (visits disk target).filterMap Visit.path?

end Walk

end FrontendAudit
