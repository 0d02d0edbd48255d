namespace FrontendAudit

namespace Disk

inductive Request
  | opening
  | inspecting
  | reading
  | listing
  deriving DecidableEq, Repr

namespace Request

def verb : Request → String
  | opening => "open"
  | inspecting => "stat"
  | reading => "read"
  | listing => "readdirent"

end Request

inductive Reason
  | missing
  | notDirectory
  | isDirectory
  | tooManyLinks
  | nameTooLong
  | invalidPath
  | denied
  | broken
  deriving DecidableEq, Repr

namespace Reason

def text : Reason → String
  | missing => "no such file or directory"
  | notDirectory => "not a directory"
  | isDirectory => "is a directory"
  | tooManyLinks => "too many levels of symbolic links"
  | nameTooLong => "file name too long"
  | invalidPath => "invalid argument"
  | denied => "permission denied"
  | broken => "input/output error"

end Reason

structure Error where
  request : Request
  path : String
  reason : Reason
  deriving DecidableEq, Repr

namespace Error

def message (e : Error) : String :=
  e.request.verb ++ " " ++ e.path ++ ": " ++ e.reason.text

end Error

inductive Kind
  | regular
  | directory
  deriving DecidableEq, Repr

inductive EntryKind
  | regular
  | directory
  | link
  deriving DecidableEq, Repr

structure Entry where
  name : String
  kind : EntryKind
  deriving DecidableEq, Repr

end Disk

/-- The answers of a file system. Listings are in ascending order of names, and `depth` bounds how far
directories are nested below any path. -/
structure Disk where
  inspect : String → Except Disk.Error Disk.Kind
  list : String → Except Disk.Error (List Disk.Entry)
  read : String → Except Disk.Error ByteArray
  occupied : String → Bool
  depth : Nat

namespace Disk

structure Fault where
  request : Request
  path : String
  reason : Reason
  deriving DecidableEq, Repr

/-- The reason why a request fails for a path; of several faults the first in the list counts. -/
def faultFor? (faults : List Fault) (request : Request) (path : String) : Option Reason :=
  (faults.find? fun f ↦ f.request = request ∧ f.path = path).map Fault.reason

/-- The disk's answers under faults. Opening comes before listing and reading, and a fault of reading
shows only where opening succeeds. -/
def withFaults (disk : Disk) (faults : List Fault) : Disk where
  inspect path :=
    match faultFor? faults .inspecting path with
    | some r => .error ⟨.inspecting, path, r⟩
    | none => disk.inspect path
  list path :=
    match faultFor? faults .opening path with
    | some r => .error ⟨.opening, path, r⟩
    | none => disk.list path
  read path :=
    match faultFor? faults .opening path, disk.read path, faultFor? faults .reading path with
    | some r, _, _ => .error ⟨.opening, path, r⟩
    | none, .error ⟨.opening, p, r⟩, _ => .error ⟨.opening, p, r⟩
    | none, _, some r => .error ⟨.reading, path, r⟩
    | none, answer, none => answer
  occupied := disk.occupied
  depth := disk.depth

end Disk

end FrontendAudit
