import FrontendAudit.Disk.Basic
import Std.Data.HashMap

namespace FrontendAudit.Disk

structure Record where
  inspect : Except Reason Kind
  list : Except (Request × Reason) (List Entry) := .error (.listing, .notDirectory)
  read : Except (Request × Reason) ByteArray := .error (.reading, .isDirectory)

structure Snapshot where
  records : Std.HashMap String Record := {}
  occupied : List String := []
  depth : Nat := 0

namespace Snapshot

def add (s : Snapshot) (path : String) (r : Record) : Snapshot :=
  { s with records := s.records.insert path r }

def deepen (s : Snapshot) (level : Nat) : Snapshot :=
  { s with depth := max s.depth level }

def disk (s : Snapshot) : Disk where
  inspect path :=
    match s.records[path]? with
    | some r => r.inspect.mapError fun reason ↦ ⟨.inspecting, path, reason⟩
    | none => .error ⟨.inspecting, path, .missing⟩
  list path :=
    match s.records[path]? with
    | some r => r.list.mapError fun e ↦ ⟨e.1, path, e.2⟩
    | none => .error ⟨.opening, path, .missing⟩
  read path :=
    match s.records[path]? with
    | some r => r.read.mapError fun e ↦ ⟨e.1, path, e.2⟩
    | none => .error ⟨.opening, path, .missing⟩
  occupied path := s.occupied.contains path
  depth := s.depth

end Snapshot

end FrontendAudit.Disk
