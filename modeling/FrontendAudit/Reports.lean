import FrontendAudit.Line
import FrontendAudit.Keyed

namespace FrontendAudit

structure Reports where
  entries : List (String × List Finding)
  ascending : Keyed.Ascending entries

namespace Reports

def empty : Reports :=
  ⟨[], List.Pairwise.nil⟩

def size (r : Reports) : Nat :=
  r.entries.length

def get? (r : Reports) (path : String) : Option (List Finding) :=
  r.entries.lookup path

def put (r : Reports) (path : String) (findings : List Finding) : Reports where
  entries := Keyed.put path findings r.entries
  ascending := Keyed.ascending_put path findings r.ascending

/-- Sets the findings of a path that has any. -/
def add (r : Reports) (path : String) (findings : List Finding) : Reports :=
  if findings.isEmpty then r else r.put path findings

def ofList (pairs : List (String × List Finding)) : Reports :=
  pairs.foldl (fun r e ↦ r.put e.1 e.2) empty

end Reports

end FrontendAudit
