import FrontendAudit.Text.Lines

namespace FrontendAudit.Disk.Path

/-- The path of an entry of a directory. The directory stays as it was written; a separator is added
only if it does not end in one. -/
def join (dir name : String) : String :=
  if dir.toList.getLast? = some '/' then dir ++ name else dir ++ "/" ++ name

def names (path : String) : List String :=
  ((Text.pieces (· == '/') path.toList).filter fun p ↦ !p.isEmpty).map String.ofList

/-- The steps of a path from its start. A separator at the end asks for a directory, as a last step to
the directory itself does. -/
def steps (path : String) : List String :=
  if path.toList.getLast? = some '/' then names path ++ ["."] else names path

def isAbsolute (path : String) : Bool :=
  path.toList.head? = some '/'

def nameLimit : Nat := 255

def limit : Nat := 4095

/-- What a file system takes for the name of an entry. -/
structure IsName (name : String) : Prop where
  ne_empty : name ≠ ""
  ne_here : name ≠ "."
  ne_above : name ≠ ".."
  no_separator : '/' ∉ name.toList
  no_zero : '\x00' ∉ name.toList
  fits : name.utf8ByteSize ≤ nameLimit

instance (name : String) : Decidable (IsName name) :=
  decidable_of_iff (name ≠ "" ∧ name ≠ "." ∧ name ≠ ".." ∧ '/' ∉ name.toList ∧ '\x00' ∉ name.toList ∧
      name.utf8ByteSize ≤ nameLimit)
    ⟨fun ⟨h₁, h₂, h₃, h₄, h₅, h₆⟩ ↦ ⟨h₁, h₂, h₃, h₄, h₅, h₆⟩,
      fun ⟨h₁, h₂, h₃, h₄, h₅, h₆⟩ ↦ ⟨h₁, h₂, h₃, h₄, h₅, h₆⟩⟩

end FrontendAudit.Disk.Path
