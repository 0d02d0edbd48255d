import FrontendAudit.Disk.Basic
import FrontendAudit.Disk.Path
import FrontendAudit.Keyed

namespace FrontendAudit.Disk

inductive Node
  | file (content : ByteArray)
  | link (target : String)
  | dir (entries : List (String × Node))

/-- The names that lead to a node, the last name first. A place where nothing is stands for a directory that
was removed while someone worked in it. -/
abbrev Place := List String

namespace Node

def kind : Node → EntryKind
  | file _ => .regular
  | link _ => .link
  | dir _ => .directory

mutual

def depth : Node → Nat
  | file _ => 0
  | link _ => 0
  | dir entries => depthOf entries + 1

def depthOf : List (String × Node) → Nat
  | [] => 0
  | (_, n) :: rest => max n.depth (depthOf rest)

end

def child? : Option Node → String → Option Node
  | some (dir entries), name => entries.lookup name
  | _, _ => none

def at? (root : Node) : Place → Option Node
  | [] => some root
  | name :: place => child? (root.at? place) name

end Node

/-- A place with the nodes on the way to it, its own node first and that of the root left out. -/
abbrev Trail := List (String × Option Node)

namespace Trail

def node? (root : Node) : Trail → Option Node
  | [] => some root
  | (_, n?) :: _ => n?

def place (t : Trail) : Place :=
  t.map Prod.fst

end Trail

namespace Node

def trail (root : Node) : Place → Trail
  | [] => []
  | name :: place =>
    let above := root.trail place
    (name, child? (above.node? root) name) :: above

def lookup : Option Node → String → Except Reason Node
  | some (dir entries), name =>
    if Path.nameLimit < name.utf8ByteSize then .error .nameTooLong
    else
      match entries.lookup name with
      | some n => .ok n
      | none => .error .missing
  | some _, _ => .error .notDirectory
  | none, _ => .error .missing

/-- Whether steps can be taken from a node. A removed directory is still a directory. -/
def isDirectory : Option Node → Bool
  | some (file _) => false
  | some (link _) => false
  | _ => true

def linkLimit : Nat := 40

/-- Takes the steps from the end of a trail. `jump` says where a link met there leads, given the steps that
remain behind it; a link at the very end is followed only if `final` is set. -/
def advance (root : Node) (final : Bool) (jump : Trail → String → List String → Except Reason Trail)
    (here : Trail) : List String → Except Reason Trail
  | [] => .ok here
  | s :: rest =>
    if isDirectory (here.node? root) = false then .error .notDirectory
    else if s = "." then advance root final jump here rest
    else if s = ".." then advance root final jump here.tail rest
    else
      match lookup (here.node? root) s with
      | .error e => .error e
      | .ok (link target) =>
        if rest.isEmpty && !final then .ok ((s, some (link target)) :: here) else jump here target rest
      | .ok n => advance root final jump ((s, some n) :: here) rest

def startOf {α : Type} (here : List α) (path : String) : List α :=
  if Path.isAbsolute path then [] else here

/-- The trail that steps lead to when at most `links` links are followed. -/
def follow (root : Node) (final : Bool) : Nat → Trail → List String → Except Reason Trail
  | 0 => advance root final fun _ _ _ ↦ .error .tooManyLinks
  | links + 1 => advance root final fun here target rest ↦
      if target = "" then .error .missing
      else follow root final links (startOf here target) (Path.steps target ++ rest)

def locate (root : Node) (final : Bool) (place : Place) (steps : List String) : Except Reason Place :=
  (root.follow final linkLimit (root.trail place) steps).map Trail.place

/-- The trail that a path leads to from a place. -/
def resolve (root : Node) (final : Bool) (place : Place) (path : String) : Except Reason Trail :=
  if path = "" then .error .missing
  else if path.toList.contains '\x00' then .error .invalidPath
  else if Path.limit < path.utf8ByteSize then .error .nameTooLong
  else root.follow final linkLimit (startOf (root.trail place) path) (Path.steps path)

/-- The node that a path leads to, links followed; no node for a removed directory. -/
def reach (root : Node) (place : Place) (path : String) : Except Reason (Option Node) :=
  (root.resolve true place path).map (Trail.node? root)

def listing (entries : List (String × Node)) : List Entry :=
  entries.map fun e ↦ ⟨e.1, e.2.kind⟩

def disk (root : Node) (place : Place) : Disk where
  inspect path :=
    match root.reach place path with
    | .ok (some (file _)) => .ok .regular
    | .ok (some (link _)) => .ok .regular
    | .ok _ => .ok .directory
    | .error e => .error ⟨.inspecting, path, e⟩
  list path :=
    match root.reach place path with
    | .ok (some (dir entries)) => .ok (listing entries)
    | .ok (some _) => .error ⟨.listing, path, .notDirectory⟩
    | .ok none => .error ⟨.listing, path, .missing⟩
    | .error e => .error ⟨.opening, path, e⟩
  read path :=
    match root.reach place path with
    | .ok (some (file content)) => .ok content
    | .ok _ => .error ⟨.reading, path, .isDirectory⟩
    | .error e => .error ⟨.opening, path, e⟩
  occupied path := (root.resolve false place path).isOk
  depth := root.depth

end Node

end FrontendAudit.Disk
