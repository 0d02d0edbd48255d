import FrontendAudit.Disk.Tree

namespace FrontendAudit.Disk.Node

/-- Changes what stands under a list of names, the first name first. -/
def alter (change : Option Node → Option Node) : Option Node → List String → Option Node
  | n, [] => change n
  | some (dir entries), s :: rest =>
    match alter change (entries.lookup s) rest with
    | some n => some (dir (Keyed.put s n entries))
    | none => some (dir (Keyed.drop s entries))
  | n, _ :: _ => n

/-- Puts a node in a place. Nothing is put under a name that no entry can have. -/
def set (root : Node) : Place → Node → Node
  | [], _ => root
  | name :: above, n =>
    if Path.IsName name then (alter (fun _ ↦ some n) (some root) (name :: above).reverse).getD root else root

/-- Makes the directories of a path that are missing, from the outermost to the innermost. -/
def makeDirs (root : Node) (start : Place) (done : List String) : List String → Node
  | [] => root
  | s :: rest =>
    let upTo := done ++ [s]
    match root.locate true start upTo with
    | .ok _ => makeDirs root start upTo rest
    | .error _ =>
      match root.locate true start done with
      | .ok parent => makeDirs (root.set (s :: parent) (dir [])) start upTo rest
      | .error _ => root

def makeDir (root : Node) (start : Place) (path : String) : Node :=
  root.makeDirs start [] (Path.steps path)

/-- The place where the last of the steps is, or would be created: links that stand there are followed
even if they lead to nothing. -/
def site? (root : Node) : Nat → Place → List String → Option Place
  | 0, _, _ => none
  | links + 1, start, steps =>
    match steps.getLast? with
    | none => none
    | some name =>
      match root.locate true start steps.dropLast with
      | .error _ => none
      | .ok parent =>
        match root.at? (name :: parent) with
        | some (link target) => root.site? links (startOf parent target) (Path.steps target)
        | _ => some (name :: parent)

def writeFile (root : Node) (start : Place) (path : String) (content : ByteArray) : Node :=
  let root := root.makeDirs start [] (Path.steps path).dropLast
  match root.site? (linkLimit + 1) start (Path.steps path) with
  | none => root
  | some place =>
    match root.at? place with
    | some (dir _) => root
    | _ => root.set place (file content)

def makeLink (root : Node) (start : Place) (path target : String) : Node :=
  let steps := Path.steps path
  let root := root.makeDirs start [] steps.dropLast
  match steps.getLast?, root.locate true start steps.dropLast with
  | some name, .ok parent => root.set (name :: parent) (link target)
  | _, _ => root

/-- The place of what a path names, a link itself rather than its target. A separator at the end makes no
difference, and a path that ends in a step to the directory itself or to the one above names nothing. -/
def named? (root : Node) (start : Place) (path : String) : Option Place :=
  match (Path.names path).getLast? with
  | none => none
  | some "." => none
  | some ".." => none
  | some _ => (root.locate false (startOf start path) (Path.names path)).toOption

def clear (root : Node) (place : Place) : Node :=
  (alter (fun _ ↦ none) (some root) place.reverse).getD root

end FrontendAudit.Disk.Node
