import FrontendAudit.Disk.Edit
import FrontendAudit.Disk.Basic

namespace FrontendAudit.Disk

structure Workspace where
  root : Node
  cwd : Place
  faults : List Fault := []

namespace Workspace

/-- The name of the base directory in the root of the tree. A separator is part of it, so it is never a
step of a path. -/
def baseName : String := "/"

def basePlace : Place := [baseName]

def empty : Workspace where
  root := .dir [(baseName, .dir [])]
  cwd := basePlace

/-- Makes a path the working directory, and the directory if it is missing. -/
def enter (w : Workspace) (path : String) : Workspace :=
  let root := w.root.makeDir w.cwd path
  match root.locate true w.cwd (Path.steps path) with
  | .ok place => { w with root, cwd := place }
  | .error _ => { w with root }

def writeFile (w : Workspace) (path : String) (content : ByteArray) : Workspace :=
  { w with root := w.root.writeFile w.cwd path content }

def makeLink (w : Workspace) (path target : String) : Workspace :=
  { w with root := w.root.makeLink w.cwd path target }

def makeDir (w : Workspace) (path : String) : Workspace :=
  { w with root := w.root.makeDir w.cwd path }

/-- The same place once another place and all below it are gone. If it was there or below, an empty name,
which no entry has, takes the place of the name that is gone. -/
def without (place gone : Place) : Place :=
  if gone.isSuffixOf place then place.take (place.length - gone.length) ++ "" :: gone.tail else place

/-- Removes what the path names with all below it; of a link only the link itself. A working directory
that is removed remains the working directory, even if one of the same name is made again. -/
def remove (w : Workspace) (path : String) : Workspace :=
  match w.root.named? w.cwd path with
  | some place => { w with root := w.root.clear place, cwd := without w.cwd place }
  | none => w

def addFault (w : Workspace) (f : Fault) : Workspace :=
  { w with faults := f :: w.faults }

def clearFaults (w : Workspace) : Workspace :=
  { w with faults := [] }

inductive Edit
  | enter (path : String)
  | writeFile (path : String) (content : ByteArray)
  | makeLink (path target : String)
  | makeDir (path : String)
  | remove (path : String)
  | addFault (f : Fault)
  | clearFaults

def edit (w : Workspace) : Edit → Workspace
  | .enter path => w.enter path
  | .writeFile path content => w.writeFile path content
  | .makeLink path target => w.makeLink path target
  | .makeDir path => w.makeDir path
  | .remove path => w.remove path
  | .addFault f => w.addFault f
  | .clearFaults => w.clearFaults

def ofEdits (edits : List Edit) : Workspace :=
  edits.foldl edit empty

def sound (w : Workspace) : Disk :=
  w.root.disk w.cwd

def disk (w : Workspace) : Disk :=
  w.sound.withFaults w.faults

end Workspace

end FrontendAudit.Disk
