import FrontendAudit.Disk.Snapshot
import FrontendAudit.Program

namespace FrontendAudit.Recorder

open Disk

/-- The reason behind an error number of the system, which some calls give as a negative number. -/
def reasonOf (code : UInt32) : Reason :=
  match min code.toNat (0x100000000 - code.toNat) with
  | 2 => .missing
  | 13 => .denied
  | 20 => .notDirectory
  | 21 => .isDirectory
  | 22 => .invalidPath
  | 36 => .nameTooLong
  | 40 => .tooManyLinks
  | _ => .broken

def reason : IO.Error → Reason
  | .noFileOrDirectory _ code _ => reasonOf code
  | .permissionDenied _ code _ => reasonOf code
  | .inappropriateType _ code _ => reasonOf code
  | .invalidArgument _ code _ => reasonOf code
  | .resourceExhausted _ code _ => reasonOf code
  | .otherError code _ => reasonOf code
  | _ => .broken

def writeError (e : IO.Error) : String :=
  let detail := match e with
    | .resourceExhausted _ _ d => d
    | .resourceVanished _ d => d
    | .hardwareFault _ d => d
    | .otherError _ d => d
    | e => e.toString
  "write /dev/stdout: " ++ detail

def attempt {α : Type} (action : IO α) : IO (Except Reason α) := do
  match ← action.toBaseIO with
  | .ok a => return .ok a
  | .error e => return .error (reason e)

def kindOf (path : String) : IO (Except Reason Kind) :=
  if path.isEmpty then return .error .missing
  else attempt do
    let data ← (IO.FS.DirEntry.mk path "").root.metadata
    return if data.type == .dir then .directory else .regular

def isOccupied (path : String) : IO Bool := do
  if path.isEmpty then return false
  return (← attempt (IO.FS.DirEntry.mk path "").root.symlinkMetadata).isOk

def entryOf (e : IO.FS.DirEntry) : IO Entry := do
  let data ← e.path.symlinkMetadata
  let kind := match data.type with
    | .dir => EntryKind.directory
    | .symlink => .link
    | _ => .regular
  return ⟨e.fileName, kind⟩

def entriesOf (path : String) : IO (Except (Request × Reason) (List Entry)) := do
  let listed ← attempt do
    let entries ← (IO.FS.DirEntry.mk path "").root.readDir
    entries.toList.mapM entryOf
  return (listed.map fun es ↦ es.mergeSort fun a b ↦ a.name ≤ b.name).mapError fun r ↦ (.opening, r)

partial def record (s : Snapshot) (level : Nat) (path : String) : IO Snapshot := do
  match ← kindOf path with
  | .error r => return s.add path ⟨.error r, .error (.opening, r), .error (.opening, r)⟩
  | .ok .regular =>
    let content ← attempt (IO.FS.readBinFile path)
    return s.add path { inspect := .ok .regular, read := content.mapError fun r ↦ (.opening, r) }
  | .ok .directory =>
    let entries ← entriesOf path
    let mut s := (s.add path { inspect := .ok .directory, list := entries }).deepen (level + 1)
    for e in entries.toOption.getD [] do
      let below := Path.join path e.name
      match e.kind with
      | .directory => if !Selection.isExcludedDir e.name then s ← record s (level + 1) below
      | .regular => if Selection.isTarget e.name then s ← record s level below
      | .link =>
        match ← kindOf below with
        | .ok .directory => s := s.add below { inspect := .ok .directory }
        | _ => if Selection.isTarget e.name then s ← record s level below
    return s

def snapshot (build : Command.Build) (args : List String) : IO Snapshot := do
  let paths := match Command.readArgs (Command.rootGrammar build) {} [] args with
    | .ok (_, paths) => paths
    | .error _ => []
  let known ← (if paths.isEmpty then Target.roots else []).foldlM (record · 0 ·) {}
  let targets := (Target.all known.disk paths).filter fun t ↦ !known.records.contains t
  let s ← targets.foldlM (record · 0 ·) known
  return { s with occupied := ← paths.filterM isOccupied }

/-- Whether the report is set in colours: only on a terminal, and only if the user does not object. -/
def wantsColour (stdout : IO.FS.Stream) : IO Bool := do
  let refused := (← IO.getEnv "NO_COLOR").getD "" != "" || (← IO.getEnv "TERM") == some "dumb"
  let enabled := !refused && (← stdout.isTty)
  return Page.painted enabled (!enabled)

end FrontendAudit.Recorder

open FrontendAudit in
def main (args : List String) : IO UInt32 := do
  let build : Command.Build := {}
  let stdout ← IO.getStdout
  let stderr ← IO.getStderr
  let host : Audit.Host :=
    { disk := (← Recorder.snapshot build args).disk, colour := ← Recorder.wantsColour stdout }
  let t := Program.run host build args
  try
    stdout.putStr t.stdout
    stdout.flush
    stderr.putStr t.stderr
    return t.status.toUInt32
  catch e =>
    let t := Program.run { host with writeError? := some { reason := Recorder.writeError e } } build args
    stderr.putStr t.stderr
    return t.status.toUInt32
