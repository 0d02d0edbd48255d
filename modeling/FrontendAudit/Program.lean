import FrontendAudit.Command.Run

namespace FrontendAudit.Program

structure Transcript where
  stdout : String
  stderr : String
  status : Nat
  deriving DecidableEq, Repr

def logLines (entries : List Log.Entry) : String :=
  String.join (entries.map fun e ↦ e.line ++ "\n")

def usageNote : Option Command.Failure → String
  | some (.usage e) => "Incorrect Usage: " ++ e.message ++ "\n\n"
  | _ => ""

def failed (f : Command.Failure) : Log.Entry :=
  ⟨.fatal, Log.program ++ " failed", [("error", f.message)]⟩

def run (host : Audit.Host) (build : Command.Build) (args : List String) : Transcript :=
  let out := Command.run host build { version := build.version } args
  let last := out.error?.toList.map failed
  { stdout := out.output
    stderr := usageNote out.error? ++ logLines (out.entries ++ out.logger.emit last)
    status := if out.error?.isSome then 1 else 0 }

end FrontendAudit.Program
