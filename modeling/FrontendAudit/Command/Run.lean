import FrontendAudit.Audit
import FrontendAudit.Command.Args
import FrontendAudit.Command.Help
import FrontendAudit.Log.Logger
import FrontendAudit.Text.Quoted

namespace FrontendAudit.Command

/-- What the framework of the command line answers by itself: a call for help about arguments, and a call of
a subcommand that every program built with it has. -/
inductive Builtin
  | help (args : List String)
  | subcommand (args : List String)
  deriving DecidableEq, Repr

/-- What the program was built from. Of the framework's own answers nothing is assumed here: they are whatever
text and error `builtin` gives, and a program built without them says nothing. -/
structure Build where
  version : String := ""
  commit : String := ""
  builtin : Builtin → String × Option String := fun _ ↦ ("", none)

inductive Failure
  | audit (f : Audit.Failure)
  | usage (e : UsageError)
  | unencoded (reason : String)
  | builtin (reason : String)
  deriving DecidableEq, Repr

def Failure.message : Failure → String
  | audit f => f.message
  | usage e => e.message
  | unencoded reason => "encode JSON: " ++ reason
  | builtin reason => reason

/-- What a command line leads to. The entries are those that the logger emitted. -/
structure Outcome where
  output : String := ""
  error? : Option Failure := none
  logger : Log.Logger
  entries : List Log.Entry := []

def Build.versionFlag? (build : Build) : Option Flag :=
  if build.version = "" then none else some .version

def rootGrammar (build : Build) : Grammar where
  subcommands := ["version", "help-all", "completion"]
  flag?
    | "log-level" => some .logLevel
    | "help" => some .help
    | "h" => some .help
    | "version" => build.versionFlag?
    | "v" => build.versionFlag?
    | _ => none

def versionGrammar (build : Build) : Grammar where
  subcommands := ["help", "h"]
  flag?
    | "json" => some .json
    | "j" => some .json
    | name => (rootGrammar build).flag? name

def printed (host : Audit.Host) (text : String) : String :=
  (host.write text).1

def versionText (build : Build) : String :=
  (if build.version = "" then "unknown" else build.version) ++ "\n"

def versionJson (build : Build) : String :=
  unlines
    ["\x7b",
     "  \"name\": " ++ Text.jsonString Log.program ++ ",",
     "  \"sha\": " ++ Text.jsonString build.commit ++ ",",
     "  \"version\": " ++ Text.jsonString build.version,
     "\x7d"]

def runBuiltin (host : Audit.Host) (build : Build) (b : Builtin) : String × Option Failure :=
  let answer := build.builtin b
  (printed host answer.1, answer.2.map .builtin)

/-- The version command. Positional arguments that call for no help, a log level and a flag for the version
have no meaning. -/
def runVersion (host : Audit.Host) (build : Build) (args : List String) : String × Option Failure :=
  match readArgs (versionGrammar build) {} [] args with
  | .error e => ("", some (.usage e))
  | .ok (s, rest) =>
    if s.help then
      if rest.isEmpty then (printed host versionHelp, none) else runBuiltin host build (.help ("version" :: rest))
    else if rest.head?.any ((versionGrammar build).subcommands.contains ·) then
      runBuiltin host build (.subcommand ("version" :: rest))
    else if s.json then
      let written := host.write (versionJson build)
      (written.1, written.2.map .unencoded)
    else (printed host (versionText build), none)

def runAudit (host : Audit.Host) (logger : Log.Logger) (logLevel : String) (paths : List String) : Outcome :=
  let set := logger.setLevel logLevel
  let r := Audit.run host paths
  { output := r.output
    error? := r.error?.map .audit
    logger := set.1
    entries := set.2 ++ set.1.emit r.entries }

/-- The subcommand that the positional arguments call for: a first argument that names a path is no
subcommand. -/
def subcommand? (host : Audit.Host) (build : Build) : List String → Option (String × List String)
  | [] => none
  | name :: args =>
    if name ∈ (rootGrammar build).subcommands ∧ host.disk.occupied name = false then some (name, args)
    else none

def runHelp (host : Audit.Host) (build : Build) (paths : List String) : String × Option Failure :=
  if paths.isEmpty then (printed host (rootHelp build.version), none) else runBuiltin host build (.help paths)

def runSubcommand (host : Audit.Host) (build : Build) (name : String) (args : List String) :
    String × Option Failure :=
  if name = "version" then runVersion host build args else runBuiltin host build (.subcommand (name :: args))

/-- Runs a command line. Only an audit applies the log level that was asked for. -/
def run (host : Audit.Host) (build : Build) (logger : Log.Logger) (args : List String) : Outcome :=
  let unlogged (r : String × Option Failure) : Outcome := { output := r.1, error? := r.2, logger }
  match readArgs (rootGrammar build) {} [] args with
  | .error e => unlogged (printed host (rootHelp build.version), some (.usage e))
  | .ok (s, paths) =>
    if s.help then unlogged (runHelp host build paths)
    else if s.version then
      unlogged (printed host (Log.program ++ " version " ++ build.version ++ "\n"), none)
    else
      match subcommand? host build paths with
      | some (name, rest) => unlogged (runSubcommand host build name rest)
      | none => runAudit host logger s.logLevel paths

end FrontendAudit.Command
