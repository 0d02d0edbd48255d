import FrontendAudit.Text.Columns

namespace FrontendAudit.Command

def unlines (ls : List String) : String :=
  String.join (ls.map (· ++ "\n"))

def laidOut (ls : List String) : String :=
  String.ofList (Text.alignColumns (ls.flatMap fun l ↦ l.toList ++ ['\n']))

def nameHelp : List String :=
  ["NAME:",
   "   quality-audit - Audit front-end source files for design and performance guideline violations",
   "",
   "USAGE:",
   "   quality-audit [global options] [command [command options]] [<file or directory> ...]",
   ""]

def descriptionHelp : List String :=
  ["DESCRIPTION:",
   "   Check front-end source files (*.tsx, *.ts, *.css) against the design and performance guidelines.",
   "",
   "   If no argument is passed, quality-audit checks src, app, and components in the current directory.",
   "   If none of them exist, it checks the current directory.",
   "",
   "   $ quality-audit",
   "",
   "   You can also pass file and directory paths as arguments.",
   "   Files passed as arguments are checked regardless of their extensions.",
   "",
   "   e.g.",
   "",
   "   $ quality-audit src/components/button.tsx styles",
   "",
   "   node_modules and .next directories are never checked.",
   "   An argument naming an existing file or directory is always checked,",
   "   even if it has the same name as a subcommand such as help or version.",
   "",
   "",
   "COMMANDS:",
   "   version\tShow version",
   "   completion\tOutput shell completion script for bash, zsh, fish, or Powershell",
   ""]

def logLevelHelp : String :=
  "   --log-level string\tlog level (trace, debug, info, warn, error)"

/-- The help of the program. Without a version it shows none and has no flag for it. -/
def rootHelp (version : String) : String :=
  laidOut (nameHelp ++
    (if version = "" then [] else ["VERSION:", "   " ++ version, ""]) ++
    descriptionHelp ++
    ["GLOBAL OPTIONS:", logLevelHelp, "   --help, -h\tshow help"] ++
    if version = "" then [] else ["   --version, -v\tprint the version"])

def versionHelp : String :=
  laidOut
    ["NAME:",
     "   quality-audit version - Show version",
     "",
     "USAGE:",
     "   quality-audit version [options]",
     "",
     "OPTIONS:",
     "   --json, -j\tOutput version in JSON format (default: false)",
     "   --help, -h\tshow help",
     "",
     "GLOBAL OPTIONS:",
     logLevelHelp]

end FrontendAudit.Command
