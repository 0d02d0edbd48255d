import FrontendAudit.Reports

namespace FrontendAudit.Page

inductive Style
  | bold
  | cyan
  | green
  deriving DecidableEq, Repr

namespace Style

def start : Style → String
  | bold => "\x1b[1m"
  | cyan => "\x1b[36m"
  | green => "\x1b[32m"

def reset : Style → String
  | bold => "\x1b[22m"
  | cyan => "\x1b[0m"
  | green => "\x1b[0m"

end Style

def paint (colour : Bool) (style : Style) (text : String) : String :=
  if colour then style.start ++ text ++ style.reset else text

/-- Whether a page is painted: the process has its colours on, and the page is not asked to do without. -/
def painted (enabled plain : Bool) : Bool :=
  enabled && !plain

/-- A section is left out once more than this many are listed. -/
def listedLimit : Nat := 50

def fileSection (colour : Bool) (path : String) (findings : List Finding) : String :=
  paint colour .cyan "FILE:" ++ " " ++ path ++ "\n" ++
    String.join (findings.map fun f ↦ "  - " ++ f.text ++ "\n") ++ "\n"

def sections (colour : Bool) (listed : Nat) : List (String × List Finding) → String
  | [] => ""
  | (path, findings) :: rest =>
    if listedLimit < listed then "... (and more files)\n"
    else fileSection colour path findings ++ sections colour (listed + 1) rest

def render (colour : Bool) (reports : Reports) : String :=
  if reports.size = 0 then
    "\n" ++ paint colour .green "✅ All quality gates passed! (Design + Performance)" ++ "\n"
  else
    "\n" ++ paint colour .bold "=== PREMIUM QUALITY AUDIT REPORT ===" ++ "\n\n" ++
      sections colour 0 reports.entries ++
      paint colour .bold ("Total files with quality issues: " ++ toString reports.size) ++ "\n"

end FrontendAudit.Page
