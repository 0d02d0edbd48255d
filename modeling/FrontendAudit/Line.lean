import FrontendAudit.Log.Entry
import FrontendAudit.Spacing.Basic

namespace FrontendAudit

namespace Padding

open Text

def utility? (axis : Char) : List Char → Option (List Char)
  | 'p' :: a :: '-' :: cs =>
    let ds := cs.takeWhile Char.isDigit
    if a = axis ∧ ds ≠ [] then some ds else none
  | _ => none

/-- The differing digits of the first horizontal and the first vertical utility. -/
def asymmetry? (line : List Char) : Option (List Char × List Char) := do
  let x ← first? (utility? 'x') line
  let y ← first? (utility? 'y') line
  if x = y then none else some (x, y)

end Padding

namespace Loop

open Text

def awaitWord : List Char := ['a', 'w', 'a', 'i', 't']

def mapCall : List Char := ['.', 'm', 'a', 'p', '(']

def forEachWord : List Char := ['f', 'o', 'r', 'e', 'a', 'c', 'h']

def hasAwaitInLoop (line : List Char) : Bool :=
  occursIn awaitWord line && (occursIn mapCall line || occursIn forEachWord (line.map lower))

end Loop

inductive Violation
  | spacing (s : Spacing)
  | asymmetricPadding (x y : List Char)
  | awaitInLoop
  deriving DecidableEq, Repr

namespace Violation

def message : Violation → String
  | spacing (.arbitrary ds) =>
    "Grid Violation - Arbitrary value [" ++ String.ofList ds ++ "px] is not a multiple of 4."
  | spacing (.declared p ds) =>
    "Grid Violation - " ++ p.name ++ " value " ++ String.ofList ds ++ "px is not a multiple of 4."
  | asymmetricPadding x y =>
    "Symmetry Violation - Asymmetric padding (px-" ++ String.ofList x ++ " vs py-" ++ String.ofList y ++ ")."
  | awaitInLoop => "Perf Warning - Possible 'await' in a synchronous-looking loop."

def ofLine (line : List Char) : List Violation :=
  ((Spacing.ofLine line).filter Spacing.offScale).map spacing ++
    ((Padding.asymmetry? line).map fun xy ↦ asymmetricPadding xy.1 xy.2).toList ++
    if Loop.hasAwaitInLoop line then [awaitInLoop] else []

end Violation

structure Finding where
  line : Int
  message : String
  deriving DecidableEq, Repr

namespace Finding

def text (f : Finding) : String :=
  if f.line = 0 then "System: " ++ f.message else "L" ++ toString f.line ++ ": " ++ f.message

end Finding

namespace Line

def findings (number : Int) (line : List Char) : List Finding :=
  (Violation.ofLine line).map fun v ↦ ⟨number, v.message⟩

def skipped (number : Int) (s : Spacing) (e : Spacing.ValueError) : Log.Entry :=
  let common :=
    [("error", e.message s.digits), ("line_number", toString number), ("value", String.ofList s.digits)]
  match s with
  | .arbitrary _ => .debug "skip an arbitrary value" common
  | .declared p _ => .debug "skip a declaration" (("property", p.name) :: common)

def entries (number : Int) (line : List Char) : List Log.Entry :=
  (Spacing.ofLine line).filterMap fun s ↦ s.error?.map (skipped number s)

end Line

end FrontendAudit
