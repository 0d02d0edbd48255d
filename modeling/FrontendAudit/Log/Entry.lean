import FrontendAudit.Keyed
import FrontendAudit.Text.Basic
import FrontendAudit.Text.Quoted

namespace FrontendAudit.Log

inductive Level
  | panic
  | fatal
  | error
  | warning
  | info
  | debug
  | trace
  deriving DecidableEq, Repr

namespace Level

def rank : Level → Nat
  | panic => 0
  | fatal => 1
  | error => 2
  | warning => 3
  | info => 4
  | debug => 5
  | trace => 6

def admits (threshold entry : Level) : Bool :=
  entry.rank ≤ threshold.rank

def name : Level → String
  | panic => "panic"
  | fatal => "fatal"
  | error => "error"
  | warning => "warning"
  | info => "info"
  | debug => "debug"
  | trace => "trace"

def ofName? (s : String) : Option Level :=
  match String.ofList (s.toList.map Text.lower) with
  | "panic" => some panic
  | "fatal" => some fatal
  | "error" => some error
  | "warn" => some warning
  | "warning" => some warning
  | "info" => some info
  | "debug" => some debug
  | "trace" => some trace
  | _ => none

end Level

/-- An entry has a level, a message and fields in ascending order of their keys. -/
structure Entry where
  level : Level
  message : String
  fields : List (String × String) := []
  deriving DecidableEq, Repr

namespace Entry

def debug (message : String) (fields : List (String × String)) : Entry :=
  ⟨.debug, message, Keyed.ofList fields⟩

def withField (e : Entry) (key value : String) : Entry :=
  { e with fields := Keyed.put key value e.fields }

def isBare (c : Char) : Bool :=
  c.isAlphanum || c == '-' || c == '.' || c == '_' || c == '/' || c == '@' || c == '^' || c == '+'

def valueText (s : String) : String :=
  if s.toList.all isBare then s else Text.quoted s

def line (e : Entry) : String :=
  "level=" ++ e.level.name ++ " msg=" ++ valueText e.message ++
    String.join (e.fields.map fun f ↦ " " ++ f.1 ++ "=" ++ valueText f.2)

end Entry

end FrontendAudit.Log
