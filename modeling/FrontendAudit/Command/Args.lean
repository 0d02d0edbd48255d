import FrontendAudit.Text.Basic
import FrontendAudit.Text.Quoted

namespace FrontendAudit.Command

inductive Flag
  | help
  | version
  | json
  | logLevel
  deriving DecidableEq, Repr

/-- What the flags of a command line say. -/
structure Settings where
  help : Bool := false
  version : Bool := false
  json : Bool := false
  logLevel : String := ""
  deriving DecidableEq, Repr

def Settings.switch (s : Settings) (f : Flag) (on : Bool) : Settings :=
  match f with
  | .help => { s with help := on }
  | .version => { s with version := on }
  | .json => { s with json := on }
  | .logLevel => s

/-- What a command understands: the names of its subcommands and of its flags. -/
structure Grammar where
  subcommands : List String
  flag? : String → Option Flag

inductive UsageError
  | missingValue (arg : String)
  | notBoolean (value flag : String)
  | unknownFlag (name : String)
  deriving DecidableEq, Repr

def UsageError.message : UsageError → String
  | missingValue arg => "flag needs an argument: " ++ arg
  | notBoolean value flag => "invalid value " ++ Text.quoted value ++ " for flag -" ++ flag ++ ": parse error"
  | unknownFlag name => "flag provided but not defined: -" ++ name

def boolean? (s : String) : Option Bool :=
  if s ∈ ["1", "t", "T", "TRUE", "true", "True"] then some true
  else if s ∈ ["0", "f", "F", "FALSE", "false", "False"] then some false
  else none

/-- What an argument is, once the white space around it is gone. -/
inductive Argument
  | blank
  | terminator
  | subcommand
  | operand
  | dash
  | notFlag
  | flag (name value : String)
  deriving DecidableEq, Repr

namespace Argument

def flagOf (cs : List Char) : Argument :=
  flag (String.ofList (cs.takeWhile (· ≠ '='))) (String.ofList ((cs.dropWhile (· ≠ '=')).drop 1))

/-- One dash makes a flag only if the byte behind it is a letter's when it is taken for a code point. -/
def ofChars (g : Grammar) : List Char → Argument
  | [] => blank
  | ['-'] => dash
  | ['-', '-'] => terminator
  | '-' :: '-' :: cs => flagOf cs
  | '-' :: c :: cs => if Text.isLatinLetter (Text.leadByte c) then flagOf (c :: cs) else notFlag
  | cs => if String.ofList cs ∈ g.subcommands then subcommand else operand

end Argument

def readArgs (g : Grammar) (s : Settings) (before : List String) :
    List String → Except UsageError (Settings × List String)
  | [] => .ok (s, before)
  | arg :: rest =>
    let a := Text.trim arg.toList
    match Argument.ofChars g a with
    | .blank => .ok (s, before)
    | .terminator => .ok (s, before ++ rest)
    | .subcommand => .ok (s, before ++ arg :: rest)
    | .operand => readArgs g s (before ++ [String.ofList a]) rest
    | .dash => .ok (s, before ++ ["-"])
    | .notFlag => .ok (s, before ++ arg :: rest)
    | .flag name value =>
      match g.flag? name with
      | none => .error (.unknownFlag name)
      | some .logLevel =>
        if value = "" then
          match rest with
          | [] => .error (.missingValue (String.ofList a))
          | next :: rest => readArgs g { s with logLevel := next } before rest
        else readArgs g { s with logLevel := value } before rest
      | some f =>
        if value = "" then readArgs g (s.switch f true) before rest
        else
          match boolean? value with
          | some on => readArgs g (s.switch f on) before rest
          | none => .error (.notBoolean value name)

end FrontendAudit.Command
