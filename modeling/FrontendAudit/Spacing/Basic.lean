import FrontendAudit.Spacing.Value
import FrontendAudit.Text.Basic

namespace FrontendAudit

namespace Spacing

inductive Property
  | padding
  | margin
  | gap
  | top
  | left
  | right
  | bottom
  deriving DecidableEq, Repr

namespace Property

def all : List Property :=
  [padding, margin, gap, top, left, right, bottom]

def word : Property → List Char
  | padding => ['p', 'a', 'd', 'd', 'i', 'n', 'g']
  | margin => ['m', 'a', 'r', 'g', 'i', 'n']
  | gap => ['g', 'a', 'p']
  | top => ['t', 'o', 'p']
  | left => ['l', 'e', 'f', 't']
  | right => ['r', 'i', 'g', 'h', 't']
  | bottom => ['b', 'o', 't', 't', 'o', 'm']

def name (p : Property) : String :=
  String.ofList p.word

/-- The property whose name the text starts with. The names start with different letters, so there is at
most one. -/
def startOf? (cs : List Char) : Option Property :=
  all.find? fun p ↦ p.word.isPrefixOf cs

end Property

end Spacing

inductive Spacing
  | arbitrary (digits : List Char)
  | declared (property : Spacing.Property) (digits : List Char)
  deriving DecidableEq, Repr

namespace Spacing

open Text

def digits : Spacing → List Char
  | arbitrary ds => ds
  | declared _ ds => ds

/-- An arbitrary value at the start of the text: a bracket, digits, the unit, and the closing bracket. -/
def arbitrary? : List Char → Option (Match Spacing)
  | '[' :: cs =>
    let ds := cs.takeWhile Char.isDigit
    match cs.dropWhile Char.isDigit with
    | 'p' :: 'x' :: ']' :: _ => if ds.isEmpty then none else some ⟨arbitrary ds, ds.length + 4⟩
    | _ => none
  | _ => none

def suffix : List Char → List Char
  | '-' :: cs =>
    let ws := cs.takeWhile isWord
    if ws.isEmpty then [] else '-' :: ws
  | _ => []

/-- The digits of a pixel value at the start of the text, blanks in front of them allowed, and the number
of characters up to the end of the unit. -/
def pixels? (cs : List Char) : Option (Match (List Char)) :=
  let blanks := cs.takeWhile isBlank
  let rest := cs.dropWhile isBlank
  let ds := rest.takeWhile Char.isDigit
  match rest.dropWhile Char.isDigit with
  | 'p' :: 'x' :: _ => if ds.isEmpty then none else some ⟨ds, blanks.length + ds.length + 2⟩
  | _ => none

/-- A declaration at the start of the text: a property, perhaps a suffix, a colon and a pixel value. -/
def declared? (cs : List Char) : Option (Match Spacing) := do
  let p ← Property.startOf? cs
  let rest := cs.drop p.word.length
  let tail := suffix rest
  match rest.drop tail.length with
  | ':' :: value =>
    let px ← pixels? value
    some ⟨declared p px.value, p.word.length + tail.length + 1 + px.length⟩
  | _ => none

def ofLine (line : List Char) : List Spacing :=
  scan arbitrary? line ++ scan declared? line

def offScale (s : Spacing) : Bool :=
  match Value.read s.digits with
  | .ok v => !onScale v
  | .error _ => false

def error? (s : Spacing) : Option ValueError :=
  match Value.read s.digits with
  | .ok _ => none
  | .error e => some e

end Spacing

end FrontendAudit
