import FrontendAudit.Text.Quoted

namespace FrontendAudit.Spacing

inductive ValueError
  | malformed
  | tooLarge
  deriving DecidableEq, Repr

namespace Value

/-- The least number that has no tenfold in 64 bits. -/
def cutoff : UInt64 := 1844674407370955162

def digit (c : Char) : UInt64 :=
  (c.val - '0'.val).toUInt64

def readFrom (n : UInt64) : List Char → Except ValueError UInt64
  | [] => .ok n
  | c :: cs =>
    if !c.isDigit then .error .malformed
    else if cutoff ≤ n then .error .tooLarge
    else if n * 10 + digit c < n * 10 then .error .tooLarge
    else readFrom (n * 10 + digit c) cs

/-- The value of a text that consists of digits, at least one. -/
def read (text : List Char) : Except ValueError UInt64 :=
  if text.isEmpty then .error .malformed else readFrom 0 text

end Value

namespace ValueError

def reason : ValueError → String
  | malformed => "invalid syntax"
  | tooLarge => "value out of range"

def message (e : ValueError) (text : List Char) : String :=
  "parse a value as an unsigned integer: strconv.ParseUint: parsing " ++
    Text.quoted (String.ofList text) ++ ": " ++ e.reason

end ValueError

def scale : List UInt64 :=
  (List.range 101).map fun k ↦ UInt64.ofNat (4 * k)

def onScale (v : UInt64) : Bool :=
  scale.contains v

end FrontendAudit.Spacing
