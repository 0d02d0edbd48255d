namespace FrontendAudit.Text

def isWord (c : Char) : Bool :=
  c.isAlphanum || c == '_'

/-- The blanks that may stand between a colon and its value. -/
def isBlank (c : Char) : Bool :=
  c == ' ' || c == '\t' || c == '\n' || c == '\x0c' || c == '\r'

/-- The characters with the Unicode property White_Space. -/
def isSpace (c : Char) : Bool :=
  let n := c.toNat
  (0x09 ≤ n && n ≤ 0x0d) || n == 0x20 || n == 0x85 || n == 0xa0 || n == 0x1680 ||
    (0x2000 ≤ n && n ≤ 0x200a) || n == 0x2028 || n == 0x2029 || n == 0x202f || n == 0x205f || n == 0x3000

def trim (cs : List Char) : List Char :=
  ((cs.dropWhile isSpace).reverse.dropWhile isSpace).reverse

/-- The lower case of a character, for comparison with ASCII words. Outside of ASCII only the dotted
capital I and the Kelvin sign have a lower case within it. Any other character there is left as it is:
neither it nor its lower case is a letter of such a word. -/
def lower (c : Char) : Char :=
  if c = 'İ' then 'i' else if c = 'K' then 'k' else c.toLower

def isLatinLetter (n : Nat) : Bool :=
  (0x41 ≤ n && n ≤ 0x5a) || (0x61 ≤ n && n ≤ 0x7a) || n == 0xaa || n == 0xb5 || n == 0xba ||
    (0xc0 ≤ n && n ≤ 0xff && n != 0xd7 && n != 0xf7)

def leadByte (c : Char) : Nat :=
  let n := c.toNat
  if n < 0x80 then n
  else if n < 0x800 then 0xc0 + n / 0x40
  else if n < 0x10000 then 0xe0 + n / 0x1000
  else 0xf0 + n / 0x40000

section Search

variable {α : Type}

structure Match (α : Type) where
  value : α
  length : Nat
  deriving Repr

def occursIn (word : List Char) : List Char → Bool
  | [] => word.isEmpty
  | c :: cs => word.isPrefixOf (c :: cs) || occursIn word cs

def first? (recognise : List Char → Option α) : List Char → Option α
  | [] => none
  | c :: cs =>
    match recognise (c :: cs) with
    | some a => some a
    | none => first? recognise cs

/-- Goes on with a scan that has `found` pieces (last first) and is to leave out `skip` characters. -/
def scanFrom (recognise : List Char → Option (Match α)) (found : List α) (skip : Nat) :
    List Char → List α
  | [] => found.reverse
  | c :: cs =>
    match skip with
    | n + 1 => scanFrom recognise found n cs
    | 0 =>
      match recognise (c :: cs) with
      | some m => scanFrom recognise (m.value :: found) (m.length - 1) cs
      | none => scanFrom recognise found 0 cs

def scan (recognise : List Char → Option (Match α)) (cs : List Char) : List α :=
  scanFrom recognise [] 0 cs

end Search

end FrontendAudit.Text
