namespace FrontendAudit.Text

/-- The pieces between the separators. -/
def pieces (separates : Char → Bool) : List Char → List (List Char)
  | [] => [[]]
  | c :: cs =>
    match separates c, pieces separates cs with
    | true, ps => [] :: ps
    | false, p :: ps => (c :: p) :: ps
    | false, [] => [[c]]

def linesFrom (done : List (List Char)) (current : List Char) : List Char → List (List Char)
  | [] => (if current.isEmpty then done else current.reverse :: done).reverse
  | '\r' :: '\n' :: cs => linesFrom (current.reverse :: done) [] cs
  | c :: cs =>
    if c = '\n' ∨ c = '\r' then linesFrom (current.reverse :: done) [] cs
    else linesFrom done (c :: current) cs

/-- The lines of a text. A line feed, a carriage return, and a carriage return with the line feed behind it
each end a line; what follows the last end is a line of its own only if it is not empty. -/
def lines (cs : List Char) : List (List Char) :=
  linesFrom [] [] cs

/-- Goes on with a replacement that has come to `done`, last character first, and is to leave out `skip`
characters of an occurrence. -/
def replaceFrom (old new done : List Char) (skip : Nat) : List Char → List Char
  | [] => done.reverse
  | c :: cs =>
    match skip with
    | n + 1 => replaceFrom old new done n cs
    | 0 =>
      if old.isPrefixOf (c :: cs) then replaceFrom old new (new.reverse ++ done) (old.length - 1) cs
      else replaceFrom old new (c :: done) 0 cs

def replaceAll (old new cs : List Char) : List Char :=
  replaceFrom old new [] 0 cs

def withFeeds (cs : List Char) : List Char :=
  replaceAll ['\r'] ['\n'] (replaceAll ['\r', '\n'] ['\n'] cs)

def size (cs : List Char) : Nat :=
  cs.foldl (fun n c ↦ n + c.utf8Size) 0

inductive SplitError
  | lineTooLong
  deriving DecidableEq, Repr

def SplitError.message : SplitError → String
  | lineTooLong => "scan a file: bufio.Scanner: token too long"

def token : List Char → List Char
  | '\r' :: cs => cs.reverse
  | cs => cs.reverse

/-- Scans on for line feeds after the lines `done` and `bytes` bytes of the current one, each last part first.
A line must be shorter than the limit. -/
def scanLines (limit : Nat) (done : List (List Char)) (current : List Char) (bytes : Nat) :
    List Char → Except SplitError (List (List Char))
  | [] => .ok (if current.isEmpty then done else token current :: done).reverse
  | c :: cs =>
    if c = '\n' then scanLines limit (token current :: done) [] 0 cs
    else if limit ≤ bytes + c.utf8Size then .error .lineTooLong
    else scanLines limit done (c :: current) (bytes + c.utf8Size) cs

def bufferSize : Nat := 65536

/-- Splits a text into lines: first every break is made a line feed, then the text is scanned with room for
more than all of it. -/
def splitLines (text : List Char) : Except SplitError (List (List Char)) :=
  scanLines (max bufferSize (size (withFeeds text) + 1)) [] [] 0 (withFeeds text)

end FrontendAudit.Text
