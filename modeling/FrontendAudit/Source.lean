import FrontendAudit.Disk.Basic
import FrontendAudit.Line
import FrontendAudit.Text.Lines

namespace FrontendAudit.Source

inductive Error
  | disk (e : Disk.Error)
  | notText
  | split (e : Text.SplitError)
  deriving DecidableEq, Repr

def Error.message : Error → String
  | disk e => e.message
  | notText => "the file isn't valid UTF-8 text"
  | split e => e.message

def linesOf (content : ByteArray) : Except Error (List (List Char)) :=
  match String.fromUTF8? content with
  | some text => (Text.splitLines text.toList).mapError .split
  | none => .error .notText

def lines (disk : Disk) (path : String) : Except Error (List (List Char)) :=
  match disk.read path with
  | .ok content => linesOf content
  | .error e => .error (.disk e)

structure Check where
  findings : List Finding
  entries : List Log.Entry

def checkLines (ls : List (List Char)) : Check where
  findings := (ls.zipIdx 1).flatMap fun l ↦ Line.findings l.2 l.1
  entries := (ls.zipIdx 1).flatMap fun l ↦ Line.entries l.2 l.1

def unreadable (e : Error) : Check where
  findings := [⟨0, "Could not read file: " ++ e.message⟩]
  entries := [.debug "read a file" [("error", e.message)]]

def check (disk : Disk) (path : String) : Check :=
  match lines disk path with
  | .ok ls => checkLines ls
  | .error e => unreadable e

end FrontendAudit.Source
