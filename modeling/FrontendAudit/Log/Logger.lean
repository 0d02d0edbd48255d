import FrontendAudit.Log.Entry

namespace FrontendAudit.Log

def program : String := "quality-audit"

structure Logger where
  level : Level := .info
  version : String := ""
  deriving Repr

namespace Logger

def fields (l : Logger) : List (String × String) :=
  Keyed.ofList [("program", program), ("version", l.version)]

def stamp (l : Logger) (e : Entry) : Entry :=
  l.fields.foldl (fun e f ↦ e.withField f.1 f.2) e

/-- The entries that the logger's level admits, with the fields that every entry has. -/
def emit (l : Logger) (entries : List Entry) : List Entry :=
  (entries.filter fun e ↦ l.level.admits e.level).map l.stamp

def invalidLevel (name : String) : Entry :=
  ⟨.error, "the log level is invalid",
    Keyed.ofList [("error", "not a valid logrus Level: " ++ Text.quoted name), ("log_level", name)]⟩

/-- Changes the level to the one named. The empty name changes nothing; with any other name that is no
level's the level stays, and an error entry says so. -/
def setLevel (l : Logger) (name : String) : Logger × List Entry :=
  if name = "" then (l, [])
  else
    match Level.ofName? name with
    | some level => ({ l with level }, [])
    | none => (l, l.emit [invalidLevel name])

end Logger

inductive Request
  | changeLevel (name : String)
  | log (e : Entry)
  deriving Repr

namespace Logger

def answer (l : Logger) : Request → Logger × List Entry
  | .changeLevel name => l.setLevel name
  | .log e => (l, l.emit [e])

def answers (l : Logger) : List Request → List (Logger × List Entry)
  | [] => []
  | q :: rest => l.answer q :: (l.answer q).1.answers rest

end Logger

end FrontendAudit.Log
