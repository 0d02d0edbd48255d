import FrontendAudit.Command.Run

namespace FrontendAudit.Command

inductive Change
  | logLevel (name : String)
  | switch (f : Flag) (on : Bool)
  deriving DecidableEq, Repr

def Change.apply (s : Settings) : Change → Settings
  | logLevel name => { s with logLevel := name }
  | switch f on => s.switch f on

/-- What an argument does to the reading, and what is left to read if it goes on. -/
inductive Reading
  | fail (e : UsageError)
  | stop (more : List String)
  | operand (a : String)
  | set (c : Change) (rest : List String)
  deriving DecidableEq, Repr

def flagReading (g : Grammar) (a name value : String) (rest : List String) : Reading :=
  match g.flag? name with
  | none => .fail (.unknownFlag name)
  | some .logLevel =>
    if value = "" then
      match rest with
      | [] => .fail (.missingValue a)
      | next :: rest => .set (.logLevel next) rest
    else .set (.logLevel value) rest
  | some f =>
    if value = "" then .set (.switch f true) rest
    else
      match boolean? value with
      | some on => .set (.switch f on) rest
      | none => .fail (.notBoolean value name)

def reading (g : Grammar) (arg : String) (rest : List String) : Reading :=
  let a := Text.trim arg.toList
  match Argument.ofChars g a with
  | .blank => .stop []
  | .terminator => .stop rest
  | .subcommand => .stop (arg :: rest)
  | .operand => .operand (String.ofList a)
  | .dash => .stop ["-"]
  | .notFlag => .stop (arg :: rest)
  | .flag name value => flagReading g (String.ofList a) name value rest

theorem readArgs_cons (g : Grammar) (s : Settings) (before : List String) (arg : String) (rest : List String) :
    readArgs g s before (arg :: rest) =
      match reading g arg rest with
      | .fail e => .error e
      | .stop more => .ok (s, before ++ more)
      | .operand a => readArgs g s (before ++ [a]) rest
      | .set c rest => readArgs g (c.apply s) before rest := by
  conv => lhs; unfold readArgs
  simp only [reading]
  cases Argument.ofChars g (Text.trim arg.toList) with
  | flag name value =>
    simp only [flagReading]
    cases g.flag? name with
    | none => rfl
    | some f =>
      by_cases hvalue : value = ""
      · cases f with
        | logLevel => cases rest <;> simp [hvalue, Change.apply]
        | _ => simp [hvalue, Change.apply]
      · cases f with
        | logLevel => simp [hvalue, Change.apply]
        | _ => cases boolean? value <;> simp [hvalue, Change.apply]
  | blank => simp
  | _ => rfl

theorem length_le_of_flagReading_set {g : Grammar} {a name value : String} {rest rest' : List String}
    {c : Change} (h : flagReading g a name value rest = .set c rest') : rest'.length ≤ rest.length := by
  revert h
  fun_cases flagReading g a name value rest
  all_goals
    intro h
    cases h
  all_goals simp

theorem length_le_of_reading_set {g : Grammar} {arg : String} {rest rest' : List String} {c : Change}
    (h : reading g arg rest = .set c rest') : rest'.length ≤ rest.length := by
  rw [reading] at h
  cases hof : Argument.ofChars g (Text.trim arg.toList) with
  | flag name value =>
    simp only [hof] at h
    exact length_le_of_flagReading_set h
  | _ =>
    simp only [hof] at h
    cases h

def Settings.switches (s : Settings) : Bool × Bool × Bool :=
  (s.help, s.version, s.json)

theorem Change.switches_apply {s s' : Settings} (h : s.switches = s'.switches) (c : Change) :
    (c.apply s).switches = (c.apply s').switches := by
  simp only [Settings.switches, Prod.mk.injEq] at h
  cases c with
  | logLevel name => simp [apply, Settings.switches, h]
  | switch f on => cases f <;> simp [apply, Settings.switch, Settings.switches, h]

theorem readArgs_switches (g : Grammar) {s s' : Settings} (h : s.switches = s'.switches) (before : List String) :
    ∀ args : List String, (readArgs g s before args).map (fun r ↦ (r.1.switches, r.2)) =
      (readArgs g s' before args).map fun r ↦ (r.1.switches, r.2)
  | [] => by simp [readArgs, Except.map, h]
  | arg :: rest => by
    rw [readArgs_cons, readArgs_cons]
    match hr : reading g arg rest with
    | .fail e => rfl
    | .stop more => simp [Except.map, h]
    | .operand a => exact readArgs_switches g h _ rest
    | .set c rest' =>
      have hle : rest'.length ≤ rest.length := length_le_of_reading_set hr
      exact readArgs_switches g (c.switches_apply h) before rest'
termination_by args => args.length
decreasing_by all_goals simp only [List.length_cons]; omega

theorem readArgs_logLevel (build : Build) (s : Settings) (before : List String) (name : String)
    (args : List String) :
    readArgs (rootGrammar build) s before ("--log-level" :: name :: args) =
      readArgs (rootGrammar build) { s with logLevel := name } before args := by
  have hreading : reading (rootGrammar build) "--log-level" (name :: args) = .set (.logLevel name) args := rfl
  rw [readArgs_cons, hreading]
  rfl

end FrontendAudit.Command
