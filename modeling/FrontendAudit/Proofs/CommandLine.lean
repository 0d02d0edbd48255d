import FrontendAudit.Proofs.Operands
import FrontendAudit.Proofs.Spacing

namespace FrontendAudit.Command

inductive NameValue : List Char → String → String → Prop
  | bare {name : String} (whole : '=' ∉ name.toList) : NameValue name.toList name ""
  | valued {name value : String} (whole : '=' ∉ name.toList) :
      NameValue (name.toList ++ '=' :: value.toList) name value

inductive WritesFlag : List Char → String → String → Prop
  | long {c : Char} {cs : List Char} {name value : String} (text : NameValue (c :: cs) name value) :
      WritesFlag ('-' :: '-' :: c :: cs) name value
  | short {c : Char} {cs : List Char} {name value : String}
      (letter : Text.isLatinLetter (Text.leadByte c) = true) (text : NameValue (c :: cs) name value) :
      WritesFlag ('-' :: c :: cs) name value

/-- What an argument says, by how it is written once the white space around it is gone. -/
inductive Reads (g : Grammar) (arg : String) (rest : List String) : Reading → Prop
  | blank (text : Text.trim arg.toList = []) : Reads g arg rest (.stop [])
  | terminator (text : Text.trim arg.toList = ['-', '-']) : Reads g arg rest (.stop rest)
  | dash (text : Text.trim arg.toList = ['-']) : Reads g arg rest (.stop ["-"])
  | noLetter {c : Char} {cs : List Char} (text : Text.trim arg.toList = '-' :: c :: cs) (second : c ≠ '-')
      (letter : Text.isLatinLetter (Text.leadByte c) = false) : Reads g arg rest (.stop (arg :: rest))
  | subcommand {c : Char} {cs : List Char} (text : Text.trim arg.toList = c :: cs) (first : c ≠ '-')
      (known : String.ofList (c :: cs) ∈ g.subcommands) : Reads g arg rest (.stop (arg :: rest))
  | operand {c : Char} {cs : List Char} (text : Text.trim arg.toList = c :: cs) (first : c ≠ '-')
      (unknown : String.ofList (c :: cs) ∉ g.subcommands) : Reads g arg rest (.operand (String.ofList (c :: cs)))
  | unknown {name value : String} (text : WritesFlag (Text.trim arg.toList) name value)
      (flag : g.flag? name = none) : Reads g arg rest (.fail (.unknownFlag name))
  | level {name value : String} (text : WritesFlag (Text.trim arg.toList) name value)
      (flag : g.flag? name = some .logLevel) (given : value ≠ "") : Reads g arg rest (.set (.logLevel value) rest)
  | levelBehind {name next : String} {rest' : List String} (text : WritesFlag (Text.trim arg.toList) name "")
      (flag : g.flag? name = some .logLevel) (behind : rest = next :: rest') :
      Reads g arg rest (.set (.logLevel next) rest')
  | levelMissing {name : String} (text : WritesFlag (Text.trim arg.toList) name "")
      (flag : g.flag? name = some .logLevel) (behind : rest = []) :
      Reads g arg rest (.fail (.missingValue (String.ofList (Text.trim arg.toList))))
  | switchOn {name : String} {f : Flag} (text : WritesFlag (Text.trim arg.toList) name "")
      (flag : g.flag? name = some f) (switch : f ≠ .logLevel) : Reads g arg rest (.set (.switch f true) rest)
  | switch {name value : String} {f : Flag} {on : Bool} (text : WritesFlag (Text.trim arg.toList) name value)
      (flag : g.flag? name = some f) (switch : f ≠ .logLevel) (given : value ≠ "") (boolean : boolean? value = some on) :
      Reads g arg rest (.set (.switch f on) rest)
  | notBoolean {name value : String} {f : Flag} (text : WritesFlag (Text.trim arg.toList) name value)
      (flag : g.flag? name = some f) (switch : f ≠ .logLevel) (given : value ≠ "") (boolean : boolean? value = none) :
      Reads g arg rest (.fail (.notBoolean value name))

/-- What a command line says: the changes of settings in their order, and the positional arguments or the error that
the reading ends with. -/
inductive Parsed (g : Grammar) : List String → List Change → Except UsageError (List String) → Prop
  | done : Parsed g [] [] (.ok [])
  | fail {arg : String} {rest : List String} {e : UsageError} (reads : Reads g arg rest (.fail e)) :
      Parsed g (arg :: rest) [] (.error e)
  | stop {arg : String} {rest more : List String} (reads : Reads g arg rest (.stop more)) :
      Parsed g (arg :: rest) [] (.ok more)
  | operand {arg a : String} {rest : List String} {cs : List Change} {r : Except UsageError (List String)}
      (reads : Reads g arg rest (.operand a)) (behind : Parsed g rest cs r) :
      Parsed g (arg :: rest) cs (r.map fun more ↦ a :: more)
  | set {arg : String} {rest rest' : List String} {c : Change} {cs : List Change}
      {r : Except UsageError (List String)} (reads : Reads g arg rest (.set c rest')) (behind : Parsed g rest' cs r) :
      Parsed g (arg :: rest) (c :: cs) r

section Arguments

variable {g : Grammar} {arg : String} {rest : List String} {cs : List Char} {name value : String}

theorem span_name (whole : '=' ∉ name.toList) {more : List Char} (hmore : ∀ c, more.head? = some c → c = '=') :
    (name.toList ++ more).takeWhile (· ≠ '=') = name.toList ∧ (name.toList ++ more).dropWhile (· ≠ '=') = more :=
  Spacing.span_stop (fun _ hc ↦ decide_eq_true fun heq ↦ whole (heq ▸ hc)) fun c hc ↦ by simp [hmore c hc]

theorem flagOf_of_nameValue (h : NameValue cs name value) : Argument.flagOf cs = .flag name value := by
  cases h with
  | bare whole =>
    have hspan := @span_name name whole [] (by simp)
    rw [List.append_nil] at hspan
    rw [Argument.flagOf, hspan.1, hspan.2, String.ofList_toList]
    rfl
  | valued whole =>
    have hspan := @span_name name whole ('=' :: value.toList) (by simp)
    rw [Argument.flagOf, hspan.1, hspan.2, String.ofList_toList, List.drop_one, List.tail_cons,
      String.ofList_toList]

theorem exists_nameValue (cs : List Char) : ∃ name value, NameValue cs name value := by
  have hcs := List.takeWhile_append_dropWhile (p := fun c : Char ↦ decide (c ≠ '=')) (l := cs)
  have hwhole : '=' ∉ (String.ofList (cs.takeWhile (· ≠ '='))).toList := by
    rw [String.toList_ofList]
    intro hmem
    exact absurd (List.all_eq_true.1 List.all_takeWhile _ hmem) (by decide)
  have hstop := List.head?_dropWhile_not (fun c : Char ↦ decide (c ≠ '=')) cs
  cases hrest : cs.dropWhile (· ≠ '=') with
  | nil =>
    have hbare := NameValue.bare hwhole
    rw [String.toList_ofList, ← List.append_nil (List.takeWhile _ _), ← hrest, hcs] at hbare
    exact ⟨_, _, hbare⟩
  | cons c more =>
    rw [hrest] at hstop
    obtain rfl : c = '=' := by simpa using hstop
    have hvalued := @NameValue.valued _ (String.ofList more) hwhole
    rw [String.toList_ofList, String.toList_ofList, ← hrest, hcs] at hvalued
    exact ⟨_, _, hvalued⟩

theorem ofChars_one_dash {c : Char} (hc : c ≠ '-') (cs : List Char) :
    Argument.ofChars g ('-' :: c :: cs) =
      if Text.isLatinLetter (Text.leadByte c) then Argument.flagOf (c :: cs) else .notFlag := by
  rw [Argument.ofChars]
  all_goals simp [hc]

theorem ofChars_of_writesFlag (h : WritesFlag cs name value) : Argument.ofChars g cs = .flag name value := by
  cases h with
  | long text => exact flagOf_of_nameValue text
  | @short c cs _ _ letter text =>
    have hc : c ≠ '-' := by
      rintro rfl
      cases letter
    rw [ofChars_one_dash hc, if_pos letter, flagOf_of_nameValue text]

theorem reading_of_writesFlag (h : WritesFlag (Text.trim arg.toList) name value) :
    reading g arg rest = flagReading g (String.ofList (Text.trim arg.toList)) name value rest := by
  simp only [reading, ofChars_of_writesFlag h]

theorem flagReading_of_switch {f : Flag} (flag : g.flag? name = some f) (hf : f ≠ .logLevel) (a : String) :
    flagReading g a name value rest =
      if value = "" then .set (.switch f true) rest
      else (boolean? value).elim (.fail (.notBoolean value name)) fun on ↦ .set (.switch f on) rest := by
  simp only [flagReading, flag]
  split
  · rfl
  · cases boolean? value <;> rfl

theorem reading_of_reads {r : Reading} (h : Reads g arg rest r) : reading g arg rest = r := by
  cases h with
  | blank text => simp only [reading, text, Argument.ofChars]
  | terminator text => simp only [reading, text, Argument.ofChars]
  | dash text => simp only [reading, text, Argument.ofChars]
  | noLetter text second letter => simp [reading, text, ofChars_one_dash second, letter]
  | subcommand text first known => simp only [reading, text, ofChars_of_head first, if_pos known]
  | operand text first unknown => simp only [reading, text, ofChars_of_head first, if_neg unknown]
  | unknown text flag => simp only [reading_of_writesFlag text, flagReading, flag]
  | level text flag given => simp only [reading_of_writesFlag text, flagReading, flag, if_neg given]
  | levelBehind text flag behind => simp only [reading_of_writesFlag text, flagReading, flag, behind, if_true]
  | levelMissing text flag behind => simp only [reading_of_writesFlag text, flagReading, flag, behind, if_true]
  | switchOn text flag switch => rw [reading_of_writesFlag text, flagReading_of_switch flag switch, if_pos rfl]
  | switch text flag switch given boolean =>
    rw [reading_of_writesFlag text, flagReading_of_switch flag switch, if_neg given, boolean]
    rfl
  | notBoolean text flag switch given boolean =>
    rw [reading_of_writesFlag text, flagReading_of_switch flag switch, if_neg given, boolean]
    rfl

theorem exists_reads_of_writesFlag (text : WritesFlag (Text.trim arg.toList) name value) :
    ∃ r, Reads g arg rest r := by
  cases flag : g.flag? name with
  | none => exact ⟨_, .unknown text flag⟩
  | some f =>
    by_cases hf : f = .logLevel
    · subst hf
      by_cases hvalue : value = ""
      · subst hvalue
        cases rest with
        | nil => exact ⟨_, .levelMissing text flag rfl⟩
        | cons next rest' => exact ⟨_, .levelBehind text flag rfl⟩
      · exact ⟨_, .level text flag hvalue⟩
    · by_cases hvalue : value = ""
      · subst hvalue
        exact ⟨_, .switchOn text flag hf⟩
      · cases boolean : boolean? value with
        | some on => exact ⟨_, .switch text flag hf hvalue boolean⟩
        | none => exact ⟨_, .notBoolean text flag hf hvalue boolean⟩

theorem exists_reads (g : Grammar) (arg : String) (rest : List String) : ∃ r, Reads g arg rest r := by
  cases htext : Text.trim arg.toList with
  | nil => exact ⟨_, .blank htext⟩
  | cons c cs =>
    by_cases hc : c = '-'
    · subst hc
      cases cs with
      | nil => exact ⟨_, .dash htext⟩
      | cons d ds =>
        cases hletter : Text.isLatinLetter (Text.leadByte d) with
        | true =>
          obtain ⟨name, value, hbody⟩ := exists_nameValue (d :: ds)
          have hflag : WritesFlag (Text.trim arg.toList) name value := htext.symm ▸ .short hletter hbody
          exact exists_reads_of_writesFlag hflag
        | false =>
          by_cases hd : d = '-'
          · subst hd
            cases ds with
            | nil => exact ⟨_, .terminator htext⟩
            | cons e es =>
              obtain ⟨name, value, hbody⟩ := exists_nameValue (e :: es)
              have hflag : WritesFlag (Text.trim arg.toList) name value := htext.symm ▸ .long hbody
              exact exists_reads_of_writesFlag hflag
          · exact ⟨_, .noLetter htext hd hletter⟩
    · by_cases hknown : String.ofList (c :: cs) ∈ g.subcommands
      · exact ⟨_, .subcommand htext hc hknown⟩
      · exact ⟨_, .operand htext hc hknown⟩

theorem reads_iff {r : Reading} : Reads g arg rest r ↔ reading g arg rest = r := by
  refine ⟨reading_of_reads, ?_⟩
  rintro rfl
  obtain ⟨r, h⟩ := exists_reads g arg rest
  rwa [reading_of_reads h]

end Arguments

theorem readArgs_of_parsed {g : Grammar} {args : List String} {cs : List Change}
    {r : Except UsageError (List String)} (h : Parsed g args cs r) (s : Settings) (before : List String) :
    readArgs g s before args = r.map fun more ↦ (cs.foldl Change.apply s, before ++ more) := by
  induction h generalizing s before with
  | done => simp [readArgs, Except.map]
  | fail reads =>
    rw [readArgs_cons, reading_of_reads reads]
    rfl
  | stop reads =>
    rw [readArgs_cons, reading_of_reads reads]
    rfl
  | @operand arg a rest cs r reads behind ih =>
    rw [readArgs_cons, reading_of_reads reads]
    dsimp only
    rw [ih]
    cases r <;> simp [Except.map]
  | set reads behind ih =>
    rw [readArgs_cons, reading_of_reads reads]
    exact ih _ _

theorem exists_parsed (g : Grammar) (args : List String) : ∃ cs r, Parsed g args cs r := by
  -- On the number of arguments, since a level can take the argument behind it along.
  induction hlen : args.length using Nat.strongRecOn generalizing args with
  | ind n ih =>
    cases args with
    | nil => exact ⟨_, _, .done⟩
    | cons arg rest =>
      rw [List.length_cons] at hlen
      obtain ⟨r, reads⟩ := exists_reads g arg rest
      cases r with
      | fail e => exact ⟨_, _, .fail reads⟩
      | stop more => exact ⟨_, _, .stop reads⟩
      | operand a =>
        obtain ⟨cs, r, behind⟩ := ih rest.length (by omega) rest rfl
        exact ⟨_, _, .operand reads behind⟩
      | set c rest' =>
        have hle : rest'.length ≤ rest.length := length_le_of_reading_set (reading_of_reads reads)
        obtain ⟨cs, r, behind⟩ := ih rest'.length (by omega) rest' rfl
        exact ⟨_, _, .set reads behind⟩

def Change.level? : Change → Option String
  | logLevel name => some name
  | switch _ _ => none

def Change.on? (f : Flag) : Change → Option Bool
  | logLevel _ => none
  | switch f' on => if f' = f then some on else none

/-- The level that is asked for last. -/
def askedLevel (cs : List Change) : String :=
  (cs.filterMap Change.level?).getLastD ""

/-- Whether a flag is on after its last mention. -/
def isOn (f : Flag) (cs : List Change) : Bool :=
  (cs.filterMap (Change.on? f)).getLastD false

theorem setting_foldl {α : Type} {setting : Settings → α} {given? : Change → Option α}
    (h : ∀ s c, setting (Change.apply s c) = (given? c).getD (setting s)) (cs : List Change) (s : Settings) :
    setting (cs.foldl Change.apply s) = (cs.filterMap given?).getLastD (setting s) := by
  induction cs generalizing s with
  | nil => rfl
  | cons c cs ih =>
    rw [List.foldl_cons, ih, h, List.filterMap_cons]
    cases given? c with
    | none => rfl
    | some value => rw [List.getLastD_cons, Option.getD_some]

theorem logLevel_foldl (cs : List Change) : (cs.foldl Change.apply {}).logLevel = askedLevel cs := by
  refine setting_foldl (fun s c ↦ ?_) cs {}
  cases c with
  | logLevel name => rfl
  | switch f on => cases f <;> rfl

def Settings.state (s : Settings) : Flag → Bool
  | .help => s.help
  | .version => s.version
  | .json => s.json
  | .logLevel => false

theorem state_foldl (f : Flag) (hf : f ≠ .logLevel) (cs : List Change) :
    (cs.foldl Change.apply {}).state f = isOn f cs := by
  have hstep : ∀ s c, (Change.apply s c).state f = (Change.on? f c).getD (s.state f) := by
    intro s c
    cases c with
    | logLevel name => cases f <;> rfl
    | switch f' on => cases f <;> cases f' <;> first | rfl | exact absurd rfl hf
  have hoff : Settings.state {} f = false := by cases f <;> rfl
  have hlast := @setting_foldl Bool (fun s ↦ s.state f) (Change.on? f) hstep cs {}
  rwa [hoff] at hlast

/-- A command line that ends in something else than an audit. -/
inductive NoAudit (disk : Disk) (cs : List Change) : Except UsageError (List String) → Prop
  | unread (e : UsageError) : NoAudit disk cs (.error e)
  | help (args : List String) (on : isOn .help cs = true) : NoAudit disk cs (.ok args)
  | version (args : List String) (on : isOn .version cs = true) : NoAudit disk cs (.ok args)
  | subcommand {name : String} (rest : List String) (known : name ∈ ["version", "help-all", "completion"])
      (free : disk.occupied name = false) : NoAudit disk cs (.ok (name :: rest))

section Outcomes

variable {host : Audit.Host} {build : Build} {args : List String} {cs : List Change}
  {r : Except UsageError (List String)} (h : Parsed (rootGrammar build) args cs r) (logger : Log.Logger)

include h

theorem run_of_noAudit (hno : NoAudit host.disk cs r) :
    ∃ output error?, ∀ disk : Disk,
      (∀ first rest, r = .ok (first :: rest) → disk.occupied first = host.disk.occupied first) →
        run { host with disk } build logger args = { output, error?, logger } := by
  have hread := readArgs_of_parsed h {} []
  have hhelp : (cs.foldl Change.apply {}).help = isOn .help cs := state_foldl .help (by decide) cs
  have hversion : (cs.foldl Change.apply {}).version = isOn .version cs := state_foldl .version (by decide) cs
  cases r with
  | error e =>
    refine ⟨printed host (rootHelp build.version), some (.usage e), fun disk _ ↦ ?_⟩
    rw [run, hread]
    rfl
  | ok paths =>
    simp only [run, hread, Except.map, List.nil_append, hhelp, hversion]
    cases hhelp : isOn .help cs with
    | true => exact ⟨(runHelp host build paths).1, (runHelp host build paths).2, fun disk _ ↦ rfl⟩
    | false =>
      cases hversion : isOn .version cs with
      | true =>
        exact ⟨printed host (Log.program ++ " version " ++ build.version ++ "\n"), none, fun disk _ ↦ rfl⟩
      | false =>
        cases hno with
        | help _ on => exact absurd (hhelp.symm.trans on) (by decide)
        | version _ on => exact absurd (hversion.symm.trans on) (by decide)
        | @subcommand name rest known free =>
          have hsub : ∀ disk : Disk, disk.occupied name = host.disk.occupied name →
              subcommand? { host with disk } build (name :: rest) = some (name, rest) := by
            intro disk hsame
            rw [subcommand?, if_pos ⟨known, hsame.trans free⟩]
          refine ⟨(runSubcommand host build name rest).1, (runSubcommand host build name rest).2,
            fun disk hsame ↦ ?_⟩
          simp only [hsub disk (hsame _ _ rfl), Bool.false_eq_true, if_false]
          rfl

theorem run_of_audit (hno : ¬NoAudit host.disk cs r) :
    ∃ paths, r = .ok paths ∧ run host build logger args = runAudit host logger (askedLevel cs) paths := by
  have hread := readArgs_of_parsed h {} []
  cases r with
  | error e => exact absurd (.unread e) hno
  | ok paths =>
    refine ⟨paths, rfl, ?_⟩
    have hhelp : (cs.foldl Change.apply {}).help = false :=
      (state_foldl .help (by decide) cs).trans (Bool.eq_false_iff.2 fun on ↦ hno (.help paths on))
    have hversion : (cs.foldl Change.apply {}).version = false :=
      (state_foldl .version (by decide) cs).trans (Bool.eq_false_iff.2 fun on ↦ hno (.version paths on))
    have hsub : subcommand? host build paths = none := by
      cases paths with
      | nil => rfl
      | cons name rest =>
        rw [subcommand?, if_neg]
        intro hknown
        exact hno (.subcommand rest hknown.1 hknown.2)
    simp only [run, hread, Except.map, List.nil_append, logLevel_foldl, hhelp, hversion, hsub, Bool.false_eq_true,
      if_false]

end Outcomes

/-- A command line that comes to no audit leaves the log as it is, whatever level it asks for, and what it prints
and how it ends depends on the disk only through whether the first positional argument exists. One that comes to an
audit sets the level that is asked for last. -/
theorem no_audit_changes_nothing (host : Audit.Host) (build : Build) (logger : Log.Logger) (args : List String) :
    (∃ cs r, Parsed (rootGrammar build) args cs r) ∧
    ∀ cs r, Parsed (rootGrammar build) args cs r →
      (NoAudit host.disk cs r →
        (run host build logger args).logger = logger ∧
        (run host build logger args).entries = [] ∧
        ∀ disk : Disk,
          (∀ first rest, r = .ok (first :: rest) → disk.occupied first = host.disk.occupied first) →
            (run { host with disk } build logger args).output = (run host build logger args).output ∧
            (run { host with disk } build logger args).error? = (run host build logger args).error?) ∧
      (¬NoAudit host.disk cs r →
        (run host build logger args).logger = (logger.setLevel (askedLevel cs)).1) := by
  refine ⟨exists_parsed _ args, fun cs r h ↦ ⟨fun hno ↦ ?_, fun hno ↦ ?_⟩⟩
  · obtain ⟨output, error?, hrun⟩ := run_of_noAudit h logger hno
    have hself : run host build logger args = { output, error?, logger } := hrun host.disk fun _ _ _ ↦ rfl
    refine ⟨by rw [hself], by rw [hself], fun disk hsame ↦ ?_⟩
    rw [hself, hrun disk hsame]
    exact ⟨rfl, rfl⟩
  · obtain ⟨paths, -, hrun⟩ := run_of_audit h logger hno
    rw [hrun]
    rfl

theorem no_audit_changes_nothing_late_error :
    let disk := (Disk.Node.dir [("src", .dir [])]).disk []
    let late := ["--log-level", "debug", "src", "--verbose"]
    let twice := [" --log-level=debug", "src", "-log-level", "TRACE"]
    Parsed (rootGrammar {}) late [.logLevel "debug"] (.error (.unknownFlag "verbose")) ∧
      (run { disk } {} {} late).logger = {} ∧ (run { disk } {} {} late).entries = [] ∧
      Parsed (rootGrammar {}) twice [.logLevel "debug", .logLevel "TRACE"] (.ok ["src"]) ∧
      (run { disk } {} {} twice).logger = { level := .trace } := by
  intro disk late twice
  have hsrc : ∀ rest, Reads (rootGrammar {}) "src" rest (.operand "src") := fun _ ↦ reads_iff.2 rfl
  have hlate : Parsed (rootGrammar {}) late [.logLevel "debug"] (.error (.unknownFlag "verbose")) := by
    have hlevel : Reads (rootGrammar {}) "--log-level" ["debug", "src", "--verbose"]
      (.set (.logLevel "debug") ["src", "--verbose"]) := reads_iff.2 rfl
    have hunknown : Reads (rootGrammar {}) "--verbose" [] (.fail (.unknownFlag "verbose")) := reads_iff.2 rfl
    exact .set hlevel (.operand (hsrc _) (.fail hunknown))
  have htwice : Parsed (rootGrammar {}) twice [.logLevel "debug", .logLevel "TRACE"] (.ok ["src"]) := by
    have hjoined : Reads (rootGrammar {}) " --log-level=debug" ["src", "-log-level", "TRACE"]
      (.set (.logLevel "debug") ["src", "-log-level", "TRACE"]) := reads_iff.2 rfl
    have hbehind : Reads (rootGrammar {}) "-log-level" ["TRACE"] (.set (.logLevel "TRACE") []) := reads_iff.2 rfl
    exact .set hjoined (.operand (hsrc _) (.set hbehind .done))
  have haudit : ¬NoAudit disk [.logLevel "debug", .logLevel "TRACE"] (.ok ["src"]) := by
    intro h
    cases h with
    | help _ on => exact absurd on (by decide)
    | version _ on => exact absurd on (by decide)
    | subcommand _ known => exact absurd known (by decide)
  obtain ⟨hlogger, hentries, -⟩ := ((no_audit_changes_nothing { disk } {} {} late).2 _ _ hlate).1 (.unread _)
  exact ⟨hlate, hlogger, hentries, htwice,
    (((no_audit_changes_nothing { disk } {} {} twice).2 _ _ htwice).2 haudit).trans rfl⟩

end FrontendAudit.Command
