import FrontendAudit.Proofs.Arguments
import FrontendAudit.Proofs.InPlace

namespace FrontendAudit

namespace Log

theorem Logger.level_stamp (l : Logger) (e : Entry) : (l.stamp e).level = e.level := by
  rw [stamp]
  generalize l.fields = fields
  induction fields generalizing e with
  | nil => rfl
  | cons f fields ih => exact ih (e.withField f.1 f.2)

theorem Level.trace_admits (entry : Level) : trace.admits entry = true := by
  cases entry <;> rfl

theorem Logger.emit_eq_filter (level : Level) (version : String) (es : List Entry) :
    emit ⟨level, version⟩ es = (emit ⟨.trace, version⟩ es).filter fun e ↦ level.admits e.level := by
  have htrace : es.filter (fun e ↦ Level.trace.admits e.level) = es := by
    apply List.filter_eq_self.2
    intro e _
    exact Level.trace_admits e.level
  rw [emit, emit, htrace, List.filter_map]
  congr 1
  apply List.filter_congr
  intro e _
  rw [Function.comp_apply, level_stamp]

end Log

namespace Command

theorem run_congr_switches (host : Audit.Host) (build : Build) (logger logger' : Log.Logger)
    {args args' : List String}
    (h : (readArgs (rootGrammar build) {} [] args).map (fun r ↦ (r.1.switches, r.2)) =
      (readArgs (rootGrammar build) {} [] args').map fun r ↦ (r.1.switches, r.2)) :
    (run host build logger args).output = (run host build logger' args').output ∧
      (run host build logger args).error? = (run host build logger' args').error? := by
  rw [run, run]
  match readArgs (rootGrammar build) {} [] args, readArgs (rootGrammar build) {} [] args', h with
  | .error e, .error e', h =>
    cases h
    exact ⟨rfl, rfl⟩
  | .ok (s, paths), .ok (s', paths'), h =>
    simp only [Except.map, Except.ok.injEq, Prod.mk.injEq, Settings.switches] at h
    obtain ⟨⟨hhelp, hversion, -⟩, rfl⟩ := h
    simp only [hhelp, hversion]
    split
    · exact ⟨rfl, rfl⟩
    · split
      · exact ⟨rfl, rfl⟩
      · split
        · exact ⟨rfl, rfl⟩
        · exact ⟨rfl, rfl⟩

end Command

namespace Audit

/-- Whatever two levels an audit starts with, it scans and prints the same, and of the entries at the most
talkative level each keeps those that it admits, in their order. A command line may ask for any level in front,
be there such a level or not: it prints the same and ends the same. -/
theorem log_level_noninterference (host : Host) (paths : List String) (version : String)
    (level level' : Log.Level) :
    let scanned := fun l : Log.Level ↦ (InPlace.scan host paths).run ⟨⟨l, version⟩, []⟩
    let ran := fun l : Log.Level ↦ (InPlace.run host paths).run ⟨⟨l, version⟩, []⟩
    ((scanned level).1 = (scanned level').1 ∧ (ran level).1 = (ran level').1) ∧
    ((scanned level).2.entries = (scanned .trace).2.entries.filter (fun e ↦ level.admits e.level) ∧
      (ran level).2.entries = (ran .trace).2.entries.filter fun e ↦ level.admits e.level) ∧
    ((scanned level).1.2 = (scan host paths).reports ∧
      (scanned level).2.entries = Log.Logger.emit ⟨level, version⟩ (scan host paths).entries ∧
      (ran level).1 = ((run host paths).output, (run host paths).error?) ∧
      (ran level).2.entries = Log.Logger.emit ⟨level, version⟩ (run host paths).entries) ∧
    ∀ (build : Command.Build) (logger logger' : Log.Logger) (name : String) (args : List String),
      (Command.run host build logger ("--log-level" :: name :: args)).output =
          (Command.run host build logger' args).output ∧
        (Command.run host build logger ("--log-level" :: name :: args)).error? =
          (Command.run host build logger' args).error? := by
  intro scanned ran
  have hscanned : ∀ l, scanned l = (((scan host paths).deadline, (scan host paths).reports),
      ⟨⟨l, version⟩, Log.Logger.emit ⟨l, version⟩ (scan host paths).entries⟩) :=
    fun l ↦ (InPlace.scan_logs host paths).run_eq _
  have hran : ∀ l, ran l = (((run host paths).output, (run host paths).error?),
      ⟨⟨l, version⟩, Log.Logger.emit ⟨l, version⟩ (run host paths).entries⟩) :=
    fun l ↦ (InPlace.run_logs host paths).run_eq _
  refine ⟨?_, ?_, ?_, ?_⟩
  · rw [hscanned level, hscanned level', hran level, hran level']
    exact ⟨rfl, rfl⟩
  · rw [hscanned level, hscanned .trace, hran level, hran .trace]
    exact ⟨Log.Logger.emit_eq_filter level version _, Log.Logger.emit_eq_filter level version _⟩
  · rw [hscanned level, hran level]
    exact ⟨rfl, rfl, rfl, rfl⟩
  · intro build logger logger' name args
    apply Command.run_congr_switches
    rw [Command.readArgs_logLevel]
    apply Command.readArgs_switches
    rfl

end Audit

end FrontendAudit
