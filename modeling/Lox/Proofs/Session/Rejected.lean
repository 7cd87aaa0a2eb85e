import Lox.Proofs.Machine.Joined
import Lox.Proofs.Session.Respaced

/-!
# Texts that are rejected

A run of a session goes through three stages: the text is cut into tokens, the tokens are read as a
program, and the program is executed. Each of them reports the errors that it finds and raises the
flag of the session, and none is entered while the flag is up. `Session.runByStages` is the run told
in this way, and it is the run (`Session.runByStages_eq`).

So a text that is rejected, by the first stage or by the second, leaves the machine alone. Whatever
else a session runs, before or after, would have gone the same way without it
(`Session.rejected_leave_no_trace`).
-/

namespace Lox

namespace Session

/-! ### Runs by their stages -/

/-- What was reported so far in a run, and the flag of the session. -/
structure Log where
  /-- The diagnostics, in the order in which they were reported. -/
  reported : List Diagnostic
  /-- The flag is up. -/
  hadError : Bool
  /-- The flag is up if and only if something was reported. -/
  raised : hadError = !reported.isEmpty

namespace Log

/-- The log at the start of a run. -/
def empty : Log := ⟨[], false, rfl⟩

/-- A diagnostic is reported. -/
def report (log : Log) (d : Diagnostic) : Log where
  reported := log.reported ++ [d]
  hadError := true
  raised := by
    have hne : log.reported ++ [d] ≠ [] :=
      List.append_ne_nil_of_right_ne_nil _ (List.cons_ne_nil d [])
    rw [List.isEmpty_eq_false_iff.mpr hne]
    rfl

/-- Several diagnostics are reported, one after another. -/
def reportAll (log : Log) (ds : List Diagnostic) : Log :=
  ds.foldl report log

theorem reported_reportAll (log : Log) (ds : List Diagnostic) :
    (log.reportAll ds).reported = log.reported ++ ds := by
  induction ds generalizing log with
  | nil => exact (List.append_nil _).symm
  | cons d ds ih =>
    show ((log.report d).reportAll ds).reported = _
    rw [ih, report, List.append_assoc]
    rfl

end Log

/-- The first stage takes an item of the text: a token is kept, and a fault is reported. -/
def scanItem (found : List Token × Log) : Item → List Token × Log
  | .token t => (found.1 ++ [t], found.2)
  | .fault e => (found.1, found.2.report e.diagnostic)

/-- The first stage: the tokens of a text, and its faults as they are reported. -/
def scanStage (source : String) : List Token × Log :=
  (scan source).foldl scanItem ([], .empty)

/-- The second stage: the statements of a text, and its mistakes as they are reported. -/
def parseStage (tokens : List Token) (log : Log) : List Stmt × Log :=
  ((Parsed.ofTokens tokens).program,
    log.reportAll ((Parsed.ofTokens tokens).errors.map GrammarError.diagnostic))

/-- What the run of a text comes to. -/
structure Result where
  /-- The run succeeds. -/
  succeeds : Bool
  /-- What it reports. -/
  reported : List Diagnostic
  /-- The session behind it. -/
  session : Session

/-- A run ends, and succeeds if the flag is down. -/
def Log.close (log : Log) (m : Machine) : Result :=
  ⟨!log.hadError, log.reported, ⟨m, log.hadError⟩⟩

/-- The next stage is entered only while the flag is down. -/
def Log.gate (log : Log) (m : Machine) (next : Option Result) : Option Result :=
  if log.hadError then some (log.close m) else next

/-- The third stage: the statements are executed, and the error that stops them is reported. -/
def executeStage (host : Host) (n : Nat) (program : List Stmt) (log : Log) (m : Machine) :
    Option Result :=
  match Run.interpret host n program m with
  | .done _ m => some (log.close m)
  | .failed e m => some ((log.report e.diagnostic).close m)
  | .unfinished => none

/-- A run, stage by stage. `none` says that the bound on the depth was too low. -/
def runByStages (host : Host) (n : Nat) (source : String) (s : Session) : Option Result :=
  let scanned := scanStage source
  scanned.2.gate s.machine <|
    let parsed := parseStage scanned.1 scanned.2
    parsed.2.gate s.machine <|
      executeStage host n parsed.1 parsed.2 s.machine

theorem foldl_scanItem (items : List Item) (found : List Token × Log) :
    items.foldl scanItem found = (found.1 ++ items.filterMap Item.token?,
      found.2.reportAll ((items.filterMap Item.fault?).map LexicalError.diagnostic)) := by
  induction items generalizing found with
  | nil => rw [List.foldl_nil, List.filterMap_nil, List.append_nil]; rfl
  | cons item items ih =>
    rw [List.foldl_cons, ih]
    cases item with
    | token t => exact congrArg (·, _) (List.append_assoc ..)
    | fault e => rfl

theorem scanStage_eq (source : String) : scanStage source =
    (tokens source, Log.empty.reportAll ((faults source).map LexicalError.diagnostic)) :=
  foldl_scanItem _ _

/-- A stage that reports something is the last one. -/
theorem Log.gate_reportAll {ds : List Diagnostic} (h : ds ≠ []) (m : Machine)
    (next : Option Result) :
    (Log.empty.reportAll ds).gate m next = some ⟨false, ds, ⟨m, true⟩⟩ := by
  have hreported : (Log.empty.reportAll ds).reported = ds := reported_reportAll _ ds
  have hflag : (Log.empty.reportAll ds).hadError = true := by
    rw [Log.raised, hreported, List.isEmpty_eq_false_iff.mpr h]
    rfl
  rw [gate, if_pos hflag, close, hreported, hflag]
  rfl

/-- The run ended with the log of some stage. -/
def Result.IsClosed (r : Result) : Prop :=
  ∃ log m, r = Log.close log m

theorem Log.isClosed_of_gate {log : Log} {m : Machine} {next : Option Result} {r : Result}
    (hnext : next = some r → r.IsClosed) (h : log.gate m next = some r) : r.IsClosed := by
  unfold gate at h
  split at h
  · exact ⟨log, m, (Option.some.inj h).symm⟩
  · exact hnext h

theorem isClosed_of_executeStage {host : Host} {n : Nat} {program : List Stmt} {log : Log}
    {m : Machine} {r : Result} (h : executeStage host n program log m = some r) : r.IsClosed := by
  unfold executeStage at h
  split at h
  · exact ⟨log, _, (Option.some.inj h).symm⟩
  · exact ⟨log.report _, _, (Option.some.inj h).symm⟩
  · exact nomatch h

variable {host : Host} {n : Nat} {source : String} {s : Session}

/-- A text with faults is not read as a program. -/
theorem runByStages_of_faults (h : faults source ≠ []) : runByStages host n source s =
    some ⟨false, (faults source).map LexicalError.diagnostic, ⟨s.machine, true⟩⟩ := by
  rw [runByStages, scanStage_eq]
  exact Log.gate_reportAll (mt List.map_eq_nil_iff.mp h) _ _

/-- A program with mistakes is not executed. -/
theorem runByStages_of_errors (hfaults : faults source = [])
    (h : (Parsed.ofTokens (tokens source)).errors ≠ []) : runByStages host n source s =
      some ⟨false, (Parsed.ofTokens (tokens source)).errors.map GrammarError.diagnostic,
        ⟨s.machine, true⟩⟩ := by
  rw [runByStages, scanStage_eq, hfaults]
  exact Log.gate_reportAll (mt List.map_eq_nil_iff.mp h) _ _

/-- What is not rejected is executed. -/
theorem runByStages_of_accepted (hfaults : faults source = [])
    (herrors : (Parsed.ofTokens (tokens source)).errors = []) : runByStages host n source s =
      executeStage host n (program source) .empty s.machine := by
  rw [runByStages, scanStage_eq, hfaults, parseStage]
  dsimp only
  rw [herrors]
  rfl

theorem rejections_of_faults (h : faults source ≠ []) :
    rejections source = (faults source).map LexicalError.diagnostic := by
  unfold rejections
  split
  · rename_i hnil
    exact absurd hnil h
  · rfl

/-- **The run of a text is the run by its stages**, and it succeeds if it reports nothing. -/
theorem runByStages_eq (host : Host) (n : Nat) (source : String) (s : Session) :
    runByStages host n source s =
      (run host n source s).map fun r => ⟨r.1.isEmpty, r.1, r.2⟩ := by
  have hrejected (hne : rejections source ≠ []) :
      (run host n source s).map (fun r => (⟨r.1.isEmpty, r.1, r.2⟩ : Result)) =
        some ⟨false, rejections source, ⟨s.machine, true⟩⟩ := by
    rw [run_eq_of_rejected hne, Option.map_some, List.isEmpty_eq_false_iff.mpr hne]
  by_cases hfaults : faults source = []
  · by_cases herrors : (Parsed.ofTokens (tokens source)).errors = []
    · have hclean : rejections source = [] := rejections_eq_nil_iff.mpr ⟨hfaults, herrors⟩
      rw [runByStages_of_accepted hfaults herrors, run_eq_ofOutcome hclean, executeStage]
      cases Run.interpret host n (program source) s.machine <;> rfl
    · rw [hrejected fun h => herrors (rejections_eq_nil_iff.mp h).2, rejections_eq hfaults,
        runByStages_of_errors hfaults herrors]
  · rw [hrejected fun h => hfaults (rejections_eq_nil_iff.mp h).1, rejections_of_faults hfaults,
      runByStages_of_faults hfaults]

/-! ### Texts that are run one after another -/

/-- What is seen of the run of a text. -/
structure Record where
  /-- The text. -/
  source : String
  /-- The run succeeds. -/
  succeeds : Bool
  /-- What it reports. -/
  reported : List Diagnostic
  /-- The bytes that it writes. -/
  written : ByteArray

/-- The record of the run of a text that was started on a session. -/
def Result.record (r : Result) (source : String) (s : Session) : Record where
  source := source
  succeeds := r.succeeds
  reported := r.reported
  written := r.session.machine.output.deliveredFrom s.machine.output.delivered.size

/-- A text without faults and mistakes. -/
def accepts (source : String) : Bool :=
  (faults source).isEmpty && (Parsed.ofTokens (tokens source)).errors.isEmpty

/-- Runs texts one after another: what is seen of each run, and the session behind them. `none` says
that the bound on the depth was too low for one of them. -/
def runAll (host : Host) (n : Nat) : List String → Session → Option (List Record × Session)
  | [], s => some ([], s)
  | source :: sources, s =>
    (runByStages host n source s).bind fun r =>
      (runAll host n sources r.session).map fun rest => (r.record source s :: rest.1, rest.2)

theorem accepts_iff : accepts source = true ↔
    faults source = [] ∧ (Parsed.ofTokens (tokens source)).errors = [] := by
  rw [accepts, Bool.and_eq_true, List.isEmpty_iff, List.isEmpty_iff]

/-- A text that is rejected leaves the machine alone. -/
theorem runByStages_of_rejected (host : Host) (n : Nat) (s : Session)
    (h : ¬ accepts source = true) : ∃ reported,
      runByStages host n source s = some ⟨false, reported, ⟨s.machine, true⟩⟩ := by
  by_cases hfaults : faults source = []
  · exact ⟨_, runByStages_of_errors hfaults fun herrors => h (accepts_iff.mpr ⟨hfaults, herrors⟩)⟩
  · exact ⟨_, runByStages_of_faults hfaults⟩

/-- What a run does depends on the machine, and not on the flag that the run before it left. -/
theorem runByStages_congr {s' : Session} (h : s'.machine = s.machine) :
    runByStages host n source s' = runByStages host n source s := by
  unfold runByStages
  rw [h]

/-- Without the texts that are rejected, the other runs are the same, and so is the machine. -/
theorem runAll_filter (sources : List String) {s s' : Session} (h : s'.machine = s.machine) :
    (runAll host n (sources.filter accepts) s').map (fun all => (all.1, all.2.machine)) =
      (runAll host n sources s).map fun all =>
        (all.1.filter (accepts ·.source), all.2.machine) := by
  induction sources generalizing s s' with
  | nil => exact congrArg (fun m => some ([], m)) h
  | cons source sources ih =>
    rw [runAll]
    by_cases haccepts : accepts source = true
    · rw [List.filter_cons_of_pos haccepts, runAll, runByStages_congr h]
      cases runByStages host n source s with
      | none => rfl
      | some r =>
        have hrecord : r.record source s' = r.record source s := by
          rw [Result.record, Result.record, h]
        -- The record of this run stands in front of those of the others.
        have hrest := congrArg (Option.map fun all => (r.record source s :: all.1, all.2))
          (ih (s := r.session) rfl)
        rw [Option.map_map, Option.map_map] at hrest
        rw [Option.bind_some, Option.bind_some, Option.map_map, Option.map_map, hrecord]
        refine hrest.trans (congrArg (Option.map · _) (funext fun all => ?_))
        have hkept : (r.record source s :: all.1).filter (accepts ·.source) =
            r.record source s :: all.1.filter (accepts ·.source) :=
          List.filter_cons_of_pos haccepts
        exact congrArg (·, all.2.machine) hkept.symm
    · rw [List.filter_cons_of_neg haccepts]
      obtain ⟨reported, hrun⟩ := runByStages_of_rejected host n s haccepts
      rw [hrun, Option.bind_some, Option.map_map]
      refine (ih (s := ⟨s.machine, true⟩) h).trans ?_
      refine congrArg (Option.map · _) (funext fun all => ?_)
      have hdropped (r : Result) : (r.record source s :: all.1).filter (accepts ·.source) =
          all.1.filter (accepts ·.source) :=
        List.filter_cons_of_neg haccepts
      exact congrArg (·, all.2.machine) (hdropped _).symm

/-- What is executed reports at most one error. -/
theorem executeStage_eq_some {program : List Stmt} {m : Machine} {r : Result}
    (h : executeStage host n program .empty m = some r) :
    (r.reported = [] ∧ Run.interpret host n program m = .done () r.session.machine) ∨
      ∃ e, r.reported = [e.diagnostic] ∧
        Run.interpret host n program m = .failed e r.session.machine := by
  unfold executeStage at h
  cases hrun : Run.interpret host n program m with
  | done u m' =>
    rw [hrun] at h
    obtain rfl := Option.some.inj h
    exact .inl ⟨rfl, rfl⟩
  | failed e m' =>
    rw [hrun] at h
    obtain rfl := Option.some.inj h
    exact .inr ⟨e, rfl, rfl⟩
  | unfinished =>
    rw [hrun] at h
    exact nomatch h

/-- A run succeeds, and leaves the flag down, if and only if it reports nothing. -/
theorem succeeds_iff {r : Result} (h : runByStages host n source s = some r) :
    (r.succeeds = true ↔ r.reported = []) ∧ (r.session.hadError = false ↔ r.reported = []) := by
  obtain ⟨log, m, rfl⟩ : r.IsClosed :=
    Log.isClosed_of_gate (Log.isClosed_of_gate isClosed_of_executeStage) h
  have hflag : log.hadError = false ↔ log.reported = [] := by
    rw [log.raised, Bool.not_eq_false', List.isEmpty_iff]
  exact ⟨(iff_of_eq (Bool.not_eq_true' _)).trans hflag, hflag⟩

/-- **Texts that are rejected leave no trace.** Let any texts be run one after another in a session.
Without those of them that have faults or mistakes, the runs of the others succeed or not as before,
report and write the same as before, and leave the same machine behind.

A run of a text with faults reports just these, in their order; a run of a text without faults but
with mistakes reports just these, in their order; and any other run reports nothing, or the one
error that stopped the program. A run succeeds, and leaves the flag of the session down, if and only
if it reports nothing. -/
theorem rejected_leave_no_trace (host : Host) (n : Nat) :
    (∀ sources s,
      (runAll host n (sources.filter accepts) s).map (fun all => (all.1, all.2.machine)) =
        (runAll host n sources s).map fun all =>
          (all.1.filter (accepts ·.source), all.2.machine)) ∧
    ∀ source s,
      runByStages host n source s =
        (run host n source s).map (fun r => ⟨r.1.isEmpty, r.1, r.2⟩) ∧
      (faults source ≠ [] → runByStages host n source s =
        some ⟨false, (faults source).map LexicalError.diagnostic, ⟨s.machine, true⟩⟩) ∧
      (faults source = [] → (Parsed.ofTokens (tokens source)).errors ≠ [] →
        runByStages host n source s =
          some ⟨false, (Parsed.ofTokens (tokens source)).errors.map GrammarError.diagnostic,
            ⟨s.machine, true⟩⟩) ∧
      ∀ r, runByStages host n source s = some r →
        (accepts source = true →
          (r.reported = [] ∧
            Run.interpret host n (program source) s.machine = .done () r.session.machine) ∨
          ∃ e, r.reported = [e.diagnostic] ∧
            Run.interpret host n (program source) s.machine = .failed e r.session.machine) ∧
        (r.succeeds = true ↔ r.reported = []) ∧ (r.session.hadError = false ↔ r.reported = []) := by
  refine ⟨fun sources s => runAll_filter sources rfl, fun source s => ⟨runByStages_eq .., ?_⟩⟩
  refine ⟨runByStages_of_faults, runByStages_of_errors, fun r hr => ⟨fun haccepts => ?_, ?_⟩⟩
  · obtain ⟨hfaults, herrors⟩ := accepts_iff.mp haccepts
    rw [runByStages_of_accepted hfaults herrors] at hr
    exact executeStage_eq_some hr
  · exact succeeds_iff hr

/-- Two texts that are rejected, by the first stage and by the second, stand between others. -/
theorem rejected_leave_no_trace_mixed :
    let host := Host.ofSeed 0 0
    let s := Session.initial (.ofLimit none)
    let sources := ["var a = 1; print a;", "a = 2; @", "a = 3; if (", "print a + 1; missing;"]
    ∃ all kept, runAll host 20 sources s = some all ∧
      runAll host 20 ["var a = 1; print a;", "print a + 1; missing;"] s = some kept ∧
      kept.1 = all.1.filter (accepts ·.source) ∧ kept.2.machine = all.2.machine ∧
      runByStages host 20 "a = 2; @" s = some ⟨false,
        (faults "a = 2; @").map LexicalError.diagnostic, ⟨s.machine, true⟩⟩ := by
  intro host s sources
  have hruns : (runAll host 20 sources s).isSome = true := by decide +kernel
  obtain ⟨all, hall⟩ := Option.isSome_iff_exists.mp hruns
  obtain ⟨hfilter, hreports⟩ := rejected_leave_no_trace host 20
  have hkept := hfilter sources s
  rw [hall] at hkept
  obtain ⟨kept, hrun, heq⟩ := Option.map_eq_some_iff.mp hkept
  obtain ⟨hrecords, hmachine⟩ := Prod.mk.inj heq
  have hsources : sources.filter accepts = ["var a = 1; print a;", "print a + 1; missing;"] := by
    decide +kernel
  rw [hsources] at hrun
  have hfaults : faults "a = 2; @" ≠ [] := by decide +kernel
  exact ⟨all, kept, hall, hrun, hrecords, hmachine, (hreports _ s).2.1 hfaults⟩

end Session

end Lox
