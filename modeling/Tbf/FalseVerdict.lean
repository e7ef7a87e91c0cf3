import Tbf.ValidatedRun

/-!
# The verdict `FALSE`

A run that prints `FALSE` has executed a test whose stderr holds the text of the error method, in whatever order the
parties move, whatever gcc and the tested program do, and whatever is raised.
-/

namespace Tbf.ValidatedRun
open Text Harness ErrorSearch Transition Processing Runners

section
variable {job : Job} {args : Run.Args}

/-- An execution of the test has written the text of the error method: a replay of its file, or a run on its values. -/
def RanIntoError (job : Job) (commands : List Command) (test : TestVector) : Prop :=
  ∃ path ktestFile input binary ended, .child path ktestFile input binary ended ∈ commands ∧
    (ktestFile = some test.origin ∨ ktestFile = none ∧ ExecutionRunner.stdin test job.inherited = .ok input) ∧
    ∃ text, decode ended.errOutput = some text ∧ ERROR_STRING <:+: text

theorem RanIntoError.mono {commands more : List Command} {test : TestVector} (ran : RanIntoError job commands test)
    (longer : commands <+: more) : RanIntoError job more test := by
  obtain ⟨path, ktestFile, input, binary, ended, member, rest⟩ := ran
  exact ⟨path, ktestFile, input, binary, ended, longer.subset member, rest⟩

/-- A positive verdict names a test that ran into the error. -/
def Witnessed (job : Job) (commands : List Command) (v : Verdict) : Prop :=
  v.isPositive = true → ∃ test, v.testVector = some test ∧ RanIntoError job commands test

theorem Witnessed.mono {commands more : List Command} {v : Verdict} (witnessed : Witnessed job commands v)
    (longer : commands <+: more) : Witnessed job more v := by
  intro positive
  obtain ⟨test, named, ran⟩ := witnessed positive
  exact ⟨test, named, ran.mono longer⟩

/-! ### One execution -/

theorem error_of_checkResult {ended : Child} {result : List Status} (checked : checkResult ended.result = .ok result)
    (found : .FALSE ∈ result) : ∃ text, decode ended.errOutput = some text ∧ ERROR_STRING <:+: text := by
  unfold checkResult Child.result at checked
  rw [foundErr_executionResult] at checked
  cases decoded : decode ended.errOutput with
  | none => simp [decoded, bind, Except.bind] at checked
  | some text =>
    refine ⟨text, rfl, ?_⟩
    by_contra absent
    simp only [decoded, absent, decide_false, bind, Except.bind, Bool.false_eq_true, if_false, pure, Except.pure,
      Except.ok.injEq] at checked
    simp [← checked] at found

theorem longer_harness (answers : Answers) (runner : Runners.State) :
    runner.commands <+: (ExecutionRunner.getExecutableHarness job answers runner).2.commands := by
  unfold ExecutionRunner.getExecutableHarness
  cases runner.path with
  | some path => exact List.prefix_refl _
  | none =>
    unfold ExecutionRunner.createExecutableHarness ExecutionRunner.compile
    cases HarnessCreator.createHarness job.nondetMethods job.errorMethod none with
    | error e => exact List.prefix_refl _
    | ok content =>
      by_cases succeeds : answers.gnu11.returncode = 0
      · simp [succeeds]
      · by_cases again : answers.gnu90.returncode = 0 <;> simp [succeeds, again]

/-- What an execution adds to the commands, and the run that a result `[FALSE]` was read off. -/
structure Adds (job : Job) (before : Runners.State) (test : TestVector) (result : Except Raised (List Status))
    (after : Runners.State) : Prop where
  longer : before.commands <+: after.commands
  error : ∀ statuses, result = .ok statuses → .FALSE ∈ statuses → RanIntoError job after.commands test

theorem adds_replay (answers : Answers) (runner : Runners.State) (test : TestVector) :
    Adds job runner test (KleeReplayRunner.run job answers runner test).1 (KleeReplayRunner.run job answers runner test).2 := by
  refine ⟨longer_replay answers runner test, fun statuses same found => ?_⟩
  simp only [KleeReplayRunner.run] at same ⊢
  cases there : (KleeReplayRunner.prepare job answers runner).executable with
  | none =>
    rw [there] at same
    simp only [Except.ok.injEq] at same
    simp [← same] at found
  | some binary =>
    simp only [there] at same
    exact ⟨_, some test.origin, _, binary, answers.child, List.mem_append_right _ (List.mem_singleton_self _), .inl rfl,
      error_of_checkResult same found⟩

theorem adds_execution (answers : Answers) (runner : Runners.State) (test : TestVector) :
    Adds job runner test (ExecutionRunner.run job answers runner test).1 (ExecutionRunner.run job answers runner test).2 := by
  have longer := @longer_harness job answers runner
  simp only [ExecutionRunner.run]
  generalize ExecutionRunner.getExecutableHarness job answers runner = found at longer ⊢
  obtain ⟨e | executable, s⟩ := found
  · exact ⟨longer, fun statuses same => by cases same⟩
  · dsimp only at longer ⊢
    cases read : ExecutionRunner.stdin test job.inherited with
    | error e => exact ⟨longer, fun statuses same => by cases same⟩
    | ok input =>
      dsimp only
      cases there : s.executable with
      | none =>
        refine ⟨longer, fun statuses same found => ?_⟩
        obtain rfl := Except.ok.inj same
        simp at found
      | some binary =>
        refine ⟨longer.trans (List.prefix_append _ _), fun statuses same found => ?_⟩
        exact ⟨executable, none, input, binary, answers.child, List.mem_append_right _ (List.mem_singleton_self _),
          .inr ⟨rfl, read⟩, error_of_checkResult same found⟩

/-! ### The verdicts of a loop -/

/-- The verdicts that a loop has in hand beside those it has collected. -/
def spoken : Processing.Point → List Verdict
  | .k _ _ _ results => results
  | .returned v => [v]
  | _ => []

def verdicts (loop : Loop) : List Verdict := loop.verdicts ++ spoken loop.point

theorem mem_of_decideFinalVerdict {config : ProcessingConfig} {results : List Verdict}
    (positive : (decideFinalVerdict config results).isPositive = true) : decideFinalVerdict config results ∈ results := by
  unfold decideFinalVerdict at positive ⊢
  cases found : results.find? Verdict.isPositive with
  | some verdict => exact List.mem_of_find?_eq_some found
  | none =>
    rw [found] at positive
    cases naive : config.naiveVerification <;> simp [naive, Verdict.isPositive, VerdictTrue, VerdictUnknown] at positive

theorem verdicts_after {config : ProcessingConfig} {loop : Loop} {last : Bool} {batch : List TestVector}
    {results : List Verdict} {v : Verdict} (member : v ∈ verdicts (loop.after config last batch results))
    (positive : v.isPositive = true) : v ∈ loop.verdicts ++ results := by
  unfold Loop.after verdicts at member
  dsimp only at member
  split at member
  · rcases List.mem_append.mp member with before | now
    · exact before
    · obtain rfl := List.mem_singleton.mp now
      exact mem_of_decideFinalVerdict positive
  · simpa [spoken] using member

/-- No step but an execution makes a positive verdict. -/
theorem verdicts_of_step {config : ProcessingConfig} {validating : Bool} {w : World} {loop next : Loop} {m : Move}
    (taken : loop.step config validating w m = some next) {v : Verdict} (member : v ∈ verdicts next)
    (positive : v.isPositive = true) : v ∈ verdicts loop ∨
      ∃ test result, loop.point.rest.head? = some test ∧ m = .execute (.ok result) ∧ v = Execution.verdict ⟨test, result⟩ := by
  cases Loop.steps_of_step taken with
  | ready point =>
    left
    unfold verdicts at member ⊢
    cases ready : w.isReady <;> simpa [ready, spoken, point] using member
  | stop point =>
    left
    unfold verdicts at member ⊢
    cases stopped : w.stopped <;> simpa [stopped, spoken, point] using member
  | quit point stopped =>
    left
    unfold verdicts at member ⊢
    rcases List.mem_append.mp member with before | now
    · exact List.mem_append_left _ before
    · obtain rfl := List.mem_singleton.mp now
      exact List.mem_append_left _ (mem_of_decideFinalVerdict positive)
  | look point runs =>
    left
    simpa [verdicts, spoken, point] using member
  | found point on =>
    left
    simpa [verdicts, spoken, point] using member
  | skipped point off =>
    left
    have before := verdicts_after member positive
    simpa [verdicts, spoken, point] using before
  | unreadable point =>
    left
    simpa [verdicts, spoken, point] using member
  | @executed last ran rest results test result point =>
    unfold verdicts at member ⊢
    simp only [Loop.goto_verdicts, Loop.record_verdicts, Loop.goto_point, spoken, List.mem_append, List.mem_singleton] at member
    simp only [point, spoken, List.mem_append]
    rcases member with before | here | rfl
    · exact .inl (.inl before)
    · exact .inl (.inr here)
    · exact .inr ⟨test, result, rfl, rfl, rfl⟩
  | failed point =>
    left
    unfold verdicts at member ⊢
    simp only [Loop.goto_verdicts, Loop.goto_point, spoken, List.append_nil] at member
    exact List.mem_append_left _ member
  | batchDone point =>
    left
    have before := verdicts_after member positive
    simpa [verdicts, spoken, point] using before

/-! ### The verdicts of a run -/

/-- Every verdict that is on its way through the run is witnessed, and so is a printed `FALSE`. -/
def WitnessedAt (job : Job) (commands : List Command) : Run.Point → Prop
  | .processing _ loop => ∀ v ∈ verdicts loop, Witnessed job commands v
  | .harness result => Witnessed job commands result
  | .setStop result => Witnessed job commands result
  | .collect result => Witnessed job commands result
  | .persist result => Witnessed job commands result
  | .printed verdict _ => verdict = .FALSE → ∃ test, RanIntoError job commands test
  | _ => True

variable {commands more : List Command} {r next : Run.State} {s t : State}

theorem WitnessedAt.mono {point : Run.Point} (witnessed : WitnessedAt job commands point) (longer : commands <+: more) :
    WitnessedAt job more point := by
  cases point with
  | processing stage loop => exact fun v member => (witnessed v member).mono longer
  | harness result => exact Witnessed.mono witnessed longer
  | setStop result => exact Witnessed.mono witnessed longer
  | collect result => exact Witnessed.mono witnessed longer
  | persist result => exact Witnessed.mono witnessed longer
  | printed verdict escaped =>
    intro printed
    obtain ⟨test, ran⟩ := witnessed printed
    exact ⟨test, ran.mono longer⟩
  | _ => trivial

theorem witnessed_unknown : Witnessed job commands VerdictUnknown := fun positive => by cases positive

theorem witnessed_start (stage : Run.Stage) : WitnessedAt job commands (.processing stage Loop.start) := by
  intro v member
  simp [verdicts, spoken, Loop.start] at member

theorem witnessed_finish {result : Verdict} (witnessed : Witnessed job commands result) (raised : Option Raised) :
    WitnessedAt job commands (Run.finish args result raised) := by
  intro printed
  cases given : args.hasErrorMethod with
  | true =>
    rw [given, if_pos rfl] at printed
    obtain ⟨test, -, ran⟩ := witnessed (isPositive_iff.mpr printed)
    exact ⟨test, ran⟩
  | false =>
    rw [given] at printed
    cases printed

theorem witnessed_afterExecution {result : Verdict} (witnessed : Witnessed job commands result) :
    WitnessedAt job commands (Run.afterExecution args (some result)) := by
  rw [Run.afterExecution_some]
  split <;> exact witnessed

theorem witnessed_afterStage {result : Verdict} (witnessed : Witnessed job commands result) (stage : Run.Stage) :
    WitnessedAt job commands (Run.afterStage args result stage) := by
  cases stage with
  | kleeReplay =>
    unfold Run.afterStage Run.afterKlee
    dsimp only
    split
    · exact witnessed_start .execution
    · exact witnessed_afterExecution witnessed
  | execution => exact witnessed_afterExecution witnessed
  | continuous => exact witnessed_unknown

theorem witnessed_processInputs : WitnessedAt job commands (Run.processInputs args) := by
  unfold Run.processInputs Run.afterKlee Run.afterExecution
  split
  · exact witnessed_start .kleeReplay
  · split
    · exact witnessed_start .execution
    · split
      · exact witnessed_start .continuous
      · exact witnessed_unknown

theorem witnessed_afterGeneration {result : Verdict} (witnessed : Witnessed job commands result)
    (generation : Except Raised Bool) : WitnessedAt job commands (Run.afterGeneration args result generation) := by
  unfold Run.afterGeneration
  split
  · split
    · exact witnessed
    · exact witnessed_finish witnessed none
  · split
    · exact witnessed
    · exact witnessed_finish witnessed_unknown none
  · exact witnessed_finish witnessed _

theorem witnessed_withHarness {result : Verdict} (witnessed : Witnessed job commands result) :
    Witnessed job commands (Run.withHarness result) := by
  intro positive
  have same : (Run.withHarness result).testVector = result.testVector := by
    unfold Run.withHarness
    split <;> rfl
  rw [same]
  refine witnessed (isPositive_iff.mpr ?_)
  rw [← Run.withHarness_verdict]
  exact isPositive_iff.mp positive

theorem witnessed_tau (here : WitnessedAt job commands r.point) (taken : Run.step args r .tau = some next) :
    WitnessedAt job commands next.point := by
  cases point : r.point with
  | processing stage loop =>
    simp only [Run.step, point] at taken
    simp only [WitnessedAt, point] at here
    cases ended : loop.point with
    | returned result =>
      simp only [ended, Option.some.injEq] at taken
      subst taken
      exact witnessed_afterStage (here result (by simp [verdicts, ended, spoken])) stage
    | raised e =>
      simp only [ended, Option.some.injEq] at taken
      subst taken
      exact witnessed_finish witnessed_unknown _
    | _ => simp [ended] at taken
  | checkStop =>
    simp only [Run.step, point, Option.some.injEq] at taken
    subst taken
    simp only [Run.State.goto]
    split
    · exact witnessed_finish witnessed_unknown none
    · exact witnessed_processInputs
  | setStop result =>
    simp only [Run.step, point, Option.some.injEq] at taken
    rw [point] at here
    exact taken ▸ here
  | collect result =>
    simp only [Run.step, point, Option.some.injEq] at taken
    rw [point] at here
    subst taken
    exact witnessed_afterGeneration here _
  | _ =>
    simp only [Run.step, point] at taken
    repeat' split at taken
    all_goals cases taken
    all_goals first | trivial | exact witnessed_finish witnessed_unknown _

theorem witnessed_outcome {raised : Option Raised} (here : WitnessedAt job commands r.point)
    (taken : Run.step args r (.outcome raised) = some next) : WitnessedAt job commands next.point := by
  cases point : r.point with
  | prepare =>
    simp only [Run.step, point, Option.some.injEq] at taken
    subst taken
    cases raised with
    | none => trivial
    | some e => exact witnessed_finish witnessed_unknown _
  | harness result =>
    simp only [Run.step, point, Option.some.injEq] at taken
    rw [point] at here
    subst taken
    cases raised with
    | none => exact witnessed_withHarness here
    | some e => exact witnessed_finish witnessed_unknown _
  | persist result =>
    simp only [Run.step, point, Option.some.injEq] at taken
    rw [point] at here
    subst taken
    exact witnessed_finish here _
  | _ => simp [Run.step, point] at taken

theorem witnessed_run_step {l : Run.Label} (other : isExecution l = false) (here : WitnessedAt job commands r.point)
    (taken : Run.step args r l = some next) : WitnessedAt job commands next.point := by
  cases l with
  | outside o =>
    obtain ⟨w, -, rfl⟩ := Option.map_eq_some_iff.mp taken
    exact here
  | outcome raised => exact witnessed_outcome here taken
  | tau => exact witnessed_tau here taken
  | move m =>
    cases point : r.point with
    | processing stage loop =>
      simp only [Run.step, point, Option.map_eq_some_iff] at taken
      obtain ⟨after, moved, rfl⟩ := taken
      rw [point] at here
      intro v member positive
      rcases verdicts_of_step moved member positive with before | ⟨test, result, -, rfl, -⟩
      · exact here v before positive
      · cases other
    | _ => simp [Run.step, point] at taken

theorem witnessed_execute {stage : Run.Stage} {loop : Loop} {test : TestVector} {result : Except Raised (List Status)}
    {runner : Runners.State} (adds : Adds job s.runner test result runner) (here : WitnessedAt job s.runner.commands s.run.point)
    (point : s.run.point = .processing stage loop) (head : loop.point.rest.head? = some test)
    (taken : Run.step args s.run (.move (.execute result)) = some next) : WitnessedAt job runner.commands next.point := by
  simp only [Run.step, point, Option.map_eq_some_iff] at taken
  obtain ⟨after, moved, rfl⟩ := taken
  rw [point] at here
  intro v member positive
  rcases verdicts_of_step moved member positive with before | ⟨other, statuses, same, given, rfl⟩
  · exact (here v before).mono adds.longer positive
  · obtain rfl := Option.some.inj (head.symm.trans same)
    cases given
    have found := (verdict_isPositive ⟨test, statuses⟩).mp positive
    refine ⟨test, ?_, adds.error statuses rfl found⟩
    have searched : statuses.any (· == .FALSE) = true := by simpa using found
    simp [Execution.verdict, decideSingleVerdict, searched, VerdictFalse]

theorem witnessed_step {l : Label} (here : WitnessedAt job s.runner.commands s.run.point) (taken : step job args s l = some t) :
    WitnessedAt job t.runner.commands t.run.point := by
  cases steps_of_step taken with
  | run other moved =>
    rw [commands_enter]
    exact witnessed_run_step (Bool.or_eq_false_iff.mp other).1 here moved
  | persist point moved => exact (witnessed_outcome here moved).mono (longer_persist _ _ _ _)
  | @execute answers stage loop validates test next point on head moved =>
    cases stage with
    | continuous => cases on
    | kleeReplay =>
      obtain rfl := Option.some.inj on
      exact witnessed_execute (adds_replay answers s.runner test) here point head moved
    | execution =>
      obtain rfl := Option.some.inj on
      exact witnessed_execute (adds_execution answers s.runner test) here point head moved

/-- A printed `FALSE` is never spoken without a run of the program: there is a test that was replayed or executed, and
that run has written the text of the error method to stderr. -/
theorem false_is_witnessed {tests : List TestVector} {runner : Runners.State} {schedule : List Label}
    (reached : Transition.run (step job args) (start tests runner) schedule = some s) {escaped : Option Raised}
    (printed : s.run.point = .printed .FALSE escaped) : ∃ test, RanIntoError job s.runner.commands test := by
  have here : WitnessedAt job s.runner.commands s.run.point :=
    @run_invariant _ _ (step job args) (fun _ _ => True) (fun s => WitnessedAt job s.runner.commands s.run.point)
      (fun _ _ _ _ here taken => witnessed_step here taken) (start tests runner) s schedule
      (along_of_forall (fun _ _ => trivial) _ _) trivial reached
  rw [printed] at here
  exact here rfl

end

def failingTest : Answers := ⟨⟨0, some [0x7F]⟩, ⟨0, none⟩, ⟨1, [], errorOutput, none⟩⟩

/-- The one test of the run reaches the error method. -/
def errorSchedule : List Label :=
  [.run (.outcome none), .run .tau, .run .tau, .run .tau, .run (.outside (.write Run.harmlessTest)), .run (.move .tau),
    .run (.outside (.finish true)), .run (.move .tau), .run (.move (.poll (.ok [Run.harmlessTest]))), .execute failingTest,
    .run (.move .tau), .run (.move .tau), .run (.move .tau), .run (.move (.poll (.ok []))), .run (.move .tau), .run .tau,
    .run (.outcome none), .run .tau, .run .tau, .persist none failingTest]

theorem errorSchedule_witnessed : ∃ s, Transition.run (step ExecutionRunner.intJob Run.validating)
    (start [] ⟨none, none, none, []⟩) errorSchedule = some s ∧ s.run.point = .printed .FALSE none ∧
      ∃ test, RanIntoError ExecutionRunner.intJob s.runner.commands test := by
  have finished : (Transition.run (step ExecutionRunner.intJob Run.validating) (start [] ⟨none, none, none, []⟩)
      errorSchedule).any (fun s => s.run.point = .printed .FALSE none) = true := by decide
  obtain ⟨s, ran, printed⟩ := (Option.any_eq_true _ _).mp finished
  have printed := of_decide_eq_true printed
  exact ⟨s, ran, printed, @false_is_witnessed ExecutionRunner.intJob Run.validating s [] ⟨none, none, none, []⟩ errorSchedule
    ran none printed⟩

end Tbf.ValidatedRun
