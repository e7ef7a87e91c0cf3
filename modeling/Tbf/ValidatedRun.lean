import Tbf.Run
import Tbf.Runners

/-!
# A run with its runners

`run` of `tbf/__init__.py` once more. The results of the tests are not given here: they come from the runner that a
stage of `process_inputs` creates, which compiles, executes and looks at what was written to stderr. A successful test
is kept with its harness, and one more runner compiles that.
-/

namespace Tbf.ValidatedRun
open Text Harness ErrorSearch Transition Processing Runners

structure State where
  run : Run.State
  runner : Runners.State

/-- A step of the run, the execution of a test with the answers that gcc and the executable give, or the block that
keeps a successful test, with what its copies raise and the answers of gcc. -/
inductive Label where
  | run (l : Run.Label)
  | execute (answers : Answers)
  | persist (copied : Option Raised) (answers : Answers)

def isExecution : Run.Label → Bool
  | .move (.execute _) => true
  | _ => false

def isPersisting : Run.Point → Run.Label → Bool
  | .persist _, .outcome _ => true
  | _, _ => false

/-- What comes of a step is decided by a runner. -/
def isRunners (point : Run.Point) (l : Run.Label) : Bool := isExecution l || isPersisting point l

def stage : Run.Point → Option Run.Stage
  | .processing stage _ => some stage
  | _ => none

/-- The runner of a stage is new, in the work directory as it is. -/
def newRunner : Run.Stage → Runners.State → Runners.State
  | .kleeReplay, s => KleeReplayRunner.init s
  | .execution, s => { s with path := none }
  | .continuous, s => s

def enter (before after : Option Run.Stage) (s : Runners.State) : Runners.State :=
  if before = after then s
  else match after with
    | some stage => newRunner stage s
    | none => s

def validator (job : Job) : Run.Stage → Option Runners.Run
  | .kleeReplay => some (KleeReplayRunner.run job)
  | .execution => some (ExecutionRunner.run job)
  | .continuous => none

def getOutputPath (job : Job) (filename : Str) : Str := job.outputDir ++ '/' :: filename

/-- The harness that is kept is compiled outside the work directory, by a runner that measures no coverage. -/
def persist (job : Job) (processingResult : Verdict) (copied : Option Raised) (answers : Answers) (s : Runners.State) :
    Option Raised × Runners.State :=
  match copied, processingResult.harness with
  | some e, _ => (some e, s)
  | none, none => (none, s)
  | none, some _ =>
    match ExecutionRunner.compile { job with measureCoverage := false } job.programFile
      (getOutputPath job "harness.c".toList) (getOutputPath job "a.out".toList) answers s with
    | (.error e, t) => (some e, { s with commands := t.commands })
    | (.ok _, t) => (none, { s with commands := t.commands })

def step (job : Job) (args : Run.Args) (s : State) : Label → Option State
  | .run l =>
    if isRunners s.run.point l then none
    else (Run.step args s.run l).map fun next => ⟨next, enter (stage s.run.point) (stage next.point) s.runner⟩
  | .execute answers =>
    match s.run.point with
    | .processing stage loop =>
      match validator job stage, loop.point.rest.head? with
      | some validator, some test =>
        let (result, runner) := validator answers s.runner test
        (Run.step args s.run (.move (.execute result))).map fun next => ⟨next, runner⟩
      | _, _ => none
    | _ => none
  | .persist copied answers =>
    match s.run.point with
    | .persist processingResult =>
      let (raised, runner) := persist job processingResult copied answers s.runner
      (Run.step args s.run (.outcome raised)).map fun next => ⟨next, runner⟩
    | _ => none

inductive Steps (job : Job) (args : Run.Args) (s : State) : Label → State → Prop where
  | run {l : Run.Label} {next : Run.State} (other : isRunners s.run.point l = false) (taken : Run.step args s.run l = some next) :
    Steps job args s (.run l) ⟨next, enter (stage s.run.point) (stage next.point) s.runner⟩
  | execute {answers : Answers} {stage : Run.Stage} {loop : Loop} {validates : Runners.Run} {test : TestVector}
      {next : Run.State} (point : s.run.point = .processing stage loop) (on : validator job stage = some validates)
      (head : loop.point.rest.head? = some test)
      (taken : Run.step args s.run (.move (.execute (validates answers s.runner test).1)) = some next) :
    Steps job args s (.execute answers) ⟨next, (validates answers s.runner test).2⟩
  | persist {copied : Option Raised} {answers : Answers} {result : Verdict} {next : Run.State}
      (point : s.run.point = .persist result)
      (taken : Run.step args s.run (.outcome (persist job result copied answers s.runner).1) = some next) :
    Steps job args s (.persist copied answers) ⟨next, (persist job result copied answers s.runner).2⟩

section
variable {job : Job} {args : Run.Args} {s t : State}

theorem steps_of_step {l : Label} (taken : step job args s l = some t) : Steps job args s l t := by
  cases l with
  | run l =>
    simp only [step] at taken
    cases other : isRunners s.run.point l with
    | true => simp [other] at taken
    | false =>
      rw [other, if_neg (by decide), Option.map_eq_some_iff] at taken
      obtain ⟨next, moved, rfl⟩ := taken
      exact .run other moved
  | execute answers =>
    simp only [step] at taken
    cases point : s.run.point with
    | processing stage loop =>
      simp only [point] at taken
      cases on : validator job stage with
      | none => simp [on] at taken
      | some validates =>
        cases head : loop.point.rest.head? with
        | none => simp [on, head] at taken
        | some test =>
          simp only [on, head, Option.map_eq_some_iff] at taken
          obtain ⟨next, moved, rfl⟩ := taken
          exact .execute point on head moved
    | _ => simp [point] at taken
  | persist copied answers =>
    simp only [step] at taken
    cases point : s.run.point with
    | persist result =>
      simp only [point, Option.map_eq_some_iff] at taken
      obtain ⟨next, moved, rfl⟩ := taken
      exact .persist point moved
    | _ => simp [point] at taken

/-- What the system promises: the conditions of `Run.Clean` on the steps that no runner decides, and on executions only
that gcc writes what it succeeds with and that no tested program replaces the executable. -/
def Clean (s : State) : Label → Prop
  | .run l => Run.Clean s.run l
  | .execute answers => answers.gnu11.Honest s.runner.executable ∧ answers.gnu90.Honest answers.gnu11.executable ∧
    answers.child.Quiet
  | .persist _ _ => True

instance (s : State) : ∀ l, Decidable (Clean s l)
  | .run l => inferInstanceAs (Decidable (Run.Clean s.run l))
  | .execute answers => inferInstanceAs (Decidable (answers.gnu11.Honest s.runner.executable ∧
    answers.gnu90.Honest answers.gnu11.executable ∧ answers.child.Quiet))
  | .persist _ _ => .isTrue trivial

end

/-! ### What the steps of the run leave alone -/

section
variable {args : Run.Args} {s t : Run.State}

theorem executing_eq_some {point : Run.Point} {loop : Loop} :
    point.executing = some loop ↔ point = .processing .execution loop := by
  cases point with
  | processing stage other => cases stage <;> simp [Run.Point.executing]
  | _ => simp [Run.Point.executing]

/-- Only the end of the stage that executes tests writes down what has been executed. -/
theorem executed_of_tau (taken : Run.step args s .tau = some t) :
    t.executed = s.executed ∨ ∃ loop, s.point.executing = some loop ∧ t.executed = loop.executed := by
  cases point : s.point with
  | processing stage loop =>
    simp only [Run.step, point] at taken
    cases ended : loop.point with
    | returned result =>
      simp only [ended, Option.some.injEq] at taken
      subst taken
      cases stage with
      | execution => exact .inr ⟨loop, rfl, rfl⟩
      | kleeReplay => exact .inl rfl
      | continuous => exact .inl rfl
    | raised e =>
      simp only [ended, Option.some.injEq] at taken
      exact .inl (taken ▸ rfl)
    | _ => simp [ended] at taken
  | _ =>
    refine .inl ?_
    simp only [Run.step, point] at taken
    repeat' split at taken
    all_goals cases taken
    all_goals rfl

theorem executed_of_run_step {l : Run.Label} (taken : Run.step args s l = some t) :
    t.executed = s.executed ∨ ∃ loop, s.point.executing = some loop ∧ t.executed = loop.executed := by
  cases l with
  | outside o =>
    obtain ⟨w, -, rfl⟩ := Option.map_eq_some_iff.mp taken
    exact .inl rfl
  | outcome raised =>
    refine .inl ?_
    cases point : s.point <;> simp only [Run.step, point, Option.some.injEq, reduceCtorEq] at taken
    all_goals exact taken ▸ rfl
  | move m =>
    cases point : s.point with
    | processing stage loop =>
      simp only [Run.step, point, Option.map_eq_some_iff] at taken
      obtain ⟨next, -, rfl⟩ := taken
      exact .inl rfl
    | _ => simp [Run.step, point] at taken
  | tau => exact executed_of_tau taken

theorem executing_conclude (result : Option Verdict) : (Run.conclude result).executing = none := by
  cases result with
  | none => rfl
  | some result =>
    simp only [Run.conclude]
    split <;> rfl

theorem executing_afterExecution (result : Option Verdict) : (Run.afterExecution args result).executing = none := by
  unfold Run.afterExecution
  split
  · rfl
  · exact executing_conclude result

theorem executing_afterKlee {result : Option Verdict} {loop : Loop}
    (executing : (Run.afterKlee args result).executing = some loop) : loop = Loop.start := by
  unfold Run.afterKlee at executing
  split at executing
  · exact (Option.some.inj executing).symm
  · rw [executing_afterExecution] at executing
    cases executing

theorem executing_processInputs {loop : Loop} (executing : (Run.processInputs args).executing = some loop) :
    loop = Loop.start := by
  unfold Run.processInputs at executing
  split at executing
  · cases executing
  · exact executing_afterKlee executing

/-- The stage that executes tests is entered with nothing executed, and never from itself. -/
theorem executing_of_tau {loop : Loop} (taken : Run.step args s .tau = some t) (executing : t.point.executing = some loop) :
    s.point.executing = none ∧ loop = Loop.start := by
  cases point : s.point with
  | processing stage other =>
    simp only [Run.step, point] at taken
    cases ended : other.point with
    | returned result =>
      simp only [ended, Option.some.injEq] at taken
      subst taken
      cases stage with
      | kleeReplay => exact ⟨rfl, executing_afterKlee executing⟩
      | execution =>
        rw [Run.afterStage, executing_afterExecution] at executing
        cases executing
      | continuous =>
        rw [Run.afterStage, executing_conclude] at executing
        cases executing
    | raised e =>
      simp only [ended, Option.some.injEq] at taken
      subst taken
      cases executing
    | _ => simp [ended] at taken
  | checkStop =>
    simp only [Run.step, point, Option.some.injEq] at taken
    subst taken
    refine ⟨rfl, ?_⟩
    simp only [Run.State.goto] at executing
    split at executing
    · cases executing
    · exact executing_processInputs executing
  | collect result =>
    simp only [Run.step, point, Option.some.injEq] at taken
    subst taken
    simp only [Run.State.goto, Run.afterGeneration] at executing
    repeat' split at executing
    all_goals cases executing
  | _ =>
    simp only [Run.step, point] at taken
    repeat' split at taken
    all_goals cases taken
    all_goals cases executing

theorem executing_of_run_step {l : Run.Label} {loop : Loop} (other : isExecution l = false)
    (taken : Run.step args s l = some t) (executing : t.point.executing = some loop) :
    (∃ before, s.point.executing = some before ∧ loop.executed = before.executed) ∨
      s.point.executing = none ∧ loop = Loop.start := by
  cases l with
  | outside o =>
    obtain ⟨w, -, rfl⟩ := Option.map_eq_some_iff.mp taken
    exact .inl ⟨loop, executing, rfl⟩
  | outcome raised =>
    cases point : s.point <;> simp only [Run.step, point, Option.some.injEq, reduceCtorEq] at taken
    all_goals
      subst taken
      cases raised <;> cases executing
  | move m =>
    cases point : s.point with
    | processing stage before =>
      simp only [Run.step, point, Option.map_eq_some_iff] at taken
      obtain ⟨next, moved, rfl⟩ := taken
      cases stage with
      | execution =>
        obtain rfl := Option.some.inj executing
        refine .inl ⟨before, rfl, ?_⟩
        rcases Loop.executed_of_step moved with same | ⟨test, result, rfl, -⟩
        · exact same
        · cases other
      | kleeReplay => cases executing
      | continuous => cases executing
    | _ => simp [Run.step, point] at taken
  | tau => exact .inr (executing_of_tau taken executing)

/-- The test that an execution is about, and where its result is written down. -/
theorem executed_of_execute {stage : Run.Stage} {loop : Loop} {test : TestVector} {result : Except Raised (List Status)}
    (point : s.point = .processing stage loop) (head : loop.point.rest.head? = some test)
    (taken : Run.step args s (.move (.execute result)) = some t) :
    t.executed = s.executed ∧ ∃ next, t.point = .processing stage next ∧
      next.executed = loop.executed ++ (result.toOption.map (Execution.mk test)).toList := by
  simp only [Run.step, point, Option.map_eq_some_iff] at taken
  obtain ⟨next, moved, rfl⟩ := taken
  refine ⟨rfl, next, rfl, ?_⟩
  cases Loop.steps_of_step moved with
  | @executed last ran rest results other result here =>
    simp only [here, Point.rest, List.head?_cons, Option.some.injEq] at head
    subst head
    rfl
  | failed here => simp [Except.toOption]

end

/-! ### What was executed -/

section
variable {job : Job} {args : Run.Args} {s t : State}

/-- The executable was run on the values of the test, and the result is what it has written to stderr. -/
def Recorded (job : Job) (binary : Bytes) (commands : List Command) (x : Execution) : Prop :=
  ∃ input ended, ExecutionRunner.stdin x.test job.inherited = .ok input ∧
    .child (ExecutionRunner.abspath job "a.out".toList) none input binary ended ∈ commands ∧
    checkResult ended.result = .ok x.result

theorem Recorded.mono {binary : Bytes} {commands more : List Command} {x : Execution} (recorded : Recorded job binary commands x)
    (longer : commands <+: more) : Recorded job binary more x := by
  obtain ⟨input, ended, made, member, judged⟩ := recorded
  exact ⟨input, ended, made, longer.subset member, judged⟩

/-- The runner of the stage that executes tests: a new one, or one that has run all of them on one executable. -/
inductive Serves (job : Job) (runner : Runners.State) (executed : List Execution) : Prop where
  | new (path : runner.path = none) (none : executed = [])
  | settled {binary : Bytes} (keeps : ExecutionRunner.Keeps job runner (some binary)) (all : ∀ x ∈ executed, Recorded job binary runner.commands x)

structure Logged (job : Job) (s : State) : Prop where
  executed : ∃ binary, ∀ x ∈ s.run.executed, Recorded job binary s.runner.commands x
  executing : ∀ loop, s.run.point.executing = some loop → Serves job s.runner loop.executed

theorem Serves.recorded {runner : Runners.State} {executed : List Execution} (serves : Serves job runner executed) :
    ∃ binary, ∀ x ∈ executed, Recorded job binary runner.commands x := by
  cases serves with
  | new _ none => exact ⟨[], by simp [none]⟩
  | settled _ all => exact ⟨_, all⟩

theorem enter_self (stage : Option Run.Stage) (runner : Runners.State) : enter stage stage runner = runner := by
  unfold enter
  rw [if_pos rfl]

theorem commands_enter (before after : Option Run.Stage) (runner : Runners.State) :
    (enter before after runner).commands = runner.commands := by
  unfold enter
  split
  · rfl
  · cases after with
    | none => rfl
    | some stage => cases stage <;> rfl

theorem stage_of_executing {point : Run.Point} {loop : Loop} (executing : point.executing = some loop) :
    stage point = some .execution := by
  rw [executing_eq_some.mp executing, stage]

theorem logged_run {l : Run.Label} {next : Run.State} (logged : Logged job s) (other : isExecution l = false)
    (taken : Run.step args s.run l = some next) :
    Logged job ⟨next, enter (stage s.run.point) (stage next.point) s.runner⟩ := by
  refine ⟨?_, ?_⟩
  · simp only [commands_enter]
    rcases executed_of_run_step taken with same | ⟨loop, executing, same⟩
    · rw [same]
      exact logged.executed
    · rw [same]
      exact (logged.executing loop executing).recorded
  · intro loop executing
    have here := stage_of_executing executing
    simp only [here]
    rcases executing_of_run_step other taken executing with ⟨before, there, same⟩ | ⟨there, rfl⟩
    · rw [stage_of_executing there, enter_self, same]
      exact logged.executing before there
    · have apart : stage s.run.point ≠ some .execution := by
        intro same
        cases point : s.run.point with
        | processing stage loop =>
          simp only [point, ValidatedRun.stage, Option.some.injEq] at same
          subst same
          simp [point, Run.Point.executing] at there
        | _ => simp [point, stage] at same
      rw [enter, if_neg apart]
      exact .new rfl rfl

theorem ran_of_checkResult {runResult : ExecutionResult} {result : List Status} (checked : checkResult runResult = .ok result) :
    .ERROR ∉ result := by
  unfold checkResult at checked
  cases found : foundErr runResult with
  | error e => simp [found, bind, Except.bind] at checked
  | ok b => cases b <;> simp [found, bind, Except.bind, pure, Except.pure] at checked <;> simp [← checked]

theorem judged_ok {test : TestVector × Answers} {result : List Status} (judged : ExecutionRunner.judge job test = .ok result) :
    ∃ input, ExecutionRunner.stdin test.1 job.inherited = .ok input ∧ checkResult test.2.child.result = .ok result := by
  unfold ExecutionRunner.judge at judged
  cases read : ExecutionRunner.stdin test.1 job.inherited with
  | error e => simp [read, bind, Except.bind] at judged
  | ok input => exact ⟨input, rfl, by simpa [read, bind, Except.bind] using judged⟩

/-- What an execution leaves: the runner has run one test more, or has not changed. -/
structure Serving (job : Job) (before : Runners.State) (executed : List Execution) (test : TestVector)
    (result : Except Raised (List Status)) (after : Runners.State) : Prop where
  serves : Serves job after (executed ++ (result.toOption.map (Execution.mk test)).toList)
  longer : before.commands <+: after.commands
  ran : ∀ statuses, result = .ok statuses → .ERROR ∉ statuses

theorem serving_settled {runner : Runners.State} {executed : List Execution} {binary : Bytes} {answers : Answers}
    (keeps : ExecutionRunner.Keeps job runner (some binary))
    (all : ∀ x ∈ executed, Recorded job binary runner.commands x) (quiet : answers.child.Quiet) (test : TestVector) :
    Serving job runner executed test (ExecutionRunner.run job answers runner test).1
      (ExecutionRunner.run job answers runner test).2 := by
  have same := @ExecutionRunner.run_settled job runner binary keeps.1 keeps.2 (test, answers) quiet
  rw [same]
  have longer : runner.commands <+: (runner.log (ExecutionRunner.calls job binary (test, answers))).commands := List.prefix_append _ _
  have before : ∀ x ∈ executed, Recorded job binary (runner.log (ExecutionRunner.calls job binary (test, answers))).commands x :=
    fun x member => (all x member).mono longer
  cases judged : ExecutionRunner.judge job (test, answers) with
  | error e =>
    refine ⟨.settled keeps ?_, longer, fun statuses wrong => by cases wrong⟩
    simpa [Except.toOption] using before
  | ok result =>
    obtain ⟨input, read, checked⟩ := judged_ok judged
    refine ⟨.settled keeps ?_, longer, fun statuses same => ?_⟩
    · intro x member
      rcases List.mem_append.mp member with there | now
      · exact before x there
      · simp only [Except.toOption, Option.map_some, Option.toList_some, List.mem_singleton] at now
        subst now
        refine ⟨input, answers.child, read, ?_, checked⟩
        simp [ExecutionRunner.calls, read]
    · obtain rfl := Except.ok.inj same
      exact ran_of_checkResult checked

theorem serving_of_serves {runner : Runners.State} {executed : List Execution} {answers : Answers}
    (serves : Serves job runner executed) (first : answers.gnu11.Honest runner.executable)
    (second : answers.gnu90.Honest answers.gnu11.executable) (quiet : answers.child.Quiet) (test : TestVector) :
    Serving job runner executed test (ExecutionRunner.run job answers runner test).1
      (ExecutionRunner.run job answers runner test).2 := by
  cases serves with
  | settled keeps all => exact serving_settled keeps all quiet test
  | new path none =>
    subst none
    cases made : HarnessCreator.createHarness job.nondetMethods job.errorMethod none with
    | error e =>
      rw [ExecutionRunner.run_unmade path made]
      exact ⟨.new path rfl, List.prefix_refl _, fun statuses wrong => by cases wrong⟩
    | ok content =>
      obtain ⟨compiles, built, t, -, keeps, commands, -, here⟩ := ExecutionRunner.run_compiles path made first second
      have longer : runner.commands <+: t.commands := commands ▸ List.prefix_append _ _
      cases built with
      | none =>
        rw [here test]
        exact ⟨.new keeps rfl, longer, fun statuses wrong => by cases wrong⟩
      | some binary =>
        rw [here test]
        obtain ⟨serves, more, ran⟩ := @serving_settled job t [] binary answers keeps (by simp) quiet test
        exact ⟨serves, longer.trans more, ran⟩

theorem longer_replay (answers : Answers) (runner : Runners.State) (test : TestVector) :
    runner.commands <+: (KleeReplayRunner.run job answers runner test).2.commands := by
  have prepared : runner.commands <+: (KleeReplayRunner.prepare job answers runner).commands := by
    unfold KleeReplayRunner.prepare
    cases runner.path with
    | some path => exact List.prefix_refl _
    | none => exact List.prefix_append _ _
  simp only [KleeReplayRunner.run]
  cases (KleeReplayRunner.prepare job answers runner).executable with
  | none => exact prepared
  | some binary => exact prepared.trans (List.prefix_append _ _)

/-- The harness that is kept is compiled behind everything else, and nothing in the work directory changes. -/
theorem longer_persist (result : Verdict) (copied : Option Raised) (answers : Answers) (runner : Runners.State) :
    runner.commands <+: (persist job result copied answers runner).2.commands := by
  unfold persist ExecutionRunner.compile
  cases copied with
  | some e => exact List.prefix_refl _
  | none =>
    cases result.harness with
    | none => exact List.prefix_refl _
    | some harness =>
      by_cases succeeds : answers.gnu11.returncode = 0
      · simp [succeeds]
      · by_cases again : answers.gnu90.returncode = 0 <;> simp [succeeds, again]

/-- The block that keeps a successful test is the last one of a run. -/
theorem printed_of_persist {result : Verdict} {raised : Option Raised} {r next : Run.State} (point : r.point = .persist result)
    (taken : Run.step args r (.outcome raised) = some next) : next = r.goto (Run.finish args result raised) := by
  simp only [Run.step, point, Option.some.injEq] at taken
  exact taken.symm

theorem logged_step {l : Label} (clean : Clean s l) (logged : Logged job s) (taken : step job args s l = some t) : Logged job t := by
  cases steps_of_step taken with
  | run other moved => exact logged_run logged (Bool.or_eq_false_iff.mp other).1 moved
  | @persist copied answers result next point moved =>
    obtain rfl := printed_of_persist point moved
    obtain ⟨binary, before⟩ := logged.executed
    refine ⟨⟨binary, fun x member => ?_⟩, fun loop executing => by cases executing⟩
    exact (before x member).mono (longer_persist result copied answers s.runner)
  | @execute answers stage loop validates test next point on head moved =>
    obtain ⟨first, second, quiet⟩ := clean
    obtain ⟨same, after, there, executed⟩ := executed_of_execute point head moved
    obtain ⟨binary, before⟩ := logged.executed
    cases stage with
    | continuous => cases on
    | kleeReplay =>
      obtain rfl := Option.some.inj on
      refine ⟨⟨binary, fun x member => ?_⟩, fun loop executing => ?_⟩
      · rw [same] at member
        exact (before x member).mono (longer_replay answers s.runner test)
      · simp [there, Run.Point.executing] at executing
    | execution =>
      obtain rfl := Option.some.inj on
      have serves := logged.executing loop (executing_eq_some.mpr point)
      have serving := serving_of_serves serves first second quiet test
      refine ⟨⟨binary, fun x member => ?_⟩, fun next executing => ?_⟩
      · rw [same] at member
        exact (before x member).mono serving.longer
      · obtain rfl := Run.Point.processing.inj (there.symm.trans (executing_eq_some.mp executing)) |>.2
        rw [executed]
        exact serving.serves

/-- Every step is one of the run, which goes right by the conditions of `Run.Clean` because a runner never
answers that there is no executable. -/
theorem run_of_step {l : Label} (clean : Clean s l) (logged : Logged job s) (taken : step job args s l = some t) :
    ∃ moved, Run.Clean s.run moved ∧ Run.step args s.run moved = some t.run := by
  cases steps_of_step taken with
  | @run other next _ moved => exact ⟨other, clean, moved⟩
  | @persist copied answers result next point moved => exact ⟨.outcome _, trivial, moved⟩
  | @execute answers stage loop validates test next point on head moved =>
    refine ⟨.move (.execute (validates answers s.runner test).1), fun executing here => ⟨trivial, ?_⟩, moved⟩
    cases (executing_eq_some.mp here).symm.trans point
    obtain rfl := Option.some.inj on
    have serves := logged.executing _ here
    have serving := serving_of_serves serves clean.1 clean.2.1 clean.2.2 test
    cases result : (ExecutionRunner.run job answers s.runner test).1 with
    | error e => trivial
    | ok statuses => exact serving.ran statuses result

def start (tests : List TestVector) (runner : Runners.State) : State := ⟨Run.start tests, runner⟩

structure Inv (job : Job) (args : Run.Args) (s : State) : Prop where
  run : Run.Inv args s.run
  logged : Logged job s

theorem inv_start {tests : List TestVector} (unique : (names tests).Nodup) (runner : Runners.State) :
    Inv job args (start tests runner) where
  run := Run.inv_start unique
  logged := ⟨⟨[], by simp [start, Run.start]⟩, fun loop executing => by cases executing⟩

theorem inv_step {l : Label} (validated : args.executionValidation = true) (clean : Clean s l) (inv : Inv job args s)
    (taken : step job args s l = some t) : Inv job args t := by
  obtain ⟨moved, allowed, here⟩ := run_of_step clean inv.logged taken
  exact ⟨Run.inv_step validated allowed inv.run here, logged_step clean inv.logged taken⟩

/-- A test that was run and whose stderr, a text, does not hold the text of the error method. -/
def RunQuietly (job : Job) (binary : Bytes) (commands : List Command) (test : TestVector) : Prop :=
  ∃ input ended, ExecutionRunner.stdin test job.inherited = .ok input ∧
    .child (ExecutionRunner.abspath job "a.out".toList) none input binary ended ∈ commands ∧
    ∃ text, decode ended.errOutput = some text ∧ ¬ ERROR_STRING <:+: text

theorem quiet_of_checkResult {ended : Child} {result : List Status} (checked : checkResult ended.result = .ok result)
    (quiet : .FALSE ∉ result) : ∃ text, decode ended.errOutput = some text ∧ ¬ ERROR_STRING <:+: text := by
  unfold checkResult Child.result at checked
  rw [foundErr_executionResult] at checked
  cases decoded : decode ended.errOutput with
  | none => simp [decoded, bind, Except.bind] at checked
  | some text =>
    refine ⟨text, rfl, fun found => quiet ?_⟩
    simp only [decoded, found, decide_true, bind, Except.bind, if_true, pure, Except.pure, Except.ok.injEq] at checked
    exact checked ▸ List.mem_singleton_self _

/-- A printed `TRUE` with nothing assumed of the results: the executable, one and the same, was run on the values of
every test there is, and no run has written the text of the error method. -/
theorem true_is_executed {tests : List TestVector} {runner : Runners.State} {schedule : List Label}
    (validated : args.executionValidation = true) (unique : (names tests).Nodup)
    (clean : Along (step job args) Clean (start tests runner) schedule)
    (reached : Transition.run (step job args) (start tests runner) schedule = some s) (escaped : Option Raised)
    (printed : s.run.point = .printed .TRUE escaped) :
    (args.existingTestsDir = false → s.run.world.generator = .returned true) ∧
      ∃ binary, ∀ test ∈ s.run.world.directory, RunQuietly job binary s.runner.commands test := by
  have inv : Inv job args s := run_invariant (Inv job args) (fun _ _ _ clean inv taken => inv_step validated clean inv taken)
    clean (inv_start unique runner) reached
  have here := inv.run.here
  simp only [Run.AtPoint, printed, true_implies] at here
  obtain ⟨generated, verified⟩ := here
  obtain ⟨binary, recorded⟩ := inv.logged.executed
  refine ⟨generated, binary, fun test member => ?_⟩
  obtain ⟨x, ran, rfl⟩ := verified.complete test member
  obtain ⟨input, ended, made, logged, checked⟩ := recorded x ran
  exact ⟨input, ended, made, logged, quiet_of_checkResult checked (verified.quiet x ran)⟩

end

/-- The schedule of a run in parallel whose one test exits. -/
def quietSchedule : List Label :=
  [.run (.outcome none), .run .tau, .run .tau, .run .tau, .run (.outside (.write Run.harmlessTest)), .run (.move .tau),
    .run (.outside (.finish true)), .run (.move .tau), .run (.move (.poll (.ok [Run.harmlessTest]))),
    .execute ExecutionRunner.olderStandard, .run (.move .tau), .run (.move .tau), .run (.move .tau),
    .run (.move (.poll (.ok []))), .run (.move .tau), .run .tau, .run .tau, .run .tau]

theorem quietSchedule_executed : ∃ s, Transition.run (step ExecutionRunner.intJob Run.validating)
    (start [] ⟨none, none, none, []⟩) quietSchedule = some s ∧ s.run.world.directory = [Run.harmlessTest] ∧
      ∃ binary, ∀ test ∈ s.run.world.directory, RunQuietly ExecutionRunner.intJob binary s.runner.commands test := by
  have finished : (Transition.run (step ExecutionRunner.intJob Run.validating) (start [] ⟨none, none, none, []⟩)
      quietSchedule).any (fun s => s.run.point = .printed .TRUE none ∧ s.run.world.directory = [Run.harmlessTest]) = true := by
    decide
  obtain ⟨s, ran, known⟩ := (Option.any_eq_true _ _).mp finished
  obtain ⟨printed, directory⟩ := of_decide_eq_true known
  exact ⟨s, ran, directory, (@true_is_executed ExecutionRunner.intJob Run.validating s [] ⟨none, none, none, []⟩ quietSchedule
    (by decide) (by decide) (by decide) ran none printed).2⟩

end Tbf.ValidatedRun
