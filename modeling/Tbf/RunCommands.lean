import Tbf.FalseVerdict

/-!
# The commands of a run

When gcc is called in a run and what is executed between its calls, whatever gcc and the tested program do.
-/

namespace Tbf.ValidatedRun
open Text Transition Processing Runners

section
variable {job : Job} {args : Run.Args} {s t : State}

/-- An execution of KLEE's replay, on the file of a test. -/
def IsReplay (job : Job) (c : Command) : Prop :=
  ∃ ktestFile binary ended, c = .child KleeReplayRunner.EXECUTABLE_NAME (some ktestFile) (childStdin none job.inherited) binary ended

/-- An execution of the harness, on the values of a test. -/
def IsExecution (job : Job) (c : Command) : Prop :=
  ∃ input binary ended, c = .child (ExecutionRunner.abspath job "a.out".toList) none input binary ended

/-- gcc is called once for the replay, before all executions, and never for the older standard. -/
inductive Replays (job : Job) : List Command → Prop where
  | none : Replays job []
  | compiled {commands : List Command} (each : ∀ c ∈ commands, IsReplay job c) :
    Replays job (.gcc (KleeReplayRunner.getCompileCmd job "gnu11".toList) :: commands)

def compileHarness (job : Job) (cVersion : Str) : Command :=
  .gcc (ExecutionRunner.getCompileCmd job job.programFile "harness.c".toList "a.out".toList cVersion)

inductive Executions (job : Job) : List Command → Prop where
  | none : Executions job []
  | gnu11 {commands : List Command} (each : ∀ c ∈ commands, IsExecution job c) :
    Executions job (compileHarness job "gnu11".toList :: commands)
  | gnu90 {commands : List Command} (each : ∀ c ∈ commands, IsExecution job c) :
    Executions job (compileHarness job "gnu11".toList :: compileHarness job "gnu90".toList :: commands)

def compileKept (job : Job) (cVersion : Str) : Command :=
  .gcc (ExecutionRunner.getCompileCmd { job with measureCoverage := false } job.programFile
    (getOutputPath job "harness.c".toList) (getOutputPath job "a.out".toList) cVersion)

/-- gcc is called for the harness that is kept. -/
inductive Keeping (job : Job) : List Command → Prop where
  | none : Keeping job []
  | gnu11 : Keeping job [compileKept job "gnu11".toList]
  | gnu90 : Keeping job [compileKept job "gnu11".toList, compileKept job "gnu90".toList]

theorem Replays.append {commands more : List Command} (replays : Replays job commands) (some : commands ≠ [])
    (each : ∀ c ∈ more, IsReplay job c) : Replays job (commands ++ more) := by
  cases replays with
  | none => exact absurd rfl some
  | compiled before => exact .compiled (List.forall_mem_append.mpr ⟨before, each⟩)

theorem Executions.append {commands more : List Command} (executions : Executions job commands) (some : commands ≠ [])
    (each : ∀ c ∈ more, IsExecution job c) : Executions job (commands ++ more) := by
  cases executions with
  | none => exact absurd rfl some
  | gnu11 before => exact .gnu11 (List.forall_mem_append.mpr ⟨before, each⟩)
  | gnu90 before => exact .gnu90 (List.forall_mem_append.mpr ⟨before, each⟩)

/-! ### The commands of one test -/

theorem replay_kept {runner : Runners.State} (kept : runner.path = some KleeReplayRunner.EXECUTABLE_NAME) (answers : Answers)
    (test : TestVector) : ∃ more, (KleeReplayRunner.run job answers runner test).2.commands = runner.commands ++ more ∧
      (∀ c ∈ more, IsReplay job c) ∧
      (KleeReplayRunner.run job answers runner test).2.path = some KleeReplayRunner.EXECUTABLE_NAME := by
  simp only [KleeReplayRunner.run, KleeReplayRunner.prepare_kept kept]
  cases runner.executable with
  | none => exact ⟨[], (List.append_nil _).symm, by simp, kept⟩
  | some binary => exact ⟨_, rfl, by simp [kept, IsReplay], kept⟩

theorem replay_new {runner : Runners.State} (new : runner.path = none) (answers : Answers) (test : TestVector) :
    ∃ more, (KleeReplayRunner.run job answers runner test).2.commands =
        runner.commands ++ .gcc (KleeReplayRunner.getCompileCmd job "gnu11".toList) :: more ∧
      (∀ c ∈ more, IsReplay job c) ∧
      (KleeReplayRunner.run job answers runner test).2.path = some KleeReplayRunner.EXECUTABLE_NAME := by
  rw [KleeReplayRunner.run_prepared new]
  have prepared := @KleeReplayRunner.prepare_new job runner answers new
  obtain ⟨more, commands, each, path⟩ := @replay_kept job (KleeReplayRunner.prepare job answers runner) (by rw [prepared])
    answers test
  refine ⟨more, ?_, each, path⟩
  rw [commands, prepared]
  simp

theorem execution_kept {runner : Runners.State}
    (kept : runner.path = some (ExecutionRunner.abspath job "a.out".toList)) (answers : Answers) (test : TestVector) :
    ∃ more, (ExecutionRunner.run job answers runner test).2.commands = runner.commands ++ more ∧
      (∀ c ∈ more, IsExecution job c) ∧
      (ExecutionRunner.run job answers runner test).2.path = some (ExecutionRunner.abspath job "a.out".toList) := by
  simp only [ExecutionRunner.run, ExecutionRunner.getExecutableHarness, kept]
  cases ExecutionRunner.stdin test job.inherited with
  | error e => exact ⟨[], (List.append_nil _).symm, by simp, kept⟩
  | ok input =>
    cases runner.executable with
    | none => exact ⟨[], (List.append_nil _).symm, by simp, kept⟩
    | some binary => exact ⟨_, rfl, by simp [IsExecution], kept⟩

theorem getExecutableHarness_commands {runner : Runners.State} (new : runner.path = none) (answers : Answers) :
    ∃ compiles t, Executions job compiles ∧ t.commands = runner.commands ++ compiles ∧
      ((∃ e, ExecutionRunner.getExecutableHarness job answers runner = (.error e, t)) ∨
        compiles ≠ [] ∧ t.path = some (ExecutionRunner.abspath job "a.out".toList) ∧
          ExecutionRunner.getExecutableHarness job answers runner = (.ok (ExecutionRunner.abspath job "a.out".toList), t)) := by
  unfold ExecutionRunner.getExecutableHarness ExecutionRunner.createExecutableHarness ExecutionRunner.compile
  simp only [new]
  cases HarnessCreator.createHarness job.nondetMethods job.errorMethod none with
  | error e => exact ⟨[], runner, .none, (List.append_nil _).symm, .inl ⟨e, rfl⟩⟩
  | ok content =>
    by_cases succeeds : answers.gnu11.returncode = 0
    · simp only [succeeds, ne_eq, not_true_eq_false, if_false]
      exact ⟨_, _, .gnu11 (fun c member => by cases member), rfl, .inr ⟨List.cons_ne_nil _ _, rfl, rfl⟩⟩
    · simp only [succeeds, ne_eq, not_false_eq_true, if_true]
      by_cases again : answers.gnu90.returncode = 0
      · simp only [again, not_true_eq_false, if_false]
        refine ⟨_, _, @Executions.gnu90 job [] (by simp), ?_, .inr ⟨List.cons_ne_nil _ _, rfl, rfl⟩⟩
        simp [compileHarness]
      · simp only [again, not_false_eq_true, if_true]
        refine ⟨_, _, @Executions.gnu90 job [] (by simp), ?_, .inl ⟨_, rfl⟩⟩
        simp [compileHarness]

/-- The first test of the stage: gcc is called at most twice, and where no executable comes of it the run ends. -/
theorem execution_new {runner : Runners.State} (new : runner.path = none) (answers : Answers) (test : TestVector) :
    ∃ executions, Executions job executions ∧
      (ExecutionRunner.run job answers runner test).2.commands = runner.commands ++ executions ∧
      ((∃ e, (ExecutionRunner.run job answers runner test).1 = .error e) ∨
        executions ≠ [] ∧
          (ExecutionRunner.run job answers runner test).2.path = some (ExecutionRunner.abspath job "a.out".toList)) := by
  obtain ⟨compiles, t, story, commands, compiled⟩ := @getExecutableHarness_commands job runner new answers
  rcases compiled with ⟨e, failed⟩ | ⟨some, kept, compiled⟩
  · refine ⟨compiles, story, ?_, .inl ⟨e, ?_⟩⟩ <;> simp only [ExecutionRunner.run, failed]
    exact commands
  · rw [ExecutionRunner.run_new compiled kept test]
    obtain ⟨more, behind, each, path⟩ := execution_kept kept answers test
    refine ⟨compiles ++ more, story.append some each, ?_, .inr ⟨List.append_ne_nil_of_left_ne_nil some _, path⟩⟩
    rw [behind, commands, List.append_assoc]

theorem persist_commands (result : Verdict) (copied : Option Raised) (answers : Answers) (runner : Runners.State) :
    ∃ keeping, Keeping job keeping ∧ (persist job result copied answers runner).2.commands = runner.commands ++ keeping := by
  unfold persist ExecutionRunner.compile
  cases copied with
  | some e => exact ⟨[], .none, (List.append_nil _).symm⟩
  | none =>
    cases result.harness with
    | none => exact ⟨[], .none, (List.append_nil _).symm⟩
    | some harness =>
      by_cases succeeds : answers.gnu11.returncode = 0
      · refine ⟨_, .gnu11, ?_⟩
        simp [succeeds, compileKept]
      · refine ⟨_, .gnu90, ?_⟩
        by_cases again : answers.gnu90.returncode = 0 <;> simp [succeeds, again, compileKept]

/-! ### The commands of a run -/

/-- The run is over, with an error found. -/
def Found (args : Run.Args) (point : Run.Point) : Prop :=
  ∃ escaped, point = .printed (if args.hasErrorMethod then .FALSE else .DONE) escaped

/-- How far a run has come with its commands. -/
def AtStage (job : Job) (runner : Runners.State) (replays executions : List Command) : Run.Point → Prop
  | .prepare => replays = [] ∧ executions = []
  | .assertUnset => replays = [] ∧ executions = []
  | .launch => replays = [] ∧ executions = []
  | .apply => replays = [] ∧ executions = []
  | .checkStop => replays = [] ∧ executions = []
  | .processing .kleeReplay _ => executions = [] ∧
    (runner.path = none ∧ replays = [] ∨ runner.path = some KleeReplayRunner.EXECUTABLE_NAME ∧ replays ≠ [])
  | .processing .execution loop => (runner.path = none ∧ executions = []) ∨
    (runner.path = some (ExecutionRunner.abspath job "a.out".toList) ∧ executions ≠ []) ∨ ∃ e, loop.point = .raised e
  | .persist result => result.isPositive = true
  | _ => True

structure Disciplined (job : Job) (args : Run.Args) (s : State) (replays executions keeping : List Command) : Prop where
  commands : s.runner.commands = replays ++ executions ++ keeping
  replayed : Replays job replays
  executed : Executions job executions
  kept : Keeping job keeping
  here : AtStage job s.runner replays executions s.run.point
  last : keeping ≠ [] → Found args s.run.point

theorem atStage_conclude {replays executions : List Command} {runner : Runners.State} (result : Option Verdict) :
    AtStage job runner replays executions (Run.conclude result) := by
  cases result with
  | none => trivial
  | some result =>
    unfold Run.conclude
    dsimp only
    split <;> trivial

theorem atStage_afterExecution {replays executions : List Command} {runner : Runners.State} (result : Option Verdict) :
    AtStage job runner replays executions (Run.afterExecution args result) := by
  unfold Run.afterExecution
  split
  · trivial
  · exact atStage_conclude result

theorem atStage_afterKlee {replays executions : List Command} {runner : Runners.State} {before : Option Run.Stage}
    (result : Option Verdict) (apart : before ≠ some .execution) (replayed : executions = []) :
    AtStage job (enter before (stage (Run.afterKlee args result)) runner) replays executions (Run.afterKlee args result) := by
  unfold Run.afterKlee
  split
  · rw [stage, enter, if_neg apart]
    exact .inl ⟨rfl, replayed⟩
  · exact atStage_afterExecution result

theorem atStage_processInputs {runner : Runners.State} :
    AtStage job (enter none (stage (Run.processInputs args)) runner) [] [] (Run.processInputs args) := by
  unfold Run.processInputs
  split
  · exact ⟨rfl, .inl ⟨rfl, rfl⟩⟩
  · exact atStage_afterKlee none (by simp) rfl

/-- Only a positive result is kept. -/
theorem atStage_afterGeneration {replays executions : List Command} {runner : Runners.State} {before : Option Run.Stage}
    (result : Verdict) (generation : Except Raised Bool) :
    AtStage job (enter before (stage (Run.afterGeneration args result generation)) runner) replays executions
      (Run.afterGeneration args result generation) := by
  unfold Run.afterGeneration
  split
  · split
    · assumption
    · trivial
  · split
    · assumption
    · trivial
  · trivial

theorem atStage_tau {replays executions : List Command} {runner : Runners.State} {r next : Run.State}
    (here : AtStage job runner replays executions r.point) (taken : Run.step args r .tau = some next) :
    AtStage job (enter (stage r.point) (stage next.point) runner) replays executions next.point := by
  cases point : r.point with
  | processing stage loop =>
    simp only [Run.step, point] at taken
    simp only [AtStage, point] at here
    cases ended : loop.point with
    | returned result =>
      simp only [ended, Option.some.injEq] at taken
      subst taken
      cases stage with
      | kleeReplay => exact atStage_afterKlee (some result) (by simp [ValidatedRun.stage]) here.1
      | execution => exact @atStage_afterExecution job args _ _ _ (some result)
      | continuous => exact atStage_conclude none
    | raised e =>
      simp only [ended, Option.some.injEq] at taken
      subst taken
      trivial
    | _ => simp [ended] at taken
  | checkStop =>
    simp only [Run.step, point, Option.some.injEq] at taken
    simp only [AtStage, point] at here
    obtain ⟨rfl, rfl⟩ := here
    subst taken
    simp only [Run.State.goto]
    split
    · trivial
    · exact atStage_processInputs
  | collect result =>
    simp only [Run.step, point, Option.some.injEq] at taken
    subst taken
    exact atStage_afterGeneration result (Run.getGenerationResult args r.world)
  | _ =>
    simp only [Run.step, point] at taken
    simp only [AtStage, point] at here
    repeat' split at taken
    all_goals cases taken
    all_goals first | exact here | trivial

theorem atStage_move {replays executions : List Command} {runner : Runners.State} {r next : Run.State} {m : Move}
    (here : AtStage job runner replays executions r.point) (taken : Run.step args r (.move m) = some next) :
    stage next.point = stage r.point ∧ AtStage job runner replays executions next.point := by
  cases point : r.point with
  | processing stage loop =>
    simp only [Run.step, point, Option.map_eq_some_iff] at taken
    obtain ⟨after, moved, rfl⟩ := taken
    rw [point] at here
    refine ⟨rfl, ?_⟩
    cases stage with
    | kleeReplay => exact here
    | continuous => trivial
    | execution =>
      rcases here with new | kept | ⟨e, raised⟩
      · exact .inl new
      · exact .inr (.inl kept)
      · cases m with
        | tau => simp [Loop.step, raised] at moved
        | poll answer => cases answer <;> simp [Loop.step, raised] at moved
        | execute answer => cases answer <;> simp [Loop.step, raised] at moved
  | _ => simp [Run.step, point] at taken

theorem atStage_run {replays executions : List Command} {runner : Runners.State} {r next : Run.State} {l : Run.Label}
    (here : AtStage job runner replays executions r.point) (taken : Run.step args r l = some next) :
    AtStage job (enter (stage r.point) (stage next.point) runner) replays executions next.point := by
  cases l with
  | outside o =>
    obtain ⟨w, -, rfl⟩ := Option.map_eq_some_iff.mp taken
    rw [enter_self]
    exact here
  | outcome raised =>
    cases point : r.point <;> simp only [Run.step, point, Option.some.injEq, reduceCtorEq] at taken
    all_goals
      rw [point] at here
      subst taken
      cases raised <;> first | exact here | trivial
  | move m =>
    obtain ⟨same, there⟩ := atStage_move here taken
    rw [same, enter_self]
    exact there
  | tau => exact atStage_tau here taken

theorem Disciplined.nothing_kept {replays executions keeping : List Command} (inv : Disciplined job args s replays executions keeping)
    (going : ∀ verdict escaped, s.run.point ≠ .printed verdict escaped) : keeping = [] := by
  by_contra some
  obtain ⟨escaped, printed⟩ := inv.last some
  exact going _ escaped printed

/-- A test of the replay: gcc, if it is the first one, and the execution. -/
theorem disciplined_replay {replays executions : List Command} {loop next : Loop} {answers : Answers} {test : TestVector}
    (inv : Disciplined job args s replays executions []) (point : s.run.point = .processing .kleeReplay loop)
    (there : t.run.point = .processing .kleeReplay next)
    (ran : t.runner = (KleeReplayRunner.run job answers s.runner test).2) :
    ∃ replays executions, Disciplined job args t replays executions [] := by
  obtain ⟨commands, replayed, executed, kept, here, last⟩ := inv
  rw [point] at here
  obtain ⟨rfl, here⟩ := here
  simp only [List.append_nil] at commands
  rcases here with ⟨new, rfl⟩ | ⟨compiled, some⟩
  · obtain ⟨more, behind, each, path⟩ := @replay_new job s.runner new answers test
    refine ⟨_, [], ⟨?_, .compiled each, .none, .none, ?_, fun wrong => absurd rfl wrong⟩⟩
    · rw [ran, behind, commands]
      simp
    · rw [there, ran]
      exact ⟨rfl, .inr ⟨path, List.cons_ne_nil _ _⟩⟩
  · obtain ⟨more, behind, each, path⟩ := @replay_kept job s.runner compiled answers test
    refine ⟨replays ++ more, [], ⟨?_, replayed.append some each, .none, .none, ?_, fun wrong => absurd rfl wrong⟩⟩
    · rw [ran, behind, commands]
      simp
    · rw [there, ran]
      exact ⟨rfl, .inr ⟨path, List.append_ne_nil_of_left_ne_nil some _⟩⟩

/-- A test of the execution: gcc once or twice, if it is the first one, and the execution, unless the run ends here. -/
theorem disciplined_execution {replays executions : List Command} {loop next : Loop} {answers : Answers} {test : TestVector}
    (inv : Disciplined job args s replays executions []) (point : s.run.point = .processing .execution loop)
    (there : t.run.point = .processing .execution next) (going : ∀ e, loop.point ≠ .raised e)
    (ended : ∀ e, (ExecutionRunner.run job answers s.runner test).1 = .error e → next.point = .raised e)
    (ran : t.runner = (ExecutionRunner.run job answers s.runner test).2) :
    ∃ replays executions, Disciplined job args t replays executions [] := by
  obtain ⟨commands, replayed, executed, kept, here, last⟩ := inv
  rw [point] at here
  rw [List.append_nil] at commands
  rcases here with ⟨new, rfl⟩ | ⟨compiled, some⟩ | ⟨e, raised⟩
  · obtain ⟨executions, story, behind, outcome⟩ := @execution_new job s.runner new answers test
    refine ⟨replays, executions, ⟨?_, replayed, story, .none, ?_, fun wrong => absurd rfl wrong⟩⟩
    · rw [ran, behind, commands]
      simp
    · rw [there, ran]
      rcases outcome with ⟨e, failed⟩ | ⟨some, path⟩
      · exact .inr (.inr ⟨e, ended e failed⟩)
      · exact .inr (.inl ⟨path, some⟩)
  · obtain ⟨more, behind, each, path⟩ := execution_kept compiled answers test
    refine ⟨replays, executions ++ more, ⟨?_, replayed, executed.append some each, .none, ?_, fun wrong => absurd rfl wrong⟩⟩
    · rw [ran, behind, commands]
      simp
    · rw [there, ran]
      exact .inr (.inl ⟨path, List.append_ne_nil_of_left_ne_nil some _⟩)
  · exact absurd raised (going e)

/-- The end of the run: a positive result is printed behind what gcc does for its harness. -/
theorem disciplined_persist {replays executions : List Command} {copied : Option Raised} {answers : Answers} {result : Verdict}
    (inv : Disciplined job args s replays executions []) (point : s.run.point = .persist result)
    (there : t.run = s.run.goto (Run.finish args result (persist job result copied answers s.runner).1))
    (ran : t.runner = (persist job result copied answers s.runner).2) :
    ∃ keeping, Disciplined job args t replays executions keeping := by
  obtain ⟨commands, replayed, executed, kept, here, last⟩ := inv
  rw [point] at here
  obtain ⟨keeping, story, behind⟩ := @persist_commands job result copied answers s.runner
  refine ⟨keeping, ⟨?_, replayed, executed, story, ?_, fun _ => ?_⟩⟩
  · rw [ran, behind, commands, List.append_nil]
  · rw [there]
    trivial
  · rw [there]
    exact ⟨_, by rw [← isPositive_iff.mp here]; rfl⟩

theorem raised_of_execute {stage : Run.Stage} {loop : Loop} {result : Except Raised (List Status)} {r next : Run.State}
    (point : r.point = .processing stage loop) (taken : Run.step args r (.move (.execute result)) = some next) :
    (∀ e, loop.point ≠ .raised e) ∧ ∃ after, next.point = .processing stage after ∧
      ∀ e, result = .error e → after.point = .raised e := by
  simp only [Run.step, point, Option.map_eq_some_iff] at taken
  obtain ⟨after, moved, rfl⟩ := taken
  cases Loop.steps_of_step moved with
  | executed here => exact ⟨fun e raised => by simp [here] at raised, _, rfl, fun e wrong => by cases wrong⟩
  | failed here => exact ⟨fun e raised => by simp [here] at raised, _, rfl, fun e same => by cases same; rfl⟩

/-- Nothing but the outside moves when the verdict is printed. -/
theorem found_of_run_step {r next : Run.State} {l : Run.Label} (found : Found args r.point)
    (taken : Run.step args r l = some next) : Found args next.point := by
  obtain ⟨escaped, printed⟩ := found
  cases l with
  | outside o =>
    obtain ⟨w, -, rfl⟩ := Option.map_eq_some_iff.mp taken
    exact ⟨escaped, printed⟩
  | _ => simp [Run.step, printed] at taken

theorem disciplined_step {l : Label} {replays executions keeping : List Command}
    (inv : Disciplined job args s replays executions keeping) (taken : step job args s l = some t) :
    ∃ replays executions keeping, Disciplined job args t replays executions keeping := by
  cases steps_of_step taken with
  | run _ moved =>
    refine ⟨replays, executions, keeping, ⟨?_, inv.replayed, inv.executed, inv.kept, ?_, fun some => ?_⟩⟩
    · rw [commands_enter]
      exact inv.commands
    · exact atStage_run inv.here moved
    · exact found_of_run_step (inv.last some) moved
  | @execute answers stage loop validates test next point on head moved =>
    obtain ⟨going, after, there, ended⟩ := raised_of_execute point moved
    obtain rfl := inv.nothing_kept (by simp [point])
    cases stage with
    | continuous => cases on
    | kleeReplay =>
      obtain rfl := Option.some.inj on
      obtain ⟨replays, executions, inv⟩ := disciplined_replay (t := ⟨next, (KleeReplayRunner.run job answers s.runner test).2⟩)
        inv point there rfl
      exact ⟨replays, executions, [], inv⟩
    | execution =>
      obtain rfl := Option.some.inj on
      obtain ⟨replays, executions, inv⟩ := disciplined_execution (t := ⟨next, (ExecutionRunner.run job answers s.runner test).2⟩)
        inv point there going ended rfl
      exact ⟨replays, executions, [], inv⟩
  | @persist copied answers result next point moved =>
    obtain rfl := inv.nothing_kept (by simp [point])
    obtain ⟨keeping, inv⟩ := disciplined_persist (t := ⟨next, (persist job result copied answers s.runner).2⟩) inv point (printed_of_persist point moved) rfl
    exact ⟨replays, executions, keeping, inv⟩

/-- The commands of a whole run, for every interleaving and whatever gcc and the tested program do: those of the
replay, which calls gcc at most once and never for the older standard, behind them those of the execution, which
calls it at most twice, and where an error was found, at most two calls for the harness that is kept. In the first two
every call of gcc comes before all executions, so gcc runs at most five times. -/
theorem commands_of_run {tests : List TestVector} {runner : Runners.State} {schedule : List Label}
    (fresh : runner.commands = []) (reached : Transition.run (step job args) (start tests runner) schedule = some s) :
    ∃ replays executions keeping, s.runner.commands = replays ++ executions ++ keeping ∧ Replays job replays ∧
      Executions job executions ∧ Keeping job keeping ∧ (keeping ≠ [] → Found args s.run.point) := by
  have initial : ∃ replays executions keeping, Disciplined job args (start tests runner) replays executions keeping :=
    ⟨[], [], [], ⟨fresh, .none, .none, .none, ⟨rfl, rfl⟩, fun wrong => absurd rfl wrong⟩⟩
  obtain ⟨replays, executions, keeping, inv⟩ := @run_invariant _ _ (step job args) (fun _ _ => True)
    (fun s => ∃ replays executions keeping, Disciplined job args s replays executions keeping)
    (fun s l t _ here taken => by
      obtain ⟨replays, executions, keeping, inv⟩ := here
      exact disciplined_step inv taken)
    (start tests runner) s schedule (along_of_forall (fun _ _ => trivial) _ _) initial reached
  exact ⟨replays, executions, keeping, inv.commands, inv.replayed, inv.executed, inv.kept, inv.last⟩

end

theorem errorSchedule_commands : ∃ s, Transition.run (step ExecutionRunner.intJob Run.validating)
    (start [] ⟨none, none, none, []⟩) errorSchedule = some s ∧ ∃ replays executions keeping,
      s.runner.commands = replays ++ executions ++ keeping ∧ Replays ExecutionRunner.intJob replays ∧
        Executions ExecutionRunner.intJob executions ∧ Keeping ExecutionRunner.intJob keeping ∧
        (keeping ≠ [] → Found Run.validating s.run.point) := by
  have finished : (Transition.run (step ExecutionRunner.intJob Run.validating) (start [] ⟨none, none, none, []⟩)
      errorSchedule).any (fun s => s.run.point = .printed .FALSE none) = true := by decide
  obtain ⟨s, ran, -⟩ := (Option.any_eq_true _ _).mp finished
  exact ⟨s, ran, @commands_of_run ExecutionRunner.intJob Run.validating s [] ⟨none, none, none, []⟩ errorSchedule rfl ran⟩

end Tbf.ValidatedRun
