import Tbf.ErrorSearch
import Tbf.HarnessText
import Tbf.InputGeneration

/-!
# The runners

`ExecutionRunner` and `KleeReplayRunner` of `testcase_processing.py` over all tests of a run. Each compiles at its
first test and keeps the path of the executable, and both put it at the same place of the work directory.
-/

namespace Tbf
open Text InputSource Harness ErrorSearch

/-! ### What the runners share -/

namespace Runners

/-- What every test of a run is executed for, and where. -/
structure Job where
  programFile : Str
  errorMethod : Option Str
  nondetMethods : List NondetMethod
  compileParameter : Str
  measureCoverage : Bool
  kleeLibDir : Str
  workDir : Str
  outputDir : Str
  inherited : Bytes

/-- How a call of gcc ends, with the file `a.out` behind it. -/
structure Gcc where
  returncode : Int
  executable : Option Bytes
  deriving DecidableEq, Repr

/-- How the executable ends within its time limit, and what it puts in the place of the file `a.out`, if it does. -/
structure Child where
  returncode : Int
  output : Bytes
  errOutput : Bytes
  replaces : Option (Option Bytes)
  deriving DecidableEq, Repr

/-- What was executed in the work directory: a call of gcc, or a run of the executable with how it ended. -/
inductive Command where
  | gcc (args : List Str)
  | child (path : Str) (ktestFile : Option Str) (stdin binary : Bytes) (ended : Child)
  deriving DecidableEq, Repr

def Child.result (child : Child) : ExecutionResult := executionResult child.returncode child.output child.errOutput

/-- gcc writes the executable where it succeeds and writes none where it fails. -/
def Gcc.Honest (before : Option Bytes) (answer : Gcc) : Prop :=
  (answer.returncode = 0 → answer.executable.isSome = true) ∧
    (answer.returncode ≠ 0 → answer.executable = none ∨ answer.executable = before)

/-- The tested program leaves the executable alone. -/
def Child.Quiet (answer : Child) : Prop := answer.replaces = none

instance (before : Option Bytes) (answer : Gcc) : Decidable (answer.Honest before) :=
  inferInstanceAs (Decidable ((answer.returncode = 0 → answer.executable.isSome = true) ∧
    (answer.returncode ≠ 0 → answer.executable = none ∨ answer.executable = before)))

instance (answer : Child) : Decidable answer.Quiet := inferInstanceAs (Decidable (answer.replaces = none))

/-- The answers of the system to one call of `run`; it asks for those it needs. -/
structure Answers where
  gnu11 : Gcc
  gnu90 : Gcc
  child : Child
  deriving DecidableEq, Repr

/-- `path` is what the runner keeps, `self.harness` or `self.executable`; the rest is the work directory, with all
commands that were executed in it. -/
structure State where
  path : Option Str
  harnessFile : Option Bytes
  executable : Option Bytes
  commands : List Command
  deriving DecidableEq, Repr

namespace State

def gcc (s : State) (args : List Str) (answer : Gcc) : State :=
  { s with executable := answer.executable, commands := s.commands ++ [.gcc args] }

def child (s : State) (path : Str) (ktestFile : Option Str) (stdin binary : Bytes) (answer : Child) : State :=
  { s with executable := answer.replaces.getD (some binary), commands := s.commands ++ [.child path ktestFile stdin binary answer] }

def log (s : State) (commands : List Command) : State := { s with commands := s.commands ++ commands }

section
variable (s : State) (args : List Str) (answer : Gcc) (path : Str) (ktestFile : Option Str) (stdin binary : Bytes) (ended : Child)

@[simp] theorem gcc_path : (s.gcc args answer).path = s.path := rfl
@[simp] theorem gcc_executable : (s.gcc args answer).executable = answer.executable := rfl
@[simp] theorem gcc_commands : (s.gcc args answer).commands = s.commands ++ [.gcc args] := rfl
@[simp] theorem child_path : (s.child path ktestFile stdin binary ended).path = s.path := rfl
@[simp] theorem child_executable : (s.child path ktestFile stdin binary ended).executable = ended.replaces.getD (some binary) := rfl
@[simp] theorem child_commands : (s.child path ktestFile stdin binary ended).commands =
    s.commands ++ [.child path ktestFile stdin binary ended] := rfl
@[simp] theorem log_path (commands : List Command) : (s.log commands).path = s.path := rfl
@[simp] theorem log_executable (commands : List Command) : (s.log commands).executable = s.executable := rfl
@[simp] theorem log_harnessFile (commands : List Command) : (s.log commands).harnessFile = s.harnessFile := rfl
@[simp] theorem log_commands (commands : List Command) : (s.log commands).commands = s.commands ++ commands := rfl

theorem log_log (commands more : List Command) : (s.log commands).log more = s.log (commands ++ more) := by
  simp [log]

theorem log_nil : s.log [] = s := by
  simp [log]

end

theorem child_quiet {s : State} {binary : Bytes} {ended : Child} (here : s.executable = some binary)
    (quiet : ended.Quiet) (path : Str) (ktestFile : Option Str) (stdin : Bytes) :
    s.child path ktestFile stdin binary ended = s.log [.child path ktestFile stdin binary ended] := by
  rw [Child.Quiet] at quiet
  simp [child, log, quiet, here]

end State

abbrev Run := Answers → State → TestVector → Except Raised (List Status) × State

/-- `_k` on a batch, up to the first exception. -/
def runs (run : Run) : State → List (TestVector × Answers) → Except Raised (List (List Status)) × State
  | s, [] => (.ok [], s)
  | s, (test, answers) :: rest =>
    match run answers s test with
    | (.error e, s) => (.error e, s)
    | (.ok result, s) =>
      match runs run s rest with
      | (.error e, s) => (.error e, s)
      | (.ok results, s) => (.ok (result :: results), s)

/-- Where a call of a runner changes nothing that a later one looks at, a batch is judged test by test. -/
theorem runs_settled {run : Run} {judge : TestVector × Answers → Except Raised (List Status)}
    {calls : TestVector × Answers → List Command} {path : Option Str} {executable : Option Bytes} {tests : List (TestVector × Answers)}
    (each : ∀ test ∈ tests, ∀ s : State, s.path = path → s.executable = executable →
      run test.2 s test.1 = (judge test, s.log (calls test)))
    {s : State} (kept : s.path = path) (there : s.executable = executable) :
    ∃ ran, ran <+: tests ∧ runs run s tests = (tests.mapM judge, s.log (ran.flatMap calls)) ∧
      ∀ results, tests.mapM judge = .ok results → ran = tests := by
  induction tests generalizing s with
  | nil => exact ⟨[], List.prefix_refl _, by rw [List.flatMap_nil, State.log_nil]; rfl, fun _ _ => rfl⟩
  | cons test rest ih =>
    obtain ⟨first, later⟩ := List.forall_mem_cons.mp each
    have here := first s kept there
    cases judged : judge test with
    | error e =>
      refine ⟨[test], ⟨rest, rfl⟩, ?_, ?_⟩
      · simp [runs, here, judged, bind, Except.bind]
      · intro results all
        simp [judged, bind, Except.bind] at all
    | ok result =>
      obtain ⟨ran, front, behind, whole⟩ := @ih later (s.log (calls test)) kept there
      refine ⟨test :: ran, List.prefix_cons_inj test |>.mpr front, ?_, ?_⟩
      · simp only [runs, here, judged, behind, State.log_log, List.flatMap_cons, List.mapM_cons]
        cases rest.mapM judge <;> rfl
      · intro results all
        cases others : rest.mapM judge with
        | error e => simp [judged, others, bind, Except.bind] at all
        | ok results => rw [whole results others]

end Runners

open Runners

/-! ### The execution runner -/

namespace ExecutionRunner

def getCompileCmd (job : Job) (programFile harnessFile outputFile cVersion : Str) : List Str :=
  ["gcc".toList, "-std=".toList ++ cVersion, job.compileParameter, "-D__alias__(x)=".toList, "-o".toList, outputFile,
    "-include".toList, programFile, harnessFile, "-lm".toList] ++
    if job.measureCoverage then ["-fprofile-arcs".toList, "-ftest-coverage".toList] else []

def compile (job : Job) (programFile harnessFile outputFile : Str) (answers : Answers) (s : State) :
    Except Raised Str × State :=
  let s := s.gcc (getCompileCmd job programFile harnessFile outputFile "gnu11".toList) answers.gnu11
  if answers.gnu11.returncode ≠ 0 then
    let s := s.gcc (getCompileCmd job programFile harnessFile outputFile "gnu90".toList) answers.gnu90
    if answers.gnu90.returncode ≠ 0 then (.error .compileError, s) else (.ok outputFile, s)
  else (.ok outputFile, s)

def createExecutableHarness (job : Job) (answers : Answers) (s : State) : Except Raised Str × State :=
  match HarnessCreator.createHarness job.nondetMethods job.errorMethod none with
  | .error e => (.error e, s)
  | .ok content =>
    let s := { s with harnessFile := some content }
    compile job job.programFile "harness.c".toList "a.out".toList answers s

def abspath (job : Job) (file : Str) : Str := job.workDir ++ '/' :: file

def getExecutableHarness (job : Job) (answers : Answers) (s : State) : Except Raised Str × State :=
  match s.path with
  | some path => (.ok path, s)
  | none =>
    match createExecutableHarness job answers s with
    | (.error e, s) => (.error e, s)
    | (.ok file, s) => (.ok (abspath job file), { s with path := some (abspath job file) })

def run (job : Job) : Run
  | answers, s, test =>
    match getExecutableHarness job answers s with
    | (.error e, s) => (.error e, s)
    | (.ok executable, s) =>
      match stdin test job.inherited with
      | .error e => (.error e, s)
      | .ok input =>
        match s.executable with
        | none => (.ok [.ERROR], s)
        | some binary => (checkResult answers.child.result, s.child executable none input binary answers.child)

/-- The result of a test, once there is an executable. -/
def judge (job : Job) (test : TestVector × Answers) : Except Raised (List Status) := do
  let _input ← stdin test.1 job.inherited
  checkResult test.2.child.result

def calls (job : Job) (binary : Bytes) (test : TestVector × Answers) : List Command :=
  match stdin test.1 job.inherited with
  | .ok input => [.child (abspath job "a.out".toList) none input binary test.2.child]
  | .error _ => []

variable {job : Job} {s : State}

theorem run_settled {binary : Bytes} (kept : s.path = some (abspath job "a.out".toList)) (built : s.executable = some binary)
    {test : TestVector × Answers} (quiet : test.2.child.Quiet) :
    run job test.2 s test.1 = (judge job test, s.log (calls job binary test)) := by
  unfold run getExecutableHarness judge calls
  simp only [kept, built]
  cases stdin test.1 job.inherited with
  | error e => simp [State.log_nil, bind, Except.bind]
  | ok input => simp [State.child_quiet built quiet, bind, Except.bind]

/-- What the first test of a run has gcc do: its calls, and the executable that they leave. -/
inductive Compiles (job : Job) (answers : Answers) : List Command → Option Bytes → Prop where
  | gnu11 {binary : Bytes} (succeeds : answers.gnu11.returncode = 0) (built : answers.gnu11.executable = some binary) :
    Compiles job answers [.gcc (getCompileCmd job job.programFile "harness.c".toList "a.out".toList "gnu11".toList)] (some binary)
  | gnu90 {binary : Bytes} (fails : answers.gnu11.returncode ≠ 0) (succeeds : answers.gnu90.returncode = 0)
      (built : answers.gnu90.executable = some binary) :
    Compiles job answers [.gcc (getCompileCmd job job.programFile "harness.c".toList "a.out".toList "gnu11".toList),
      .gcc (getCompileCmd job job.programFile "harness.c".toList "a.out".toList "gnu90".toList)] (some binary)
  | failed (fails : answers.gnu11.returncode ≠ 0) (again : answers.gnu90.returncode ≠ 0) :
    Compiles job answers [.gcc (getCompileCmd job job.programFile "harness.c".toList "a.out".toList "gnu11".toList),
      .gcc (getCompileCmd job job.programFile "harness.c".toList "a.out".toList "gnu90".toList)] none

/-- What the runner has of its executable behind the first test. -/
def Keeps (job : Job) (t : State) : Option Bytes → Prop
  | some binary => t.path = some (abspath job "a.out".toList) ∧ t.executable = some binary
  | none => t.path = none

def found (job : Job) : Option Bytes → Except Raised Str
  | some _ => .ok (abspath job "a.out".toList)
  | none => .error .compileError

theorem getExecutableHarness_new {content : Bytes} {answers : Answers} (new : s.path = none)
    (made : HarnessCreator.createHarness job.nondetMethods job.errorMethod none = .ok content)
    (first : answers.gnu11.Honest s.executable) (second : answers.gnu90.Honest answers.gnu11.executable) :
    ∃ compiles built t, getExecutableHarness job answers s = (found job built, t) ∧ Compiles job answers compiles built ∧
      Keeps job t built ∧ t.commands = s.commands ++ compiles ∧ t.harnessFile = some content := by
  unfold getExecutableHarness createExecutableHarness compile
  simp only [new, made]
  by_cases succeeds : answers.gnu11.returncode = 0
  · obtain ⟨binary, built⟩ := Option.isSome_iff_exists.mp (first.1 succeeds)
    simp only [succeeds, ne_eq, not_true_eq_false, if_false]
    exact ⟨_, _, _, rfl, .gnu11 succeeds built, ⟨rfl, built⟩, rfl, rfl⟩
  · simp only [succeeds, ne_eq, not_false_eq_true, if_true]
    by_cases again : answers.gnu90.returncode = 0
    · obtain ⟨binary, built⟩ := Option.isSome_iff_exists.mp (second.1 again)
      simp only [again, not_true_eq_false, if_false]
      refine ⟨_, _, _, rfl, .gnu90 succeeds again built, ⟨rfl, built⟩, ?_, rfl⟩
      simp
    · simp only [again, not_false_eq_true, if_true]
      refine ⟨_, none, _, rfl, .failed succeeds again, ?_, ?_, rfl⟩
      · simp [Keeps]
      · simp

/-- The first test is run like any other one, behind the compilation. -/
theorem run_new {answers : Answers} {t : State} {path : Str} (compiled : getExecutableHarness job answers s = (.ok path, t))
    (kept : t.path = some path) (test : TestVector) : run job answers s test = run job answers t test := by
  have again : getExecutableHarness job answers t = (.ok path, t) := by
    unfold getExecutableHarness
    rw [kept]
  simp only [run, compiled, again]

/-- What a test on a new runner finds: the state behind the compilation, and whether there is an executable. -/
theorem run_compiles {content : Bytes} {answers : Answers} (new : s.path = none)
    (made : HarnessCreator.createHarness job.nondetMethods job.errorMethod none = .ok content)
    (first : answers.gnu11.Honest s.executable) (second : answers.gnu90.Honest answers.gnu11.executable) :
    ∃ compiles built t, Compiles job answers compiles built ∧ Keeps job t built ∧ t.commands = s.commands ++ compiles ∧
      t.harnessFile = some content ∧ ∀ test, match built with
        | none => run job answers s test = (.error .compileError, t)
        | some _ => run job answers s test = run job answers t test := by
  obtain ⟨compiles, built, t, compiled, story, keeps, commands, harness⟩ := getExecutableHarness_new new made first second
  refine ⟨compiles, built, t, story, keeps, commands, harness, fun test => ?_⟩
  cases built with
  | none => simp only [run, compiled, found]
  | some binary => exact run_new compiled keeps.1 test

theorem run_unmade {e : Raised} {answers : Answers} {test : TestVector} (new : s.path = none)
    (made : HarnessCreator.createHarness job.nondetMethods job.errorMethod none = .error e) :
    run job answers s test = (.error e, s) := by
  simp only [run, getExecutableHarness, new, createExecutableHarness, made]

/-- A run of tests on a new runner: the first one compiles the generic harness, by the newer standard or else by the
older one, and all are executed on the one executable and judged one by one. Where no harness can be made or neither
standard compiles it, no test is. -/
theorem runs_compiled {test : TestVector} {answers : Answers} {rest : List (TestVector × Answers)} (new : s.path = none)
    (first : answers.gnu11.Honest s.executable) (second : answers.gnu90.Honest answers.gnu11.executable)
    (quiet : ∀ each ∈ (test, answers) :: rest, each.2.child.Quiet) :
    match HarnessCreator.createHarness job.nondetMethods job.errorMethod none with
    | .error e => runs (run job) s ((test, answers) :: rest) = (.error e, s)
    | .ok content => ∃ compiles built t, Compiles job answers compiles built ∧ Keeps job t built ∧ t.harnessFile = some content ∧
      match built with
      | none => runs (run job) s ((test, answers) :: rest) = (.error .compileError, t) ∧ t.commands = s.commands ++ compiles
      | some binary => ∃ ran, ran <+: (test, answers) :: rest ∧
        runs (run job) s ((test, answers) :: rest) = (((test, answers) :: rest).mapM (judge job), t) ∧
        t.commands = s.commands ++ compiles ++ ran.flatMap (calls job binary) ∧
        ∀ results, ((test, answers) :: rest).mapM (judge job) = .ok results → ran = (test, answers) :: rest := by
  cases made : HarnessCreator.createHarness job.nondetMethods job.errorMethod none with
  | error e => simp only [runs, run_unmade new made]
  | ok content =>
    obtain ⟨compiles, built, t, story, keeps, commands, harness, here⟩ := run_compiles new made first second
    cases built with
    | none =>
      refine ⟨compiles, none, t, story, keeps, harness, ?_, commands⟩
      simp only [runs, here test]
    | some binary =>
      obtain ⟨ran, front, behind, whole⟩ := runs_settled (fun each member s kept built =>
        run_settled kept built (quiet each member)) keeps.1 keeps.2
      have same : runs (run job) s ((test, answers) :: rest) = runs (run job) t ((test, answers) :: rest) := by
        simp only [runs, here test]
      refine ⟨compiles, some binary, _, story, ?_, ?_, ran, front, same.trans behind, ?_, whole⟩
      · exact keeps
      · exact harness
      · rw [State.log_commands, commands]

def intJob : Job where
  programFile := "int.c".toList
  errorMethod := some "__VERIFIER_error".toList
  nondetMethods := [intMethod]
  compileParameter := "-m32".toList
  measureCoverage := false
  kleeLibDir := "lib".toList
  workDir := "/work".toList
  outputDir := "/output".toList
  inherited := []

/-- The program is one for the older standard only, and it exits. -/
def olderStandard : Answers := ⟨⟨1, none⟩, ⟨0, some [0x7F]⟩, ⟨0, [], [], none⟩⟩

theorem olderStandard_compiled : ∃ binary t ran, Compiles intJob olderStandard
    [.gcc (getCompileCmd intJob "int.c".toList "harness.c".toList "a.out".toList "gnu11".toList),
      .gcc (getCompileCmd intJob "int.c".toList "harness.c".toList "a.out".toList "gnu90".toList)] (some binary) ∧
    runs (run intJob) ⟨none, none, none, []⟩ [(pairVector, olderStandard), (pairVector, olderStandard)] = (.ok [[.UNKNOWN], [.UNKNOWN]], t) ∧
    t.commands = .gcc (getCompileCmd intJob "int.c".toList "harness.c".toList "a.out".toList "gnu11".toList) ::
      .gcc (getCompileCmd intJob "int.c".toList "harness.c".toList "a.out".toList "gnu90".toList) ::
      ran.flatMap (calls intJob binary) ∧ ran = [(pairVector, olderStandard), (pairVector, olderStandard)] := by
  have made : HarnessCreator.createHarness intJob.nondetMethods intJob.errorMethod none = .ok _ := rfl
  have compiled := @runs_compiled intJob ⟨none, none, none, []⟩ pairVector olderStandard [(pairVector, olderStandard)] rfl
    (by decide) (by decide) (by decide)
  rw [made] at compiled
  obtain ⟨compiles, built, t, story, keeps, harness, outcome⟩ := compiled
  have judged : [(pairVector, olderStandard), (pairVector, olderStandard)].mapM (judge intJob) =
      .ok [[.UNKNOWN], [.UNKNOWN]] := by decide
  cases story with
  | gnu11 succeeds _ => exact absurd succeeds (by decide)
  | failed _ again => exact absurd rfl again
  | gnu90 fails succeeds here =>
    obtain ⟨ran, -, result, commands, whole⟩ := outcome
    rw [judged] at result
    exact ⟨_, t, ran, .gnu90 fails succeeds here, result, commands, whole _ judged⟩

end ExecutionRunner

/-! ### The replay of KLEE's tests -/

namespace KleeReplayRunner

def EXECUTABLE_NAME : Str := "./a.out".toList

/-- The constructor, which removes an executable that is already there. -/
def init (s : State) : State := { s with path := none, executable := none }

def getCompileCmd (job : Job) (cVersion : Str) : List Str :=
  ["gcc".toList, "-std=".toList ++ cVersion, "-L".toList, job.kleeLibDir, "-D__alias__(x)=".toList, "-o".toList,
    EXECUTABLE_NAME, InputGeneration.getPreparedName job.programFile "klee".toList, "-lkleeRuntest".toList, "-lm".toList]

/-- The compilation at the first test: where it fails, the command for the older standard is built and not executed. -/
def prepare (job : Job) (answers : Answers) (s : State) : State :=
  match s.path with
  | some _ => s
  | none =>
    let s := s.gcc (getCompileCmd job "gnu11".toList) answers.gnu11
    let _compileCmd := if answers.gnu11.returncode ≠ 0 then getCompileCmd job "gnu90".toList else getCompileCmd job "gnu11".toList
    { s with path := some EXECUTABLE_NAME }

def run (job : Job) : Run
  | answers, s, test =>
    let s := prepare job answers s
    match s.executable with
    | none => (.ok [.ERROR], s)
    | some binary =>
      (checkResult answers.child.result,
        s.child (s.path.getD []) (some test.origin) (childStdin none job.inherited) binary answers.child)

/-- The result of a test, with the executable that the first test has left. -/
def judge (built : Option Bytes) (test : TestVector × Answers) : Except Raised (List Status) :=
  match built with
  | none => .ok [.ERROR]
  | some _ => checkResult test.2.child.result

def calls (job : Job) (built : Option Bytes) (test : TestVector × Answers) : List Command :=
  match built with
  | none => []
  | some binary => [.child EXECUTABLE_NAME (some test.1.origin) (childStdin none job.inherited) binary test.2.child]

variable {job : Job} {s : State}

theorem prepare_kept {answers : Answers} {path : Str} (kept : s.path = some path) : prepare job answers s = s := by
  unfold prepare
  rw [kept]

theorem prepare_new {answers : Answers} (new : s.path = none) : prepare job answers s =
    { s.gcc (getCompileCmd job "gnu11".toList) answers.gnu11 with path := some EXECUTABLE_NAME } := by
  unfold prepare
  rw [new]

theorem run_settled {built : Option Bytes} (kept : s.path = some EXECUTABLE_NAME) (there : s.executable = built)
    {test : TestVector × Answers} (quiet : test.2.child.Quiet) :
    run job test.2 s test.1 = (judge built test, s.log (calls job built test)) := by
  subst there
  simp only [run, prepare_kept kept, judge, calls]
  cases there : s.executable with
  | none => simp [State.log_nil]
  | some binary => simp [State.child_quiet there quiet, kept]

theorem run_prepared {answers : Answers} (new : s.path = none) (test : TestVector) :
    run job answers s test = run job answers (prepare job answers s) test := by
  have kept : (prepare job answers s).path = some EXECUTABLE_NAME := by rw [prepare_new new]
  simp only [run, prepare_kept kept]

/-- A replay of tests: gcc is called once, at the first of them, and for the newer standard only. Where it succeeds
each test is run with its own file and judged; where it fails each has the result `[ERROR]` and none is run. -/
theorem runs_replayed {test : TestVector} {answers : Answers} {rest : List (TestVector × Answers)}
    (honest : answers.gnu11.Honest none) (quiet : ∀ each ∈ (test, answers) :: rest, each.2.child.Quiet) :
    ∃ built t ran, runs (run job) (init s) ((test, answers) :: rest) = (((test, answers) :: rest).mapM (judge built), t) ∧
      (built = none ↔ answers.gnu11.returncode ≠ 0) ∧ ran <+: (test, answers) :: rest ∧
      t.commands = s.commands ++ .gcc (getCompileCmd job "gnu11".toList) :: ran.flatMap (calls job built) ∧
      ∀ results, ((test, answers) :: rest).mapM (judge built) = .ok results → ran = (test, answers) :: rest := by
  have prepared := @prepare_new job (init s) answers rfl
  obtain ⟨ran, front, behind, whole⟩ := @runs_settled (run job) (judge answers.gnu11.executable)
    (calls job answers.gnu11.executable) (some EXECUTABLE_NAME) answers.gnu11.executable ((test, answers) :: rest)
    (fun each member s kept there => run_settled kept there (quiet each member)) (prepare job answers (init s))
    (by rw [prepared]) (by rw [prepared]; rfl)
  have same : runs (run job) (init s) ((test, answers) :: rest) =
      runs (run job) (prepare job answers (init s)) ((test, answers) :: rest) := by
    unfold runs
    rw [run_prepared rfl]
  refine ⟨answers.gnu11.executable, _, ran, same.trans behind, ?_, front, ?_, whole⟩
  · constructor
    · intro missing succeeds
      simpa [missing] using honest.1 succeeds
    · intro fails
      exact (honest.2 fails).elim id id
  · rw [State.log_commands, prepared]
    simp [init]

theorem mapM_error (tests : List (TestVector × Answers)) :
    tests.mapM (judge none) = .ok (tests.map fun _ => [.ERROR]) := by
  induction tests with
  | nil => rfl
  | cons test rest ih => simp [judge, ih, bind, Except.bind, pure, Except.pure]

theorem olderStandard_replayed : ∃ t, runs (run ExecutionRunner.intJob) (init ⟨none, none, some [0x7F], []⟩)
    [(ExecutionRunner.pairVector, ExecutionRunner.olderStandard), (ExecutionRunner.pairVector, ExecutionRunner.olderStandard)] =
      (.ok [[.ERROR], [.ERROR]], t) ∧ t.commands = [.gcc (getCompileCmd ExecutionRunner.intJob "gnu11".toList)] := by
  obtain ⟨built, t, ran, result, missing, -, commands, -⟩ := @runs_replayed ExecutionRunner.intJob ⟨none, none, some [0x7F], []⟩
    ExecutionRunner.pairVector ExecutionRunner.olderStandard [(ExecutionRunner.pairVector, ExecutionRunner.olderStandard)]
    (by decide) (by decide)
  obtain rfl := missing.mpr (by decide)
  rw [mapM_error] at result
  refine ⟨t, result, commands.trans ?_⟩
  have quiet : calls ExecutionRunner.intJob none = fun _ => [] := rfl
  rw [quiet]
  simp

end KleeReplayRunner

end Tbf
