import Tbf.Processing

/-!
# A run of tbf

`run` of `tbf/__init__.py`: it starts the input generator, hands the tests to `process_inputs`, collects
the result of the generation and prints a verdict, whatever is raised on the way.
-/

namespace Tbf.Run
open Text Transition Processing

/-- The arguments that decide how a run goes; `errorMethod` is `none` under `--no-error-method`. -/
structure Args where
  errorMethod : Option Str
  existingTestsDir : Bool
  runParallel : Bool
  executionValidation : Bool
  kleeReplayValidation : Bool
  writeXml : Bool
  naiveVerification : Bool
  stopAfterSuccess : Bool
  deriving DecidableEq, Repr

namespace Args

def processingConfig (args : Args) : ProcessingConfig := ⟨args.naiveVerification, args.stopAfterSuccess⟩

def hasErrorMethod (args : Args) : Bool := args.errorMethod.any (!·.isEmpty)

def isProcessingNecessary (args : Args) : Bool :=
  args.executionValidation || args.kleeReplayValidation || args.writeXml

end Args

inductive Stage where
  | kleeReplay | execution | continuous
  deriving DecidableEq, Repr

inductive Point where
  | prepare
  | assertUnset
  | launch
  | apply
  | checkStop
  | processing (stage : Stage) (loop : Loop)
  | harness (result : Verdict)
  | setStop (result : Verdict)
  | collect (result : Verdict)
  | persist (result : Verdict)
  | printed (verdict : Status) (escaped : Option Raised)
  deriving DecidableEq, Repr

structure State where
  world : World
  executed : List Execution
  point : Point
  deriving DecidableEq, Repr

/-- `outcome` is how a block ends that the model does not open: the preparation up to the assertion,
the harness of a successful test, and the copying of it. -/
inductive Label where
  | outside (o : Outside)
  | tau
  | outcome (raised : Option Raised)
  | move (m : Move)

def start (tests : List TestVector) : State := ⟨⟨tests, .notStarted, false⟩, [], .prepare⟩

def handled (e : Raised) : Bool := e == .compileError || e == .parseError || e == .fileNotFoundError

/-- The `finally` block, with the exception that is on its way. -/
def finish (args : Args) (processingResult : Verdict) (raised : Option Raised) : Point :=
  .printed (if args.hasErrorMethod then processingResult.verdict else .DONE) (raised.filter (!handled ·))

/-! ### `process_inputs` -/

/-- The end of `process_inputs`: a positive result still gets its harness. -/
def conclude : Option Verdict → Point
  | none => .setStop VerdictUnknown
  | some result => if result.isPositive then .harness result else .setStop result

def afterExecution (args : Args) (result : Option Verdict) : Point :=
  if result.isNone && args.writeXml then .processing .continuous Loop.start else conclude result

def afterKlee (args : Args) (result : Option Verdict) : Point :=
  if result.all (!·.isPositive) && args.executionValidation then .processing .execution Loop.start
  else afterExecution args result

def processInputs (args : Args) : Point :=
  if args.kleeReplayValidation then .processing .kleeReplay Loop.start else afterKlee args none

def afterStage (args : Args) (result : Verdict) : Stage → Point
  | .kleeReplay => afterKlee args (some result)
  | .execution => afterExecution args (some result)
  | .continuous => conclude none

theorem processInputs_validated {args : Args} (validated : args.executionValidation = true) :
    processInputs args = .processing .kleeReplay Loop.start ∨ processInputs args = .processing .execution Loop.start := by
  cases klee : args.kleeReplayValidation with
  | true => exact .inl (by simp [processInputs, klee])
  | false => exact .inr (by simp [processInputs, afterKlee, klee, validated])

theorem afterExecution_some {args : Args} (result : Verdict) :
    afterExecution args (some result) = if result.isPositive then .harness result else .setStop result := by
  simp [afterExecution, conclude]

theorem afterKlee_some {args : Args} (validated : args.executionValidation = true) (result : Verdict) :
    afterKlee args (some result) = if result.isPositive then .harness result else .processing .execution Loop.start := by
  cases positive : result.isPositive <;> simp [afterKlee, afterExecution_some, validated, positive]

def withHarness (result : Verdict) : Verdict :=
  if result.harness.isNone then
    { result with harness := result.testVector.map (·.origin ++ ".harness.c".toList) }
  else result

theorem withHarness_verdict (result : Verdict) : (withHarness result).verdict = result.verdict := by
  unfold withHarness
  split <;> rfl

/-! ### The steps -/

/-- `get_generation_result`: the result of an asynchronous call is waited for three seconds. -/
def getGenerationResult (args : Args) (w : World) : Except Raised Bool :=
  if args.existingTestsDir then .ok true
  else match w.generator with
    | .running => .error .timeoutError
    | .returned success => .ok success
    | .raised e => .error e
    | .notStarted => .error .other

/-- After the generation: `generation_success` is assigned and not read again. -/
def afterGeneration (args : Args) (result : Verdict) : Except Raised Bool → Point
  | .ok _success => if result.isPositive then .persist result else finish args result none
  | .error .timeoutError => if result.isPositive then .persist result else finish args VerdictUnknown none
  | .error e => finish args result (some e)

def State.goto (s : State) (point : Point) : State := { s with point := point }

def step (args : Args) (s : State) : Label → Option State
  | .outside o => (s.world.step o).map fun w => { s with world := w }
  | .outcome raised =>
    match s.point with
    | .prepare => some (s.goto (match raised with
      | some e => finish args VerdictUnknown (some e)
      | none => .assertUnset))
    | .harness result => some (s.goto (match raised with
      | some e => finish args VerdictUnknown (some e)
      | none => .setStop (withHarness result)))
    | .persist result => some (s.goto (finish args result raised))
    | _ => none
  | .move m =>
    match s.point with
    | .processing stage loop =>
      (loop.step args.processingConfig (stage != .continuous) s.world m).map fun loop =>
        s.goto (.processing stage loop)
    | _ => none
  | .tau =>
    match s.point with
    | .assertUnset =>
      some (s.goto (if s.world.stopped then finish args VerdictUnknown (some .assertionError) else .launch))
    | .launch =>
      if args.existingTestsDir then some (s.goto .checkStop)
      else some { s with
        world := { s.world with generator := .running }
        point := if args.runParallel && args.isProcessingNecessary then .checkStop else .apply }
    | .apply =>
      match s.world.generator with
      | .returned _ => some (s.goto .checkStop)
      | .raised e => some (s.goto (finish args VerdictUnknown (some e)))
      | _ => none
    | .checkStop => some (s.goto (if s.world.stopped then finish args VerdictUnknown none else processInputs args))
    | .processing stage loop =>
      match loop.point with
      | .returned result => some { s with
          executed := if stage = .execution then loop.executed else s.executed
          point := afterStage args result stage }
      | .raised e => some (s.goto (finish args VerdictUnknown (some e)))
      | _ => none
    | .setStop result => some { s with world := { s.world with stopped := true }, point := .collect result }
    | .collect result => some (s.goto (afterGeneration args result (getGenerationResult args s.world)))
    | _ => none

/-! ### What a printed `TRUE` says -/

/-- Every test was executed, really ran, and did not reach the error method. -/
structure Verified (directory : List TestVector) (executed : List Execution) : Prop where
  complete : ∀ t ∈ directory, ∃ x ∈ executed, x.test = t
  ran : ∀ x ∈ executed, .ERROR ∉ x.result
  quiet : ∀ x ∈ executed, .FALSE ∉ x.result

/-- With `--use-existing-test-dir` there is no generation, so nothing is asked of it. -/
def TrueIsSound (args : Args) (s : State) : Prop :=
  ∀ escaped, s.point = .printed .TRUE escaped →
    (args.existingTestsDir = false → s.world.generator = .returned true) ∧ Verified s.world.directory s.executed

def Point.executing : Point → Option Loop
  | .processing .execution loop => some loop
  | _ => none

def Point.collecting : Point → Option Verdict
  | .collect result => some result
  | _ => none

def Point.result : Point → Option Verdict
  | .processing .execution loop =>
    match loop.point with
    | .returned result => some result
    | _ => none
  | .harness result => some result
  | .setStop result => some result
  | .collect result => some result
  | .persist result => some result
  | _ => none

/-- `generate_input` returned a failure, or raised what `run` does not take for a time-out. -/
def GenerationFailed : Generator → Prop
  | .returned success => success = false
  | .raised e => e ≠ .timeoutError
  | _ => False

def Ran : Move → Prop
  | .execute (.ok result) => .ERROR ∉ result
  | _ => True

/-- The steps on which `run` goes right. -/
def Clean (s : State) : Label → Prop
  | .outside (.write test) =>
    test.name ∉ names s.world.directory ∧ ∀ result ∈ s.point.result, result.isPositive = true
  | .outside _ => True
  | .outcome _ => True
  | .tau => ∀ result ∈ s.point.collecting, result.isPositive = true ∨ ¬GenerationFailed s.world.generator
  | .move m => ∀ loop ∈ s.point.executing, Obeys s.world loop m ∧ Ran m

instance : ∀ g, Decidable (GenerationFailed g)
  | .returned success => inferInstanceAs (Decidable (success = false))
  | .raised e => inferInstanceAs (Decidable (e ≠ .timeoutError))
  | .notStarted => .isFalse id
  | .running => .isFalse id

instance : ∀ m, Decidable (Ran m)
  | .execute (.ok result) => inferInstanceAs (Decidable (.ERROR ∉ result))
  | .execute (.error _) => .isTrue trivial
  | .poll _ => .isTrue trivial
  | .tau => .isTrue trivial

instance (s : State) : ∀ l, Decidable (Clean s l)
  | .outside (.write test) => inferInstanceAs (Decidable
      (test.name ∉ names s.world.directory ∧ ∀ result ∈ s.point.result, result.isPositive = true))
  | .outside (.finish _) => .isTrue trivial
  | .outside (.fail _) => .isTrue trivial
  | .outside .stop => .isTrue trivial
  | .outcome _ => .isTrue trivial
  | .tau => inferInstanceAs (Decidable
      (∀ result ∈ s.point.collecting, result.isPositive = true ∨ ¬GenerationFailed s.world.generator))
  | .move m => inferInstanceAs (Decidable (∀ loop ∈ s.point.executing, Obeys s.world loop m ∧ Ran m))

/-- The invariant at each point of `run`. -/
def AtPoint (args : Args) (w : World) (executed : List Execution) : Point → Prop
  | .processing .execution loop =>
    Sound args.processingConfig w loop ∧ ∀ x ∈ loop.executed, .ERROR ∉ x.result
  | .harness result => result.isPositive = true
  | .persist result => result.isPositive = true
  | .setStop result => result.verdict = .TRUE → Verified w.directory executed
  | .collect result => result.verdict = .TRUE → Verified w.directory executed
  | .printed verdict _ => verdict = .TRUE →
    (args.existingTestsDir = false → w.generator = .returned true) ∧ Verified w.directory executed
  | _ => True

def Begun (args : Args) (w : World) : Point → Prop
  | .prepare => w.generator = .notStarted
  | .assertUnset => w.generator = .notStarted
  | .launch => w.generator = .notStarted
  | .printed _ _ => args.existingTestsDir = true → w.generator = .notStarted
  | _ => w.generator = .notStarted ↔ args.existingTestsDir = true

structure Inv (args : Args) (s : State) : Prop where
  distinct : (names s.world.directory).Nodup
  begun : Begun args s.world s.point
  here : AtPoint args s.world s.executed s.point

section
variable {args : Args} {s t : State}

theorem inv_start {tests : List TestVector} (unique : (names tests).Nodup) : Inv args (start tests) :=
  ⟨unique, rfl, trivial⟩

theorem not_true_of_isPositive {v : Verdict} (positive : v.isPositive = true) : v.verdict ≠ .TRUE := by
  rw [isPositive_iff.mp positive]
  decide

theorem begun_outside {o : Outside} {w : World} {point : Point} (begun : Begun args s.world point)
    (taken : s.world.step o = some w) : Begun args w point := by
  cases World.steps_of_step taken with
  | write _ => exact begun
  | stop => exact begun
  | finish running => cases point <;> simp_all [Begun]
  | fail running => cases point <;> simp_all [Begun]

theorem sound_outside {o : Outside} {w : World} {loop : Loop} (inv : Inv args s) (clean : Clean s (.outside o))
    (point : s.point = .processing .execution loop) (taken : s.world.step o = some w) :
    Sound args.processingConfig w loop := by
  have here := inv.here
  simp only [AtPoint, point] at here
  refine here.1.outside ?_ ?_ taken
  · rintro t rfl
    exact clean.1
  · rintro t rfl v returned
    exact clean.2 v (by simp [Point.result, point, returned])

theorem idle_of_true {escaped : Option Raised} (inv : Inv args s) (point : s.point = .printed .TRUE escaped) :
    s.world.generator ≠ .running := by
  have begun := inv.begun
  have here := inv.here
  simp only [Begun, AtPoint, point, true_implies] at begun here
  intro running
  rw [running] at begun here
  cases existing : args.existingTestsDir with
  | true => cases begun existing
  | false => cases here.1 existing

theorem atPoint_outside {o : Outside} {w : World} (inv : Inv args s) (clean : Clean s (.outside o))
    (taken : s.world.step o = some w) : AtPoint args w s.executed s.point := by
  have here := inv.here
  -- a test that is written now comes before the result of the processing, or after an error was found
  have kept : ∀ v, s.point.result = some v → v.verdict = .TRUE → w.directory = s.world.directory := by
    intro v result isTrue
    cases World.steps_of_step taken with
    | write _ => exact absurd isTrue (not_true_of_isPositive (clean.2 v result))
    | finish _ => rfl
    | fail _ => rfl
    | stop => rfl
  cases point : s.point with
  | processing stage loop =>
    cases stage with
    | execution =>
      simp only [AtPoint, point] at here
      exact ⟨sound_outside inv clean point taken, here.2⟩
    | kleeReplay => trivial
    | continuous => trivial
  | setStop v =>
    simp only [AtPoint, point] at here
    intro isTrue
    exact kept v (by simp [Point.result, point]) isTrue ▸ here isTrue
  | collect v =>
    simp only [AtPoint, point] at here
    intro isTrue
    exact kept v (by simp [Point.result, point]) isTrue ▸ here isTrue
  | printed verdict escaped =>
    rintro rfl
    have idle := idle_of_true inv point
    simp only [AtPoint, point] at here
    cases World.steps_of_step taken with
    | write running => exact absurd running idle
    | finish running => exact absurd running idle
    | fail running => exact absurd running idle
    | stop => exact here trivial
  | harness v => simpa only [AtPoint, point] using here
  | persist v => simpa only [AtPoint, point] using here
  | _ => trivial

theorem inv_outside {o : Outside} {w : World} (inv : Inv args s) (clean : Clean s (.outside o))
    (taken : s.world.step o = some w) : Inv args { s with world := w } := by
  have here := atPoint_outside inv clean taken
  refine ⟨?_, begun_outside inv.begun taken, here⟩
  cases World.steps_of_step taken with
  | @write test _ =>
    show (names (s.world.directory ++ [test])).Nodup
    rw [names_append]
    apply inv.distinct.append (List.nodup_singleton _)
    simpa [names] using clean.1
  | finish _ => exact inv.distinct
  | fail _ => exact inv.distinct
  | stop => exact inv.distinct

theorem inv_move {m : Move} (inv : Inv args s) (clean : Clean s (.move m))
    (taken : step args s (.move m) = some t) : Inv args t := by
  cases point : s.point with
  | processing stage loop =>
    simp only [step, point, Option.map_eq_some_iff] at taken
    obtain ⟨next, moved, rfl⟩ := taken
    have begun := inv.begun
    have here := inv.here
    simp only [Begun, point] at begun
    refine ⟨inv.distinct, begun, ?_⟩
    cases stage with
    | kleeReplay => trivial
    | continuous => trivial
    | execution =>
      simp only [AtPoint, point] at here
      obtain ⟨obeys, ran⟩ := clean loop (by simp [Point.executing, point])
      refine ⟨here.1.step obeys moved, ?_⟩
      rcases Loop.executed_of_step moved with same | ⟨test, result, rfl, more⟩
      · rw [same]
        exact here.2
      · rw [more]
        intro x member
        rcases List.mem_append.mp member with before | now
        · exact here.2 x before
        · obtain rfl := List.mem_singleton.mp now
          exact ran
  | _ => simp [step, point] at taken

theorem inv_finish {v : Verdict} {raised : Option Raised} (inv : Inv args s)
    (begun : args.existingTestsDir = true → s.world.generator = .notStarted)
    (right : v.verdict = .TRUE → (args.existingTestsDir = false → s.world.generator = .returned true) ∧
      Verified s.world.directory s.executed) : Inv args (s.goto (finish args v raised)) := by
  refine ⟨inv.distinct, begun, ?_⟩
  show (if args.hasErrorMethod then v.verdict else .DONE) = .TRUE → _
  cases args.hasErrorMethod with
  | true => exact right
  | false => intro impossible; cases impossible

theorem inv_unknown {raised : Option Raised} (inv : Inv args s)
    (begun : args.existingTestsDir = true → s.world.generator = .notStarted) :
    Inv args (s.goto (finish args VerdictUnknown raised)) :=
  inv_finish inv begun fun isTrue => by cases isTrue

theorem inv_outcome {raised : Option Raised} (inv : Inv args s)
    (taken : step args s (.outcome raised) = some t) : Inv args t := by
  have begun := inv.begun
  have here := inv.here
  cases point : s.point with
  | prepare =>
    simp only [step, point, Option.some.injEq] at taken
    simp only [Begun, point] at begun
    subst taken
    cases raised with
    | none => exact ⟨inv.distinct, begun, trivial⟩
    | some e => exact inv_unknown inv fun _ => begun
  | harness v =>
    simp only [step, point, Option.some.injEq] at taken
    simp only [Begun, AtPoint, point] at begun here
    subst taken
    cases raised with
    | none =>
      refine ⟨inv.distinct, begun, fun isTrue => ?_⟩
      rw [withHarness_verdict] at isTrue
      exact absurd isTrue (not_true_of_isPositive here)
    | some e => exact inv_unknown inv begun.mpr
  | persist v =>
    simp only [step, point, Option.some.injEq] at taken
    simp only [Begun, AtPoint, point] at begun here
    subst taken
    exact inv_finish inv begun.mpr fun isTrue => absurd isTrue (not_true_of_isPositive here)
  | _ => simp [step, point] at taken

/-- Execution validation that found no error has verified what there is, once the generator is done. -/
theorem verified_of_returned {loop : Loop} {v : Verdict} {w : World} (sound : Sound args.processingConfig w loop)
    (ran : ∀ x ∈ loop.executed, .ERROR ∉ x.result) (returned : loop.point = .returned v)
    (negative : v.isPositive = false) : Verified w.directory loop.executed := by
  obtain ⟨value, complete⟩ := sound.settled v returned
  refine ⟨fun t member => ?_, ran, fun x member reached => ?_⟩
  · rcases complete with positive | complete
    · simp [positive] at negative
    · exact List.mem_map.mp (complete t member)
  · have positive : v.isPositive = true := by
      rw [value, decideFinalVerdict_isPositive]
      exact ⟨x.verdict, List.mem_map_of_mem member, (verdict_isPositive x).mpr reached⟩
    simp [positive] at negative

theorem inv_returned {stage : Stage} {loop : Loop} {v : Verdict} (validated : args.executionValidation = true)
    (inv : Inv args s) (point : s.point = .processing stage loop) (returned : loop.point = .returned v) :
    Inv args { s with
      executed := if stage = .execution then loop.executed else s.executed
      point := afterStage args v stage } := by
  have begun := inv.begun
  have here := inv.here
  simp only [Begun, point] at begun
  cases stage with
  | continuous => exact ⟨inv.distinct, begun, by simp [afterStage, conclude, AtPoint, VerdictUnknown]⟩
  | kleeReplay =>
    simp only [afterStage, afterKlee_some validated]
    by_cases positive : v.isPositive = true
    · rw [if_pos positive]
      exact ⟨inv.distinct, begun, positive⟩
    · rw [if_neg positive]
      exact ⟨inv.distinct, begun, sound_start inv.distinct, by simp [Loop.start]⟩
  | execution =>
    simp only [AtPoint, point] at here
    simp only [afterStage, afterExecution_some]
    by_cases positive : v.isPositive = true
    · rw [if_pos positive]
      exact ⟨inv.distinct, begun, positive⟩
    · rw [if_neg positive]
      refine ⟨inv.distinct, begun, fun _ => ?_⟩
      exact verified_of_returned here.1 here.2 returned (by simpa using positive)

/-- The verdict `TRUE` passes the collection of the generation result only if that did not fail. -/
theorem inv_collect {v : Verdict} (inv : Inv args s) (point : s.point = .collect v)
    (clean : v.isPositive = true ∨ ¬GenerationFailed s.world.generator) :
    Inv args (s.goto (afterGeneration args v (getGenerationResult args s.world))) := by
  have begun := inv.begun
  have here := inv.here
  simp only [Begun, AtPoint, point] at begun here
  by_cases positive : v.isPositive = true
  · have never : v.verdict ≠ .TRUE := not_true_of_isPositive positive
    unfold afterGeneration
    split
    · rw [if_pos positive]
      exact ⟨inv.distinct, begun, positive⟩
    · rw [if_pos positive]
      exact ⟨inv.distinct, begun, positive⟩
    · exact inv_finish inv begun.mpr fun isTrue => absurd isTrue never
  · have unfailed := clean.resolve_left positive
    cases existing : args.existingTestsDir with
    | true =>
      simp only [getGenerationResult, existing, if_true, afterGeneration, if_neg positive]
      exact inv_finish inv begun.mpr fun isTrue => ⟨by simp [existing], here isTrue⟩
    | false =>
      simp only [existing, Bool.false_eq_true, iff_false] at begun
      simp only [getGenerationResult, existing, Bool.false_eq_true, if_false]
      cases generator : s.world.generator with
      | notStarted => exact absurd generator begun
      | running =>
        simp only [afterGeneration, if_neg positive]
        exact inv_unknown inv (by simp [existing])
      | returned success =>
        have succeeded : success = true := by simpa [GenerationFailed, generator] using unfailed
        simp only [afterGeneration, if_neg positive]
        refine inv_finish inv (by simp [existing]) fun isTrue => ⟨fun _ => ?_, here isTrue⟩
        rw [generator, succeeded]
      | raised e =>
        have timeout : e = .timeoutError := by simpa [GenerationFailed, generator] using unfailed
        simp only [timeout, afterGeneration, if_neg positive]
        exact inv_unknown inv (by simp [existing])

theorem inv_launch (inv : Inv args s) (point : s.point = .launch) (taken : step args s .tau = some t) :
    Inv args t := by
  have begun := inv.begun
  simp only [Begun, point] at begun
  cases existing : args.existingTestsDir with
  | true =>
    simp only [step, point, existing, if_true, Option.some.injEq] at taken
    subst taken
    exact ⟨inv.distinct, by simp [Begun, State.goto, begun, existing], trivial⟩
  | false =>
    simp only [step, point, existing, Bool.false_eq_true, if_false, Option.some.injEq] at taken
    subst taken
    cases args.runParallel && args.isProcessingNecessary with
    | true => exact ⟨inv.distinct, by simp [Begun, existing], trivial⟩
    | false => exact ⟨inv.distinct, by simp [Begun, existing], trivial⟩

theorem inv_apply (inv : Inv args s) (point : s.point = .apply) (taken : step args s .tau = some t) :
    Inv args t := by
  have begun := inv.begun
  simp only [Begun, point] at begun
  cases generator : s.world.generator with
  | returned success =>
    simp only [step, point, generator, Option.some.injEq] at taken
    subst taken
    exact ⟨inv.distinct, begun, trivial⟩
  | raised e =>
    simp only [step, point, generator, Option.some.injEq] at taken
    subst taken
    exact inv_unknown inv begun.mpr
  | _ => simp [step, point, generator] at taken

theorem inv_processInputs (validated : args.executionValidation = true) (inv : Inv args s)
    (begun : s.world.generator = .notStarted ↔ args.existingTestsDir = true) :
    Inv args (s.goto (processInputs args)) := by
  rcases processInputs_validated validated with klee | execution
  · rw [klee]
    exact ⟨inv.distinct, begun, trivial⟩
  · rw [execution]
    exact ⟨inv.distinct, begun, sound_start inv.distinct, by simp [Loop.start]⟩

theorem inv_tau (validated : args.executionValidation = true) (inv : Inv args s) (clean : Clean s .tau)
    (taken : step args s .tau = some t) : Inv args t := by
  have begun := inv.begun
  have here := inv.here
  cases point : s.point with
  | launch => exact inv_launch inv point taken
  | apply => exact inv_apply inv point taken
  | assertUnset =>
    simp only [step, point, Option.some.injEq] at taken
    simp only [Begun, point] at begun
    subst taken
    split
    · exact inv_unknown inv fun _ => begun
    · exact ⟨inv.distinct, begun, trivial⟩
  | checkStop =>
    simp only [step, point, Option.some.injEq] at taken
    simp only [Begun, point] at begun
    subst taken
    split
    · exact inv_unknown inv begun.mpr
    · exact inv_processInputs validated inv begun
  | processing stage loop =>
    cases inner : loop.point with
    | returned v =>
      simp only [step, point, inner, Option.some.injEq] at taken
      exact taken ▸ inv_returned validated inv point inner
    | raised e =>
      simp only [step, point, inner, Option.some.injEq] at taken
      simp only [Begun, point] at begun
      exact taken ▸ inv_unknown inv begun.mpr
    | _ => simp [step, point, inner] at taken
  | setStop v =>
    simp only [step, point, Option.some.injEq] at taken
    simp only [Begun, AtPoint, point] at begun here
    subst taken
    exact ⟨inv.distinct, begun, here⟩
  | collect v =>
    simp only [step, point, Option.some.injEq] at taken
    exact taken ▸ inv_collect inv point (clean v (by simp [Point.collecting, point]))
  | _ => simp [step, point] at taken

theorem inv_step {l : Label} (validated : args.executionValidation = true) (clean : Clean s l) (inv : Inv args s)
    (taken : step args s l = some t) : Inv args t := by
  cases l with
  | outside o =>
    obtain ⟨w, moved, rfl⟩ := Option.map_eq_some_iff.mp taken
    exact inv_outside inv clean moved
  | move m => exact inv_move inv clean taken
  | outcome raised => exact inv_outcome inv taken
  | tau => exact inv_tau validated inv clean taken

end

/-- In a run whose steps are all clean, a printed `TRUE` is sound. -/
theorem true_is_sound {args : Args} {tests : List TestVector} {schedule : List Label} {s : State}
    (validated : args.executionValidation = true) (unique : (names tests).Nodup)
    (clean : Along (step args) Clean (start tests) schedule)
    (reached : run (step args) (start tests) schedule = some s) : TrueIsSound args s := by
  have inv : Inv args s :=
    run_invariant (Inv args) (fun s l t clean inv taken => inv_step validated clean inv taken) clean
      (inv_start unique) reached
  intro escaped printed
  have here := inv.here
  simp only [AtPoint, printed, true_implies] at here
  exact here

def validating : Args where
  errorMethod := some "__VERIFIER_error".toList
  existingTestsDir := false
  runParallel := true
  executionValidation := true
  kleeReplayValidation := false
  writeXml := false
  naiveVerification := true
  stopAfterSuccess := false

def harmlessTest : TestVector := ⟨"1".toList, "1".toList, []⟩

def harmlessSchedule : List Label :=
  [.outcome none, .tau, .tau, .tau, .outside (.write harmlessTest), .move .tau, .outside (.finish true), .move .tau,
    .move (.poll (.ok [harmlessTest])), .move (.execute (.ok [.UNKNOWN])), .move .tau, .move .tau, .move .tau,
    .move (.poll (.ok [])), .move .tau, .tau, .tau, .tau]

theorem harmlessSchedule_sound : ∃ s, run (step validating) (start []) harmlessSchedule = some s ∧
    s.point = .printed .TRUE none ∧ s.world.generator = .returned true ∧
    Verified [harmlessTest] s.executed := by
  refine ⟨_, rfl, rfl, rfl, ?_⟩
  have sound := @true_is_sound validating [] harmlessSchedule _ (by decide) (by decide) (by decide) rfl
  exact (sound none rfl).2

/-- The generator fails before it writes a test, and the verdict is `TRUE`. -/
def failedSchedule : List Label :=
  [.outcome none, .tau, .tau, .tau, .outside (.finish false), .move .tau, .move .tau, .move (.poll (.ok [])),
    .move .tau, .tau, .tau, .tau]

theorem failedGeneration_not_sound : ∃ s, run (step validating) (start []) failedSchedule = some s ∧
    s.point = .printed .TRUE none ∧ s.world.generator = .returned false ∧ ¬TrueIsSound validating s := by
  refine ⟨_, rfl, rfl, rfl, fun sound => ?_⟩
  have succeeded := (sound none rfl).1 rfl
  cases succeeded

-- A stop event that is set while the generator runs ends the loop without a last poll.
example : (run (step validating) (start []) [.outcome none, .tau, .tau, .tau, .outside (.write harmlessTest),
    .outside .stop, .move .tau, .move .tau, .move .tau, .tau, .outside (.finish true), .tau, .tau]).map
      (fun s => (s.point, s.world.directory, s.executed)) = some (.printed .TRUE none, [harmlessTest], []) := by
  decide

end Tbf.Run
