import Mathlib.Data.List.Nodup
import Tbf.Library.Transition
import Tbf.Utils

/-!
# The processing loop

`TestProcessor._perform_processing` beside an input generator. Each call into the converter or the
validator is one step, so between any two of them the generator may write and the stop event be set.
-/

namespace Tbf.Processing
open Text Transition

/-! ### What the parties share -/

inductive Generator where
  | notStarted
  | running
  | returned (success : Bool)
  | raised (e : Raised)
  deriving DecidableEq, Repr

structure World where
  directory : List TestVector
  generator : Generator
  stopped : Bool
  deriving DecidableEq, Repr

/-- `is_ready_func`: nothing more is being generated. -/
def World.isReady (w : World) : Bool := w.generator != .running

inductive Outside where
  | write (test : TestVector)
  | finish (success : Bool)
  | fail (e : Raised)
  | stop
  deriving DecidableEq, Repr

def World.step (w : World) : Outside → Option World
  | .write test => if w.generator = .running then some { w with directory := w.directory ++ [test] } else none
  | .finish success => if w.generator = .running then some { w with generator := .returned success } else none
  | .fail e => if w.generator = .running then some { w with generator := .raised e } else none
  | .stop => some { w with stopped := true }

inductive World.Steps (w : World) : Outside → World → Prop where
  | write {test : TestVector} (running : w.generator = .running) :
    Steps w (.write test) { w with directory := w.directory ++ [test] }
  | finish {success : Bool} (running : w.generator = .running) :
    Steps w (.finish success) { w with generator := .returned success }
  | fail {e : Raised} (running : w.generator = .running) : Steps w (.fail e) { w with generator := .raised e }
  | stop : Steps w .stop { w with stopped := true }

theorem World.steps_of_step {w next : World} {o : Outside} (taken : w.step o = some next) : w.Steps o next := by
  cases o with
  | write test =>
    simp only [step, Option.ite_none_right_eq_some, Option.some.injEq] at taken
    exact taken.2 ▸ .write taken.1
  | finish success =>
    simp only [step, Option.ite_none_right_eq_some, Option.some.injEq] at taken
    exact taken.2 ▸ .finish taken.1
  | fail e =>
    simp only [step, Option.ite_none_right_eq_some, Option.some.injEq] at taken
    exact taken.2 ▸ .fail taken.1
  | stop => exact Option.some.inj taken ▸ .stop

def names (tests : List TestVector) : List Str := tests.map TestVector.name

/-- What `get_test_vectors(directory, exclude)` is to return, up to order. -/
def World.unvisited (w : World) (exclude : List Str) : List TestVector :=
  w.directory.filter (!exclude.contains ·.name)

/-! ### Verdicts -/

structure ProcessingConfig where
  naiveVerification : Bool
  stopAfterSuccess : Bool
  deriving DecidableEq, Repr

def decideSingleVerdict (result : List Status) (testOrigin : Str) (testVector : Option TestVector) : Verdict :=
  if result.any (· == .FALSE) then VerdictFalse testOrigin testVector else VerdictUnknown

def decideFinalVerdict (config : ProcessingConfig) (results : List Verdict) : Verdict :=
  match results.find? Verdict.isPositive with
  | some verdict => verdict
  | none => if config.naiveVerification then VerdictTrue else VerdictUnknown

/-- Python's `==` between a list and a text. -/
def equalsText (_result : List Status) (_text : Status) : Bool := false

structure Execution where
  test : TestVector
  result : List Status
  deriving DecidableEq, Repr

def Execution.verdict (x : Execution) : Verdict := decideSingleVerdict x.result x.test.origin (some x.test)

/-! ### The loop -/

/-- The next line of `_perform_processing`; `last` is the poll after the loop. -/
inductive Point where
  | ready
  | stop
  | poll (last : Bool)
  | k (last : Bool) (ran rest : List TestVector) (results : List Verdict)
  | lastStop
  | returned (verdict : Verdict)
  | raised (e : Raised)
  deriving DecidableEq, Repr

structure Loop where
  point : Point
  visited : List Str
  verdicts : List Verdict
  executed : List Execution
  deriving DecidableEq, Repr

namespace Point

def ran : Point → List TestVector
  | k _ ran _ _ => ran
  | _ => []

def rest : Point → List TestVector
  | k _ _ rest _ => rest
  | _ => []

def results : Point → List Verdict
  | k _ _ _ results => results
  | _ => []

def isOpen : Point → Bool
  | returned _ => false
  | raised _ => false
  | _ => true

end Point

namespace Loop

def start : Loop := ⟨.ready, [], [], []⟩

def tests (loop : Loop) : List TestVector := loop.executed.map Execution.test

def goto (loop : Loop) (point : Point) : Loop := { loop with point := point }

def record (loop : Loop) (x : Execution) : Loop := { loop with executed := loop.executed ++ [x] }

section
variable (loop : Loop) (point : Point) (x : Execution)

@[simp] theorem goto_point : (loop.goto point).point = point := rfl
@[simp] theorem goto_visited : (loop.goto point).visited = loop.visited := rfl
@[simp] theorem goto_verdicts : (loop.goto point).verdicts = loop.verdicts := rfl
@[simp] theorem goto_executed : (loop.goto point).executed = loop.executed := rfl
@[simp] theorem goto_tests : (loop.goto point).tests = loop.tests := rfl
@[simp] theorem record_visited : (loop.record x).visited = loop.visited := rfl
@[simp] theorem record_verdicts : (loop.record x).verdicts = loop.verdicts := rfl
@[simp] theorem record_executed : (loop.record x).executed = loop.executed ++ [x] := rfl
@[simp] theorem record_tests : (loop.record x).tests = loop.tests ++ [x.test] := by simp [tests, record]

end

end Loop

inductive Move where
  | tau
  | poll (answer : Except Raised (List TestVector))
  | execute (answer : Except Raised (List Status))

/-- After `_k`: the batch counts as visited, unless its verdicts end the processing. -/
def Loop.after (config : ProcessingConfig) (loop : Loop) (last : Bool) (batch : List TestVector)
    (results : List Verdict) : Loop :=
  let verdicts := loop.verdicts ++ results
  if last || config.stopAfterSuccess && results.any Verdict.isPositive then
    { loop with verdicts := verdicts }.goto (.returned (decideFinalVerdict config verdicts))
  else
    { loop with verdicts := verdicts, visited := loop.visited ∪ names batch }.goto .ready

/-- One step of `_perform_processing`; `validating` is off where the validator is `None`. -/
def Loop.step (config : ProcessingConfig) (validating : Bool) (w : World) (loop : Loop) : Move → Option Loop
  | .tau =>
    match loop.point with
    | .ready => some (loop.goto (if w.isReady then .lastStop else .stop))
    | .stop => some (loop.goto (if w.stopped then .lastStop else .poll false))
    | .lastStop =>
      some (loop.goto (if w.stopped then .returned (decideFinalVerdict config loop.verdicts) else .poll true))
    | .k last ran [] results => some (loop.after config last ran results)
    | _ => none
  | .poll (.ok batch) =>
    match loop.point with
    | .poll last =>
      if validating then some (loop.goto (.k last [] batch []))
      else some (loop.after config last batch [])
    | _ => none
  | .poll (.error e) =>
    match loop.point with
    | .poll _ => some (loop.goto (.raised e))
    | _ => none
  | .execute (.ok result) =>
    match loop.point with
    | .k last ran (test :: rest) results =>
      let execution : Execution := ⟨test, result⟩
      let loop := loop.record execution
      let results := results ++ [execution.verdict]
      if config.stopAfterSuccess && equalsText result .FALSE then
        some (loop.after config last (ran ++ test :: rest) results)
      else
        some (loop.goto (.k last (ran ++ [test]) rest results))
    | _ => none
  | .execute (.error e) =>
    match loop.point with
    | .k _ _ (_ :: _) _ => some (loop.goto (.raised e))
    | _ => none

namespace Loop

inductive Steps (config : ProcessingConfig) (validating : Bool) (w : World) (loop : Loop) : Move → Loop → Prop where
  | ready (point : loop.point = .ready) :
    Steps config validating w loop .tau (loop.goto (if w.isReady then .lastStop else .stop))
  | stop (point : loop.point = .stop) :
    Steps config validating w loop .tau (loop.goto (if w.stopped then .lastStop else .poll false))
  | quit (point : loop.point = .lastStop) (stopped : w.stopped = true) :
    Steps config validating w loop .tau (loop.goto (.returned (decideFinalVerdict config loop.verdicts)))
  | look (point : loop.point = .lastStop) (runs : w.stopped = false) :
    Steps config validating w loop .tau (loop.goto (.poll true))
  | found {last : Bool} {batch : List TestVector} (point : loop.point = .poll last) (on : validating = true) :
    Steps config validating w loop (.poll (.ok batch)) (loop.goto (.k last [] batch []))
  | skipped {last : Bool} {batch : List TestVector} (point : loop.point = .poll last) (off : validating = false) :
    Steps config validating w loop (.poll (.ok batch)) (loop.after config last batch [])
  | unreadable {last : Bool} {e : Raised} (point : loop.point = .poll last) :
    Steps config validating w loop (.poll (.error e)) (loop.goto (.raised e))
  | executed {last : Bool} {ran rest : List TestVector} {results : List Verdict} {test : TestVector}
      {result : List Status} (point : loop.point = .k last ran (test :: rest) results) :
    Steps config validating w loop (.execute (.ok result))
      ((loop.record ⟨test, result⟩).goto
        (.k last (ran ++ [test]) rest (results ++ [Execution.verdict ⟨test, result⟩])))
  | failed {last : Bool} {ran rest : List TestVector} {results : List Verdict} {test : TestVector} {e : Raised}
      (point : loop.point = .k last ran (test :: rest) results) :
    Steps config validating w loop (.execute (.error e)) (loop.goto (.raised e))
  | batchDone {last : Bool} {ran : List TestVector} {results : List Verdict}
      (point : loop.point = .k last ran [] results) :
    Steps config validating w loop .tau (loop.after config last ran results)

/-- The early return of `_k` is never taken: it compares a list with a text. -/
theorem steps_of_step {config : ProcessingConfig} {validating : Bool} {w : World} {loop next : Loop} {move : Move}
    (taken : loop.step config validating w move = some next) : Steps config validating w loop move next := by
  cases move with
  | tau =>
    cases point : loop.point with
    | ready =>
      simp only [step, point, Option.some.injEq] at taken
      exact taken ▸ .ready point
    | stop =>
      simp only [step, point, Option.some.injEq] at taken
      exact taken ▸ .stop point
    | lastStop =>
      simp only [step, point, Option.some.injEq] at taken
      cases stopped : w.stopped with
      | true => exact taken ▸ by simpa [stopped] using Steps.quit point stopped
      | false => exact taken ▸ by simpa [stopped] using Steps.look point stopped
    | k last ran rest results =>
      cases rest with
      | nil =>
        simp only [step, point, Option.some.injEq] at taken
        exact taken ▸ .batchDone point
      | cons test rest => simp [step, point] at taken
    | poll last => simp [step, point] at taken
    | returned verdict => simp [step, point] at taken
    | raised e => simp [step, point] at taken
  | poll answer =>
    cases point : loop.point with
    | poll last =>
      cases answer with
      | error e =>
        simp only [step, point, Option.some.injEq] at taken
        exact taken ▸ .unreadable point
      | ok batch =>
        cases on : validating with
        | true =>
          simp only [step, point, on, if_true, Option.some.injEq] at taken
          exact taken ▸ .found point rfl
        | false =>
          simp only [step, point, on, Bool.false_eq_true, if_false, Option.some.injEq] at taken
          exact taken ▸ .skipped point rfl
    | _ => cases answer <;> simp [step, point] at taken
  | execute answer =>
    cases point : loop.point with
    | k last ran rest results =>
      cases rest with
      | nil => cases answer <;> simp [step, point] at taken
      | cons test rest =>
        cases answer with
        | error e =>
          simp only [step, point, Option.some.injEq] at taken
          exact taken ▸ .failed point
        | ok result =>
          simp only [step, point, equalsText, Bool.and_false, Bool.false_eq_true, if_false,
            Option.some.injEq] at taken
          exact taken ▸ .executed point
    | _ => cases answer <;> simp [step, point] at taken

end Loop

/-! ### Verdicts of a batch -/

theorem verdict_isPositive (x : Execution) : x.verdict.isPositive = true ↔ .FALSE ∈ x.result := by
  have searched : x.result.any (· == .FALSE) = true ↔ .FALSE ∈ x.result := by simp
  unfold Execution.verdict decideSingleVerdict
  rw [← searched]
  cases x.result.any (· == .FALSE) <;> simp [Verdict.isPositive, VerdictFalse, VerdictUnknown]

theorem decideFinalVerdict_isPositive (config : ProcessingConfig) (results : List Verdict) :
    (decideFinalVerdict config results).isPositive = true ↔ ∃ v ∈ results, v.isPositive = true := by
  unfold decideFinalVerdict
  cases found : results.find? Verdict.isPositive with
  | some verdict =>
    have positive := List.find?_some found
    exact ⟨fun _ => ⟨verdict, List.mem_of_find?_eq_some found, positive⟩, fun _ => positive⟩
  | none =>
    have negative := List.find?_eq_none.mp found
    constructor
    · cases config.naiveVerification <;> simp [Verdict.isPositive, VerdictTrue, VerdictUnknown]
    · intro ⟨v, member, positive⟩
      exact absurd positive (negative v member)

namespace Loop
variable {config : ProcessingConfig} {last : Bool} {results : List Verdict}

@[simp] theorem after_executed (loop : Loop) (batch : List TestVector) :
    (loop.after config last batch results).executed = loop.executed := by
  unfold after
  split <;> rfl

@[simp] theorem after_tests (loop : Loop) (batch : List TestVector) :
    (loop.after config last batch results).tests = loop.tests := by
  simp [tests]

theorem after_ending (loop : Loop) (batch : List TestVector)
    (ending : last = true ∨ config.stopAfterSuccess = true ∧ results.any Verdict.isPositive = true) :
    (loop.after config last batch results).point =
      .returned (decideFinalVerdict config (loop.verdicts ++ results)) := by
  unfold after
  rw [if_pos (by simpa using ending)]
  rfl

theorem after_going (loop : Loop) (batch : List TestVector)
    (going : ¬(last = true ∨ config.stopAfterSuccess = true ∧ results.any Verdict.isPositive = true)) :
    loop.after config last batch results =
      { point := .ready, visited := loop.visited ∪ names batch, verdicts := loop.verdicts ++ results,
        executed := loop.executed } := by
  unfold after
  rw [if_neg (by simpa using going)]
  rfl

/-- A batch ends the processing if it is the last one, or by a success. -/
theorem after_returned {loop : Loop} {batch : List TestVector} {v : Verdict}
    (returned : (loop.after config last batch results).point = .returned v) :
    v = decideFinalVerdict config (loop.verdicts ++ results) ∧
      (last = true ∨ config.stopAfterSuccess = true ∧ v.isPositive = true) := by
  by_cases ending : last = true ∨ config.stopAfterSuccess = true ∧ results.any Verdict.isPositive = true
  · rw [after_ending loop batch ending] at returned
    obtain rfl := Point.returned.inj returned
    refine ⟨rfl, ending.imp_right fun ⟨success, found⟩ => ⟨success, ?_⟩⟩
    obtain ⟨verdict, member, positive⟩ := List.any_eq_true.mp found
    apply (decideFinalVerdict_isPositive _ _).mpr
    exact ⟨verdict, List.mem_append_right _ member, positive⟩
  · rw [after_going loop batch ending] at returned
    cases returned

theorem executed_of_step {validating : Bool} {w : World} {loop next : Loop} {move : Move}
    (taken : loop.step config validating w move = some next) :
    next.executed = loop.executed ∨
      ∃ test result, move = .execute (.ok result) ∧ next.executed = loop.executed ++ [⟨test, result⟩] := by
  cases steps_of_step taken with
  | @executed last ran rest results test result point => exact .inr ⟨test, result, rfl, rfl⟩
  | skipped _ _ => exact .inl (after_executed _ _)
  | batchDone _ => exact .inl (after_executed _ _)
  | _ => exact .inl rfl

end Loop

theorem isPositive_iff {v : Verdict} : v.isPositive = true ↔ v.verdict = .FALSE := by
  simp [Verdict.isPositive]

/-! ### What processing keeps -/

theorem names_append (front back : List TestVector) : names (front ++ back) = names front ++ names back :=
  List.map_append

theorem mem_of_name_mem {directory tests : List TestVector} (distinct : (names directory).Nodup)
    (present : ∀ t ∈ tests, t ∈ directory) {test : TestVector} (member : test ∈ directory)
    (named : test.name ∈ names tests) : test ∈ tests := by
  obtain ⟨other, inTests, same⟩ := List.mem_map.mp named
  exact List.inj_on_of_nodup_map distinct (present other inTests) member same ▸ inTests

/-- What holds at the points from which a last poll is still to be taken or worked off. -/
def Closing (w : World) (loop : Loop) : Prop :=
  match loop.point with
  | .lastStop => w.isReady = true ∨ w.stopped = true
  | .poll true => w.isReady = true
  | .k true _ rest _ => w.isReady = true ∧ ∀ t ∈ w.directory, t ∈ loop.tests ++ rest
  | _ => True

/-- The invariant: no test runs twice, `visited` is what ran in earlier batches, and the verdicts are
those of what ran. -/
structure Sound (config : ProcessingConfig) (w : World) (loop : Loop) : Prop where
  distinct : (names w.directory).Nodup
  present : ∀ t ∈ loop.tests ++ loop.point.rest, t ∈ w.directory
  once : (names (loop.tests ++ loop.point.rest)).Nodup
  handled : loop.point.isOpen = true → ∀ n, n ∈ loop.visited ∨ n ∈ names loop.point.ran ↔ n ∈ names loop.tests
  judged : loop.point.isOpen = true → loop.verdicts ++ loop.point.results = loop.executed.map Execution.verdict
  closing : Closing w loop
  settled : ∀ v, loop.point = .returned v →
    v = decideFinalVerdict config (loop.executed.map Execution.verdict) ∧
      (v.isPositive = true ∨ ∀ t ∈ w.directory, t ∈ loop.tests)

/-- The converter answers by its contract, and the stop event, where the last look at it finds it set,
comes too late to lose a test. -/
def Obeys (w : World) (loop : Loop) : Move → Prop
  | .tau => loop.point = .lastStop → w.stopped = true → ∀ t ∈ w.directory, t ∈ loop.tests
  | .poll (.ok batch) => batch.Perm (w.unvisited loop.visited)
  | _ => True

instance (w : World) (loop : Loop) : ∀ m, Decidable (Obeys w loop m)
  | .tau => inferInstanceAs (Decidable (loop.point = .lastStop → w.stopped = true → ∀ t ∈ w.directory, t ∈ loop.tests))
  | .poll (.ok batch) => inferInstanceAs (Decidable (batch.Perm (w.unvisited loop.visited)))
  | .poll (.error _) => .isTrue trivial
  | .execute _ => .isTrue trivial

theorem sound_start {config : ProcessingConfig} {w : World} (distinct : (names w.directory).Nodup) :
    Sound config w Loop.start where
  distinct := distinct
  present := by simp [Loop.start, Loop.tests, Point.rest]
  once := by simp [Loop.start, Loop.tests, Point.rest, names]
  handled := by simp [Loop.start, Loop.tests, Point.ran, names]
  judged := by simp [Loop.start, Point.results]
  closing := trivial
  settled := by simp [Loop.start]

theorem mem_unvisited {w : World} {exclude : List Str} {test : TestVector} :
    test ∈ w.unvisited exclude ↔ test ∈ w.directory ∧ test.name ∉ exclude := by
  simp [World.unvisited]

namespace Sound
variable {config : ProcessingConfig} {w : World} {loop : Loop}

theorem found {last : Bool} {batch : List TestVector} (sound : Sound config w loop)
    (point : loop.point = .poll last) (contract : batch.Perm (w.unvisited loop.visited)) :
    Sound config w (loop.goto (.k last [] batch [])) := by
  obtain ⟨distinct, present, once, handled, judged, closing, -⟩ := sound
  simp only [point, Closing, Point.rest, Point.ran, Point.results, Point.isOpen, names, List.map_nil,
    List.not_mem_nil, or_false, List.append_nil, true_implies] at judged handled present once closing
  have batchNew : ∀ t ∈ batch, t ∈ w.directory ∧ t.name ∉ loop.visited := fun t member =>
    mem_unvisited.mp (contract.mem_iff.mp member)
  refine ⟨distinct, ?_, ?_, ?_, ?_, ?_, by simp⟩
  · intro t member
    rcases List.mem_append.mp member with ran | new
    · exact present t ran
    · exact (batchNew t new).1
  · have batchOnce : (names batch).Nodup := by
      apply (contract.map TestVector.name).nodup_iff.mpr
      exact (List.filter_sublist.map TestVector.name).nodup distinct
    show (names (loop.tests ++ batch)).Nodup
    rw [names_append]
    apply List.Nodup.append once batchOnce
    intro n ran new
    obtain ⟨t, member, rfl⟩ := List.mem_map.mp new
    exact (batchNew t member).2 ((handled _).mpr ran)
  · intro _
    simpa [names, Point.ran] using handled
  · intro _
    simpa [Point.results] using judged
  · cases last with
    | false => trivial
    | true =>
      refine ⟨closing, fun t member => ?_⟩
      by_cases seen : t.name ∈ loop.visited
      · apply List.mem_append_left
        exact mem_of_name_mem distinct present member ((handled _).mp seen)
      · apply List.mem_append_right
        exact contract.mem_iff.mpr (mem_unvisited.mpr ⟨member, seen⟩)

theorem executed {last : Bool} {ran rest : List TestVector} {results : List Verdict} {test : TestVector}
    {result : List Status} (sound : Sound config w loop) (point : loop.point = .k last ran (test :: rest) results) :
    Sound config w ((loop.record ⟨test, result⟩).goto
      (.k last (ran ++ [test]) rest (results ++ [Execution.verdict ⟨test, result⟩]))) := by
  obtain ⟨distinct, present, once, handled, judged, closing, -⟩ := sound
  simp only [point, Closing, Point.rest, Point.ran, Point.results, Point.isOpen, true_implies]
    at judged handled present once closing
  refine ⟨distinct, by simpa [Point.rest] using present, by simpa [Point.rest] using once, ?_, ?_, ?_, by simp⟩
  · intro _ n
    have before := handled n
    simp only [Loop.goto_point, Loop.goto_visited, Loop.goto_tests, Loop.record_visited, Loop.record_tests,
      Point.ran, names_append, List.mem_append, ← or_assoc, before]
  · intro _
    simp [← judged, Point.results]
  · cases last with
    | false => trivial
    | true => exact ⟨closing.1, by simpa using closing.2⟩

theorem after {last : Bool} {ran : List TestVector} {results : List Verdict} (sound : Sound config w loop)
    (point : loop.point = .k last ran [] results) : Sound config w (loop.after config last ran results) := by
  obtain ⟨distinct, present, once, handled, judged, closing, -⟩ := sound
  simp only [point, Closing, Point.rest, Point.ran, Point.results, Point.isOpen, List.append_nil, true_implies]
    at judged handled present once closing
  by_cases ending : last = true ∨ config.stopAfterSuccess = true ∧ results.any Verdict.isPositive = true
  · have returned := Loop.after_ending loop ran ending
    refine ⟨distinct, ?_, ?_, ?_, ?_, ?_, ?_⟩
    · simpa [returned, Point.rest] using present
    · simpa [returned, Point.rest] using once
    · simp [returned, Point.isOpen]
    · simp [returned, Point.isOpen]
    · simp [Closing, returned]
    · intro v same
      obtain ⟨value, cause⟩ := Loop.after_returned same
      rw [Loop.after_executed, Loop.after_tests, ← judged]
      refine ⟨value, ?_⟩
      rcases cause with rfl | early
      · exact .inr (by simpa using closing.2)
      · exact .inl early.2
  · rw [Loop.after_going loop ran ending]
    refine ⟨distinct, ?_, ?_, ?_, ?_, trivial, ?_⟩
    · simpa [Point.rest, Loop.tests] using present
    · simpa [Point.rest, Loop.tests] using once
    · intro _ n
      simpa [Point.ran, names, Loop.tests] using handled n
    · intro _
      simpa [Point.results] using judged
    · simp

theorem idle {next : Point} (sound : Sound config w loop) (live : loop.point.isOpen = true)
    (here : loop.point.ran = [] ∧ loop.point.rest = [] ∧ loop.point.results = [])
    (there : next.ran = [] ∧ next.rest = [] ∧ next.results = []) (closing : Closing w (loop.goto next))
    (unreturned : ∀ v, next ≠ .returned v) : Sound config w (loop.goto next) where
  distinct := sound.distinct
  present := by simpa [here, there] using sound.present
  once := by simpa [here, there] using sound.once
  handled := fun _ n => by simpa [here, there] using sound.handled live n
  judged := fun _ => by simpa [here, there] using sound.judged live
  closing := closing
  settled := fun v returned => absurd returned (unreturned v)

theorem abandoned {e : Raised} (sound : Sound config w loop) : Sound config w (loop.goto (.raised e)) where
  distinct := sound.distinct
  present := fun t member => sound.present t (List.mem_append_left _ (by simpa [Point.rest] using member))
  once := by
    have once := sound.once
    rw [names_append] at once
    simpa [Point.rest] using once.of_append_left
  handled := by simp [Point.isOpen]
  judged := by simp [Point.isOpen]
  closing := trivial
  settled := by simp

/-- Every step of the processing keeps the invariant, as long as it obeys. -/
theorem step {move : Move} {next : Loop} (sound : Sound config w loop) (obeys : Obeys w loop move)
    (taken : loop.step config true w move = some next) : Sound config w next := by
  cases Loop.steps_of_step taken with
  | ready point =>
    cases ready : w.isReady <;>
      exact sound.idle (by simp [point, Point.isOpen]) (by simp [point, Point.ran, Point.rest, Point.results])
        (by simp [Point.ran, Point.rest, Point.results]) (by simp [Closing, ready]) (by simp)
  | stop point =>
    cases stopped : w.stopped <;>
      exact sound.idle (by simp [point, Point.isOpen]) (by simp [point, Point.ran, Point.rest, Point.results])
        (by simp [Point.ran, Point.rest, Point.results]) (by simp [Closing, stopped]) (by simp)
  | look point runs =>
    have closing : w.isReady = true := by simpa [Closing, point, runs] using sound.closing
    exact sound.idle (by simp [point, Point.isOpen]) (by simp [point, Point.ran, Point.rest, Point.results])
        (by simp [Point.ran, Point.rest, Point.results]) (by simpa [Closing] using closing) (by simp)
  | quit point stopped =>
    have judged : loop.verdicts = loop.executed.map Execution.verdict := by
      simpa [point, Point.results] using sound.judged (by simp [point, Point.isOpen])
    refine ⟨sound.distinct, by simpa [point, Point.rest] using sound.present,
      by simpa [point, Point.rest] using sound.once, by simp [Point.isOpen], by simp [Point.isOpen], trivial, ?_⟩
    intro v returned
    obtain rfl := Point.returned.inj returned
    exact ⟨congrArg _ judged, .inr (obeys point stopped)⟩
  | found point _ => exact sound.found point obeys
  | skipped _ off => cases off
  | unreadable _ => exact sound.abandoned
  | executed point => exact sound.executed point
  | failed _ => exact sound.abandoned
  | batchDone point => exact sound.after point

theorem closing_done {g : Generator} (closing : Closing w loop) (done : g ≠ .running) :
    Closing { w with generator := g } loop := by
  have ready : World.isReady { w with generator := g } = true := by simpa [World.isReady] using done
  unfold Closing at closing ⊢
  split at closing
  · exact .inl ready
  · exact ready
  · exact ⟨ready, closing.2⟩
  · trivial

/-- While the generator runs, the directory can become any other that keeps what was taken from it: the last poll is
only taken behind the end of the generator. -/
theorem rewrite {directory : List TestVector} (sound : Sound config w loop) (running : w.generator = .running)
    (distinct : (names directory).Nodup) (present : ∀ t ∈ loop.tests ++ loop.point.rest, t ∈ directory)
    (late : ∀ v, loop.point = .returned v → v.isPositive = true) : Sound config { w with directory } loop := by
  have closing := sound.closing
  refine ⟨distinct, present, sound.once, sound.handled, sound.judged, ?_, fun v returned =>
    ⟨(sound.settled v returned).1, .inl (late v returned)⟩⟩
  have busy : w.isReady = false := by simp [World.isReady, running]
  unfold Closing at closing ⊢
  split at closing
  · simp only [busy, Bool.false_eq_true, false_or] at closing
    exact .inr closing
  · simp [busy] at closing
  · simp [busy] at closing
  · trivial

/-- What the generator and the clock do in between keeps the invariant: a test that comes after the
processing returned comes after a success. -/
theorem outside {o : Outside} {w' : World} (sound : Sound config w loop)
    (fresh : ∀ t, o = .write t → t.name ∉ names w.directory)
    (late : ∀ t, o = .write t → ∀ v, loop.point = .returned v → v.isPositive = true)
    (taken : w.step o = some w') : Sound config w' loop := by
  have closing := sound.closing
  cases World.steps_of_step taken with
  | stop =>
    refine { sound with closing := ?_ }
    unfold Closing at closing ⊢
    split at closing
    · exact .inr rfl
    · exact closing
    · exact closing
    · trivial
  | @write t running =>
    refine sound.rewrite running ?_ (fun u member => List.mem_append_left _ (sound.present u member)) (late t rfl)
    rw [names_append]
    apply sound.distinct.append (List.nodup_singleton _)
    simpa [names] using fresh t rfl
  | finish _ => exact { sound with closing := closing_done closing (by simp) }
  | fail _ => exact { sound with closing := closing_done closing (by simp) }

end Sound

end Tbf.Processing
