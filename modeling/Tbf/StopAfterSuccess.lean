import Mathlib.Data.List.Find
import Tbf.Parallel
import Tbf.Statistics

/-!
# Stopping after the first success

The processing loop with the statistics that `_k` keeps, for any batches and any results of the tests.
-/

namespace Tbf.StopAfterSuccess
open Text Numeral Transition Processing TestProcessor
open Parallel (Label quietTest errorTest)

/-- `handed` is ghost state: the tests of the batches that `_k` was given so far. -/
structure State where
  world : World
  loop : Loop
  processor : TestProcessor
  handed : List TestVector
  deriving DecidableEq, Repr

def batchOf : Move → List TestVector
  | .poll (.ok batch) => batch
  | _ => []

/-- What `_k` does to the processor when a test ran; an exception gets past both lines. -/
def account (config : ProcessingConfig) (loop : Loop) (p : TestProcessor) : Move → TestProcessor
  | .execute (.ok result) =>
    match loop.point with
    | .k _ _ (test :: _) _ =>
      if config.stopAfterSuccess && equalsText result .FALSE then p.incHandled.setFinalSize test.length
      else p.incHandled
    | _ => p
  | _ => p

def step (config : ProcessingConfig) (s : State) : Label → Option State
  | .outside o => (s.world.step o).map fun w => { s with world := w }
  | .move m => (s.loop.step config true s.world m).map fun loop =>
      ⟨s.world, loop, account config s.loop s.processor m, s.handed ++ batchOf m⟩

def start (w : World) : State := ⟨w, Loop.start, fresh, []⟩

/-- The tests have the results that are assigned to them. -/
def Answers (result : TestVector → List Status) (s : State) : Label → Prop
  | .move (.execute (.ok answer)) => s.loop.point.rest.head?.map result = some answer
  | _ => True

instance (result : TestVector → List Status) (s : State) : ∀ l, Decidable (Answers result s l)
  | .move (.execute (.ok answer)) => inferInstanceAs (Decidable (s.loop.point.rest.head?.map result = some answer))
  | .move (.execute (.error _)) | .move .tau | .move (.poll _) | .outside _ => .isTrue trivial

/-! ### What is to happen -/

def reaches (result : TestVector → List Status) (test : TestVector) : Bool := (result test).any (· == .FALSE)

/-- The first element that passes, with all before it. -/
def upToFirst {α : Type*} (p : α → Bool) : List α → List α
  | [] => []
  | x :: xs => if p x then [x] else x :: upToFirst p xs

/-- What stopping after a success is to mean for the tests handed to `_k`, in a state that returned `v`. -/
structure StopsAtFirst (result : TestVector → List Status) (s : State) (v : Verdict) : Prop where
  executed : s.loop.tests = upToFirst (reaches result) s.handed
  carries : ∀ t, s.handed.find? (reaches result) = some t → v.verdict = .FALSE ∧ v.testVector = some t
  shows : ∀ t, s.handed.find? (reaches result) = some t → s.processor.shownSize = some (decimal t.length)

theorem upToFirst_of_none {α : Type*} {p : α → Bool} {xs : List α} (absent : ∀ x ∈ xs, p x = false) :
    upToFirst p xs = xs := by
  induction xs with
  | nil => rfl
  | cons x xs ih =>
    obtain ⟨here, others⟩ := List.forall_mem_cons.mp absent
    rw [upToFirst, here, ih others]
    rfl

/-! ### What a run keeps -/

section
variable {config : ProcessingConfig} {result : TestVector → List Status} {s t : State}

/-- The size is never assigned to the object that the statistics show. -/
theorem account_keeps (config : ProcessingConfig) (loop : Loop) (p : TestProcessor) (m : Move) :
    (account config loop p m).stats = p.stats ∧ (account config loop p m).constant = p.constant := by
  unfold account
  split
  · split
    · split <;> exact ⟨rfl, rfl⟩
    · exact ⟨rfl, rfl⟩
  · exact ⟨rfl, rfl⟩

/-- The loop follows what it is handed: all of it has run, but for the rest of the current batch. -/
structure Follows (config : ProcessingConfig) (result : TestVector → List Status) (handed : List TestVector) (loop : Loop) :
    Prop where
  ran : (∀ e, loop.point ≠ .raised e) → loop.tests ++ loop.point.rest = handed
  answered : ∀ x ∈ loop.executed, x.result = result x.test
  judged : loop.point.isOpen = true → loop.verdicts ++ loop.point.results = loop.executed.map Execution.verdict
  settled : ∀ v, loop.point = .returned v → v = decideFinalVerdict config (loop.executed.map Execution.verdict)

namespace Follows
variable {handed : List TestVector} {loop : Loop}

theorem idle {next : Point} (follows : Follows config result handed loop) (live : loop.point.isOpen = true)
    (here : loop.point.rest = [] ∧ loop.point.results = []) (there : next.rest = [] ∧ next.results = [])
    (unreturned : ∀ v, next ≠ .returned v) : Follows config result handed (loop.goto next) where
  ran := by
    intro _
    have ran := follows.ran fun e raised => by simp [raised, Point.isOpen] at live
    rw [here.1] at ran
    simpa [there.1] using ran
  answered := follows.answered
  judged := fun _ => by simpa [here.2, there.2] using follows.judged live
  settled := fun v returned => absurd returned (unreturned v)

theorem quit (follows : Follows config result handed loop) (point : loop.point = .lastStop) :
    Follows config result handed (loop.goto (.returned (decideFinalVerdict config loop.verdicts))) where
  ran := fun _ => by simpa [point, Point.rest] using follows.ran (by simp [point])
  answered := follows.answered
  judged := by simp [Point.isOpen]
  settled := by
    intro v returned
    have judged := follows.judged (by simp [point, Point.isOpen])
    simp only [point, Point.results, List.append_nil] at judged
    rw [← Point.returned.inj returned, judged, Loop.goto_executed]

theorem found {last : Bool} (follows : Follows config result handed loop) (point : loop.point = .poll last)
    (batch : List TestVector) : Follows config result (handed ++ batch) (loop.goto (.k last [] batch [])) where
  ran := by
    intro _
    have ran := follows.ran (by simp [point])
    simp only [point, Point.rest, List.append_nil] at ran
    simp [ran, Point.rest]
  answered := follows.answered
  judged := fun _ => by simpa [point, Point.results] using follows.judged (by simp [point, Point.isOpen])
  settled := by simp

theorem abandoned {e : Raised} (follows : Follows config result handed loop) :
    Follows config result handed (loop.goto (.raised e)) where
  ran := fun open' => absurd rfl (open' e)
  answered := follows.answered
  judged := by simp [Point.isOpen]
  settled := by simp

theorem executed {last : Bool} {ran rest : List TestVector} {results : List Verdict} {test : TestVector}
    {answer : List Status} (follows : Follows config result handed loop)
    (point : loop.point = .k last ran (test :: rest) results) (answers : answer = result test) :
    Follows config result handed ((loop.record ⟨test, answer⟩).goto
      (.k last (ran ++ [test]) rest (results ++ [Execution.verdict ⟨test, answer⟩]))) where
  ran := fun _ => by simpa [point, Point.rest] using follows.ran (by simp [point])
  answered := by
    intro x member
    rcases List.mem_append.mp member with before | now
    · exact follows.answered x before
    · obtain rfl := List.mem_singleton.mp now
      exact answers
  judged := by
    intro _
    have judged := follows.judged (by simp [point, Point.isOpen])
    rw [point] at judged
    simp only [Point.results] at judged
    simp [Point.results, ← judged]
  settled := by simp

theorem after {last : Bool} {ran : List TestVector} {results : List Verdict} (follows : Follows config result handed loop)
    (point : loop.point = .k last ran [] results) : Follows config result handed (loop.after config last ran results) := by
  have judged := follows.judged (by simp [point, Point.isOpen])
  have before := follows.ran (by simp [point])
  simp only [point, Point.results, Point.rest, List.append_nil] at judged before
  by_cases ending : last = true ∨ config.stopAfterSuccess = true ∧ results.any Verdict.isPositive = true
  · have returned := Loop.after_ending loop ran ending
    refine ⟨fun _ => ?_, by simpa using follows.answered, by simp [returned, Point.isOpen], fun v same => ?_⟩
    · simpa [returned, Point.rest] using before
    · rw [(Loop.after_returned same).1, judged, Loop.after_executed]
  · rw [Loop.after_going loop ran ending]
    exact ⟨fun _ => by simpa [Loop.tests, Point.rest] using before, follows.answered,
      fun _ => by simpa [Point.results] using judged, by simp⟩

theorem unhanded (follows : Follows config result handed loop) : Follows config result (handed ++ []) loop := by
  rwa [List.append_nil]

/-- Every step keeps up with the batches, as long as the tests have their results. -/
theorem step {w : World} {m : Move} {next : Loop} (follows : Follows config result handed loop)
    (answers : ∀ answer, m = .execute (.ok answer) → loop.point.rest.head?.map result = some answer)
    (taken : loop.step config true w m = some next) : Follows config result (handed ++ batchOf m) next := by
  cases Loop.steps_of_step taken with
  | ready point =>
    apply unhanded
    cases w.isReady <;>
      exact follows.idle (by simp [point, Point.isOpen]) (by simp [point, Point.rest, Point.results])
        (by simp [Point.rest, Point.results]) (by simp)
  | stop point =>
    apply unhanded
    cases w.stopped <;>
      exact follows.idle (by simp [point, Point.isOpen]) (by simp [point, Point.rest, Point.results])
        (by simp [Point.rest, Point.results]) (by simp)
  | look point runs =>
    apply unhanded
    exact follows.idle (by simp [point, Point.isOpen]) (by simp [point, Point.rest, Point.results])
      (by simp [Point.rest, Point.results]) (by simp)
  | quit point stopped => exact (follows.quit point).unhanded
  | found point _ => exact follows.found point _
  | skipped _ off => cases off
  | unreadable _ => exact follows.abandoned.unhanded
  | executed point =>
    have answer := answers _ rfl
    rw [point] at answer
    exact (follows.executed point (Option.some.inj answer).symm).unhanded
  | failed _ => exact follows.abandoned.unhanded
  | batchDone point => exact (follows.after point).unhanded

end Follows

structure Inv (config : ProcessingConfig) (result : TestVector → List Status) (s : State) : Prop where
  stats : s.processor.stats = fresh.stats
  constant : s.processor.constant = none
  follows : Follows config result s.handed s.loop

theorem inv_start (w : World) : Inv config result (start w) :=
  ⟨rfl, rfl, fun _ => rfl, nofun, fun _ => rfl, nofun⟩

theorem inv_step {l : Label} (answers : Answers result s l) (inv : Inv config result s) (taken : step config s l = some t) :
    Inv config result t := by
  cases l with
  | outside o =>
    obtain ⟨w, _, rfl⟩ := Option.map_eq_some_iff.mp taken
    exact { inv with }
  | move m =>
    obtain ⟨loop, moved, rfl⟩ := Option.map_eq_some_iff.mp taken
    obtain ⟨stats, constant⟩ := account_keeps config s.loop s.processor m
    refine ⟨stats.trans inv.stats, constant.trans inv.constant, inv.follows.step (fun answer same => ?_) moved⟩
    subst same
    exact answers

theorem inv_run {w : World} {schedule : List Label} (answers : Along (step config) (Answers result) (start w) schedule)
    (reached : run (step config) (start w) schedule = some s) : Inv config result s :=
  run_invariant (Inv config result) (fun _ _ _ answers inv taken => inv_step answers inv taken) answers (inv_start w) reached

/-! ### The end of a run -/

/-- All that was handed to `_k` ran, also behind the first success. -/
theorem tests_returned {v : Verdict} (inv : Inv config result s) (returned : s.loop.point = .returned v) :
    s.loop.tests = s.handed := by
  have ran := inv.follows.ran (by simp [returned])
  rw [returned] at ran
  simpa [Point.rest] using ran

theorem verdict_reaches {x : Execution} (answered : x.result = result x.test) :
    x.verdict.isPositive = reaches result x.test := by
  unfold reaches Execution.verdict decideSingleVerdict
  rw [answered]
  cases (result x.test).any (· == .FALSE) <;> rfl

theorem find_verdict {executed : List Execution} (answered : ∀ x ∈ executed, x.result = result x.test) :
    (executed.map Execution.verdict).find? Verdict.isPositive =
      (executed.find? (reaches result ∘ Execution.test)).map Execution.verdict := by
  rw [List.find?_map]
  apply congrArg
  exact List.find?_congr fun x member => verdict_reaches (answered x member)

/-- The verdict carries the first test that reaches the error method. -/
theorem carries_returned {v : Verdict} (inv : Inv config result s) (returned : s.loop.point = .returned v) {test : TestVector}
    (first : s.handed.find? (reaches result) = some test) : v.verdict = .FALSE ∧ v.testVector = some test := by
  have value := inv.follows.settled v returned
  rw [← tests_returned inv returned, Loop.tests, List.find?_map] at first
  obtain ⟨x, found, rfl⟩ := Option.map_eq_some_iff.mp first
  have reached : (reaches result ∘ Execution.test) x = true := List.find?_some found
  have answered := inv.follows.answered x (List.mem_of_find?_eq_some found)
  have same : x.verdict = VerdictFalse x.test.origin (some x.test) := by
    unfold Execution.verdict decideSingleVerdict
    rw [answered]
    exact if_pos reached
  rw [decideFinalVerdict, find_verdict inv.follows.answered, found, Option.map_some] at value
  rw [value, same]
  exact ⟨rfl, rfl⟩

end

/-- The tests handed to `_k` are run as far as the first success, and told of, exactly if there is no success. -/
theorem stopsAtFirst_iff {naive : Bool} {result : TestVector → List Status} {w : World} {schedule : List Label} {s : State}
    {v : Verdict} (answers : Along (step ⟨naive, true⟩) (Answers result) (start w) schedule)
    (reached : run (step ⟨naive, true⟩) (start w) schedule = some s) (returned : s.loop.point = .returned v) :
    StopsAtFirst result s v ↔ ∀ test ∈ s.handed, reaches result test = false := by
  have inv := inv_run answers reached
  constructor
  · intro stops
    cases first : s.handed.find? (reaches result) with
    | none => exact fun test member => by simpa using List.find?_eq_none.mp first test member
    | some test =>
      have shown := stops.shows test first
      rw [TestProcessor.shownSize_none inv.stats inv.constant] at shown
      have digit := isDigit_of_mem_decimal (n := test.length) (c := 'N') (by rw [← Option.some.inj shown]; decide)
      cases digit
  · intro quiet
    have absent : s.handed.find? (reaches result) = none :=
      List.find?_eq_none.mpr fun test member => by simp [quiet test member]
    refine ⟨?_, fun test first => ?_, fun test first => ?_⟩
    · rw [tests_returned inv returned, upToFirst_of_none quiet]
    · rw [absent] at first
      cases first
    · rw [absent] at first
      cases first

/-- Nothing is generated: the only batch is that of the last poll. -/
def existingTests (tests : List TestVector) : World := ⟨tests, .returned true, false⟩

def quietSchedule : List Label :=
  [.move .tau, .move .tau, .move (.poll (.ok [quietTest])), .move (.execute (.ok [.UNKNOWN])), .move .tau]

def successSchedule : List Label :=
  [.move .tau, .move .tau, .move (.poll (.ok [errorTest, quietTest])), .move (.execute (.ok [.FALSE])),
    .move (.execute (.ok [.UNKNOWN])), .move .tau]

theorem quietSchedule_stops : ∃ s v, run (step ⟨false, true⟩) (start (existingTests [quietTest])) quietSchedule = some s ∧
    s.loop.point = .returned v ∧ StopsAtFirst Parallel.reaches s v :=
  ⟨_, _, rfl, rfl, (@stopsAtFirst_iff false Parallel.reaches (existingTests [quietTest]) quietSchedule _ _ (by decide) rfl rfl).mpr
    (by decide)⟩

/-- The test behind the one that Parallel.reaches the error is run as well, and no size is shown. -/
theorem successSchedule_runsOn :
    Along (step ⟨false, true⟩) (Answers Parallel.reaches) (start (existingTests [errorTest, quietTest])) successSchedule ∧
    ∃ s v, run (step ⟨false, true⟩) (start (existingTests [errorTest, quietTest])) successSchedule = some s ∧
      s.loop.point = .returned v ∧ s.handed = [errorTest, quietTest] ∧ s.loop.tests = [errorTest, quietTest] ∧
      s.processor.shownSize = some "None".toList ∧ ¬ StopsAtFirst Parallel.reaches s v := by
  refine ⟨by decide, _, _, rfl, rfl, rfl, rfl, by decide, fun stops => ?_⟩
  exact absurd stops.executed (by decide)

end Tbf.StopAfterSuccess
