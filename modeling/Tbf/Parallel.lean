import Tbf.Processing

/-!
# Parallel and sequential processing

The processing loop beside a generator that only adds tests, with a converter and a validator that keep
their contracts. A sequential run is one in which the generator is done before the loop starts.
-/

namespace Tbf.Parallel
open Text Transition Processing

structure State where
  world : World
  loop : Loop
  deriving DecidableEq, Repr

inductive Label where
  | outside (o : Outside)
  | move (m : Move)

def step (config : ProcessingConfig) (s : State) : Label → Option State
  | .outside o => (s.world.step o).map fun w => { s with world := w }
  | .move m => (s.loop.step config true s.world m).map fun loop => { s with loop := loop }

def start (tests : List TestVector) (generator : Generator) : State := ⟨⟨tests, generator, false⟩, Loop.start⟩

/-- Names are unique, the stop event stays unset, a poll returns the unvisited tests in some order, and
the validator's answer is a function of the test. -/
def Contract (result : TestVector → List Status) (s : State) : Label → Prop
  | .outside (.write test) => test.name ∉ names s.world.directory
  | .outside .stop => False
  | .outside _ => True
  | .move .tau => True
  | .move (.poll (.ok batch)) => batch.Perm (s.world.unvisited s.loop.visited)
  | .move (.poll (.error _)) => False
  | .move (.execute (.ok answer)) => s.loop.point.rest.head?.map result = some answer
  | .move (.execute (.error _)) => False

instance (result : TestVector → List Status) (s : State) : ∀ l, Decidable (Contract result s l)
  | .outside (.write test) => inferInstanceAs (Decidable (test.name ∉ names s.world.directory))
  | .outside .stop => .isFalse id
  | .outside (.finish _) => .isTrue trivial
  | .outside (.fail _) => .isTrue trivial
  | .move .tau => .isTrue trivial
  | .move (.poll (.ok batch)) => inferInstanceAs (Decidable (batch.Perm (s.world.unvisited s.loop.visited)))
  | .move (.poll (.error _)) => .isFalse id
  | .move (.execute (.ok answer)) => inferInstanceAs (Decidable (s.loop.point.rest.head?.map result = some answer))
  | .move (.execute (.error _)) => .isFalse id

/-- The verdict of a run in which `is_ready` holds from the start. -/
def Sequential (config : ProcessingConfig) (result : TestVector → List Status) (tests : List TestVector)
    (v : Verdict) : Prop :=
  ∃ schedule s, Along (step config) (Contract result) (start tests (.returned true)) schedule ∧
    run (step config) (start tests (.returned true)) schedule = some s ∧ s.loop.point = .returned v

structure Inv (config : ProcessingConfig) (result : TestVector → List Status) (s : State) : Prop where
  sound : Sound config s.world s.loop
  unstopped : s.world.stopped = false
  answered : ∀ x ∈ s.loop.executed, x.result = result x.test
  unraised : ∀ e, s.loop.point ≠ .raised e
  early : ∀ v, s.loop.point = .returned v →
    s.world.isReady = true ∧ (∀ t ∈ s.world.directory, t ∈ s.loop.tests) ∨
      config.stopAfterSuccess = true ∧ v.isPositive = true

section
variable {config : ProcessingConfig} {result : TestVector → List Status} {s t : State}

theorem inv_start {tests : List TestVector} {generator : Generator} (unique : (names tests).Nodup) :
    Inv config result (start tests generator) where
  sound := sound_start unique
  unstopped := rfl
  answered := by simp [start, Loop.start]
  unraised := by simp [start, Loop.start]
  early := by simp [start, Loop.start]

/-- A result that the loop has returned beside a running generator is an early success. -/
theorem early_of_running (inv : Inv config result s) (running : s.world.generator = .running) {v : Verdict}
    (returned : s.loop.point = .returned v) : config.stopAfterSuccess = true ∧ v.isPositive = true := by
  rcases inv.early v returned with ready | success
  · simp [World.isReady, running] at ready
  · exact success

/-- The directory may change while the generator runs, but for the tests that a poll has returned. -/
theorem inv_rewrite {directory : List TestVector} (inv : Inv config result s) (running : s.world.generator = .running)
    (distinct : (names directory).Nodup) (present : ∀ t ∈ s.loop.tests ++ s.loop.point.rest, t ∈ directory) :
    Inv config result { s with world := { s.world with directory } } where
  sound := inv.sound.rewrite running distinct present fun _ returned => (early_of_running inv running returned).2
  unstopped := inv.unstopped
  answered := inv.answered
  unraised := inv.unraised
  early _ returned := .inr (early_of_running inv running returned)

theorem inv_outside {o : Outside} {w : World} (inv : Inv config result s)
    (contract : Contract result s (.outside o)) (taken : s.world.step o = some w) :
    Inv config result { s with world := w } := by
  cases World.steps_of_step taken with
  | stop => exact contract.elim
  | @write t running =>
    have fresh : t.name ∉ names s.world.directory := contract
    refine inv_rewrite inv running ?_ fun u member => List.mem_append_left _ (inv.sound.present u member)
    rw [names_append]
    apply inv.sound.distinct.append (List.nodup_singleton _)
    simpa [names] using fresh
  | finish _ =>
    have sound := inv.sound.outside (by simp) (by simp) taken
    refine ⟨sound, inv.unstopped, inv.answered, inv.unraised, fun v returned => ?_⟩
    exact (inv.early v returned).imp_left fun complete => ⟨by simp [World.isReady], complete.2⟩
  | fail _ =>
    have sound := inv.sound.outside (by simp) (by simp) taken
    refine ⟨sound, inv.unstopped, inv.answered, inv.unraised, fun v returned => ?_⟩
    exact (inv.early v returned).imp_left fun complete => ⟨by simp [World.isReady], complete.2⟩

theorem obeys_of_contract {m : Move} (inv : Inv config result s) (contract : Contract result s (.move m)) :
    Obeys s.world s.loop m := by
  cases m with
  | tau =>
    intro _ stopped
    simp [inv.unstopped] at stopped
  | poll answer =>
    cases answer with
    | ok batch => exact contract
    | error e => trivial
  | execute answer => trivial

theorem inv_move {m : Move} {loop : Loop} (inv : Inv config result s) (contract : Contract result s (.move m))
    (taken : s.loop.step config true s.world m = some loop) : Inv config result { s with loop := loop } := by
  have sound := inv.sound.step (obeys_of_contract inv contract) taken
  cases Loop.steps_of_step taken with
  | ready point =>
    refine ⟨sound, inv.unstopped, inv.answered, ?_, ?_⟩
    all_goals cases s.world.isReady <;> simp
  | stop point =>
    refine ⟨sound, inv.unstopped, inv.answered, ?_, ?_⟩
    all_goals cases s.world.stopped <;> simp
  | look point runs => exact ⟨sound, inv.unstopped, inv.answered, by simp, by simp⟩
  | quit point stopped => simp [inv.unstopped] at stopped
  | found point on => exact ⟨sound, inv.unstopped, inv.answered, by simp, by simp⟩
  | skipped point off => cases off
  | unreadable point => exact contract.elim
  | failed point => exact contract.elim
  | executed point =>
    refine ⟨sound, inv.unstopped, ?_, by simp, by simp⟩
    have answer := contract
    simp only [Contract, point, Point.rest, List.head?_cons, Option.map_some, Option.some.injEq] at answer
    intro x member
    rcases List.mem_append.mp member with before | now
    · exact inv.answered x before
    · obtain rfl := List.mem_singleton.mp now
      exact answer.symm
  | @batchDone last ran results point =>
    refine ⟨sound, inv.unstopped, ?_, ?_, ?_⟩
    · simpa using inv.answered
    · intro e raised
      unfold Loop.after at raised
      split at raised <;> cases raised
    · intro v returned
      rcases (Loop.after_returned returned).2 with rfl | success
      · have closing := inv.sound.closing
        simp only [Closing, point, List.append_nil] at closing
        exact .inl ⟨closing.1, by simpa using closing.2⟩
      · exact .inr success

theorem inv_step {l : Label} (contract : Contract result s l) (inv : Inv config result s)
    (taken : step config s l = some t) : Inv config result t := by
  cases l with
  | outside o =>
    obtain ⟨w, moved, rfl⟩ := Option.map_eq_some_iff.mp taken
    exact inv_outside inv contract moved
  | move m =>
    obtain ⟨loop, moved, rfl⟩ := Option.map_eq_some_iff.mp taken
    exact inv_move inv contract moved

/-! ### Once the generator is done -/

/-- A bound on the steps that are left once nothing more is generated. -/
def stepsLeft (s : State) : Nat :=
  let n := s.world.directory.length
  match s.loop.point with
  | .stop => 2 * n + 7
  | .poll false => 2 * n + 6
  | .k false _ rest _ => rest.length + n + 5
  | .ready => n + 4
  | .lastStop => n + 3
  | .poll true => n + 2
  | .k true _ rest _ => rest.length + 1
  | .returned _ => 0
  | .raised _ => 0

theorem batch_length {batch : List TestVector} {w : World} {exclude : List Str}
    (contract : batch.Perm (w.unvisited exclude)) : batch.length ≤ w.directory.length :=
  contract.length_eq ▸ List.length_filter_le _ _

theorem step_done {l : Label} (contract : Contract result s l) (inv : Inv config result s)
    (done : s.world.isReady = true) (taken : step config s l = some t) :
    t.world = s.world ∧ stepsLeft t < stepsLeft s := by
  cases l with
  | outside o =>
    have idle : s.world.generator ≠ .running := by simpa [World.isReady] using done
    obtain ⟨w, moved, rfl⟩ := Option.map_eq_some_iff.mp taken
    cases World.steps_of_step moved with
    | stop => exact contract.elim
    | write running => exact absurd running idle
    | finish running => exact absurd running idle
    | fail running => exact absurd running idle
  | move m =>
    obtain ⟨loop, moved, rfl⟩ := Option.map_eq_some_iff.mp taken
    refine ⟨rfl, ?_⟩
    have unstopped := inv.unstopped
    cases Loop.steps_of_step moved with
    | ready point => simp [stepsLeft, point, done]
    | stop point => simp [stepsLeft, point, unstopped]
    | look point runs => simp [stepsLeft, point]
    | quit point stopped => simp [unstopped] at stopped
    | @found last batch point on =>
      have short := batch_length contract
      cases last <;> simp only [stepsLeft, point, Loop.goto_point] <;> omega
    | skipped point off => cases off
    | unreadable point => exact contract.elim
    | failed point => exact contract.elim
    | @executed last ran rest results test answer point => cases last <;> simp [stepsLeft, point]
    | @batchDone last ran results point =>
      by_cases ending : last = true ∨ config.stopAfterSuccess = true ∧ results.any Verdict.isPositive = true
      · cases last <;> simp [stepsLeft, point, Loop.after_ending _ ran ending]
      · obtain rfl : last = false := by simpa using (not_or.mp ending).1
        simp [stepsLeft, point, Loop.after_going _ ran ending]

theorem exists_step (inv : Inv config result s) (going : ∀ v, s.loop.point ≠ .returned v) :
    ∃ l, Contract result s l ∧ (step config s l).isSome = true := by
  cases point : s.loop.point with
  | ready => exact ⟨.move .tau, trivial, by simp [step, Loop.step, point]⟩
  | stop => exact ⟨.move .tau, trivial, by simp [step, Loop.step, point]⟩
  | lastStop => exact ⟨.move .tau, trivial, by simp [step, Loop.step, point]⟩
  | poll last =>
    exact ⟨.move (.poll (.ok (s.world.unvisited s.loop.visited))), List.Perm.refl _,
      by simp [step, Loop.step, point]⟩
  | k last ran rest results =>
    cases rest with
    | nil => exact ⟨.move .tau, trivial, by simp [step, Loop.step, point]⟩
    | cons test rest =>
      refine ⟨.move (.execute (.ok (result test))), by simp [Contract, point, Point.rest], ?_⟩
      simp [step, Loop.step, point, equalsText]
  | returned v => exact absurd point (going v)
  | raised e => exact absurd point (inv.unraised e)

theorem exists_return (inv : Inv config result s) (done : s.world.isReady = true) :
    ∃ schedule t, Along (step config) (Contract result) s schedule ∧ run (step config) s schedule = some t ∧
      ∃ v, t.loop.point = .returned v := by
  refine exists_run (fun s => Inv config result s ∧ s.world.isReady = true)
    (fun s => ∃ v, s.loop.point = .returned v) stepsLeft (fun s ⟨inv, done⟩ going => ?_) s ⟨inv, done⟩
  obtain ⟨l, contract, enabled⟩ := exists_step inv (not_exists.mp going)
  obtain ⟨t, taken⟩ := Option.isSome_iff_exists.mp enabled
  obtain ⟨same, smaller⟩ := step_done contract inv done taken
  exact ⟨l, t, contract, taken, ⟨inv_step contract inv taken, same ▸ done⟩, smaller⟩

theorem length_le_stepsLeft {schedule : List Label} (inv : Inv config result s) (done : s.world.isReady = true)
    (contract : Along (step config) (Contract result) s schedule) (reached : run (step config) s schedule = some t) :
    schedule.length + stepsLeft t ≤ stepsLeft s := by
  refine length_le_measure (fun s => Inv config result s ∧ s.world.isReady = true) stepsLeft
    (fun s l t contract ⟨inv, done⟩ taken => ?_) contract ⟨inv, done⟩ reached
  obtain ⟨same, smaller⟩ := step_done contract inv done taken
  exact ⟨⟨inv_step contract inv taken, same ▸ done⟩, smaller⟩

/-! ### The two kinds of runs -/

theorem returned_false_iff {v : Verdict} (inv : Inv config result s) (returned : s.loop.point = .returned v) :
    v.verdict = .FALSE ↔ ∃ t ∈ s.world.directory, .FALSE ∈ result t := by
  obtain ⟨value, complete⟩ := inv.sound.settled v returned
  have positive : v.isPositive = true ↔ ∃ x ∈ s.loop.executed, .FALSE ∈ x.result := by
    simp only [value, decideFinalVerdict_isPositive, List.mem_map, exists_exists_and_eq_and, verdict_isPositive]
  rw [← isPositive_iff]
  constructor
  · intro found
    obtain ⟨x, member, reached⟩ := positive.mp found
    refine ⟨x.test, inv.sound.present _ ?_, inv.answered x member ▸ reached⟩
    exact List.mem_append_left _ (List.mem_map_of_mem member)
  · intro reachable
    obtain ⟨t, member, reached⟩ := reachable
    rcases complete with success | complete
    · exact success
    · obtain ⟨x, ran, rfl⟩ := List.mem_map.mp (complete t member)
      exact positive.mpr ⟨x, ran, (inv.answered x ran).symm ▸ reached⟩

/-- Whatever order it polls in, a sequential run returns `FALSE` exactly for a test that reaches the error. -/
theorem sequential_false_iff {tests : List TestVector} {v : Verdict} (unique : (names tests).Nodup)
    (sequential : Sequential config result tests v) :
    v.verdict = .FALSE ↔ ∃ t ∈ tests, .FALSE ∈ result t := by
  obtain ⟨schedule, s, contract, reached, returned⟩ := sequential
  have kept : Inv config result s ∧ s.world = ⟨tests, .returned true, false⟩ := by
    refine run_invariant (fun s => Inv config result s ∧ s.world = ⟨tests, .returned true, false⟩)
      (fun s l t contract ⟨inv, world⟩ taken => ?_) contract ⟨inv_start unique, rfl⟩ reached
    have same := (step_done contract inv (by simp [world, World.isReady]) taken).1
    exact ⟨inv_step contract inv taken, same.trans world⟩
  simpa [kept.2] using returned_false_iff kept.1 returned

theorem tests_nodup (inv : Inv config result s) : s.loop.tests.Nodup := by
  have once := inv.sound.once
  rw [names_append] at once
  exact once.of_append_left.of_map _

theorem tests_present (inv : Inv config result s) : ∀ t ∈ s.loop.tests, t ∈ s.world.directory := fun t member =>
  inv.sound.present t (List.mem_append_left _ member)

/-- Only an early success leaves tests of the directory out. -/
theorem tests_perm {v : Verdict} (inv : Inv config result s) (returned : s.loop.point = .returned v)
    (quiet : config.stopAfterSuccess = false ∨ ∀ x ∈ s.loop.executed, x.verdict.isPositive = false) :
    s.loop.tests.Perm s.world.directory := by
  have all : ∀ t ∈ s.world.directory, t ∈ s.loop.tests := by
    rcases inv.early v returned with ⟨-, complete⟩ | ⟨success, positive⟩
    · exact complete
    · rcases quiet with off | negative
      · simp [off] at success
      · rw [(inv.sound.settled v returned).1, decideFinalVerdict_isPositive] at positive
        obtain ⟨verdict, member, positive⟩ := positive
        obtain ⟨x, ran, rfl⟩ := List.mem_map.mp member
        simp [negative x ran] at positive
  apply (List.perm_ext_iff_of_nodup (tests_nodup inv) (inv.sound.distinct.of_map _)).mpr
  exact fun t => ⟨tests_present inv t, all t⟩

theorem exists_sequential {tests : List TestVector} (unique : (names tests).Nodup) :
    ∃ v, Sequential config result tests v := by
  have inv : Inv config result (start tests (.returned true)) := inv_start unique
  obtain ⟨schedule, t, contract, reached, v, returned⟩ := exists_return inv rfl
  exact ⟨v, schedule, t, contract, reached, returned⟩

end

/-- Parallel processing loses no test and runs none twice, and it returns `FALSE` when and only when the
sequential runs on the same tests do. Once the generator is done it returns after boundedly many steps. -/
theorem agrees_with_sequential {config : ProcessingConfig} {result : TestVector → List Status}
    {tests : List TestVector} {generator : Generator} {schedule : List Label} {s : State}
    (unique : (names tests).Nodup)
    (contract : Along (step config) (Contract result) (start tests generator) schedule)
    (reached : run (step config) (start tests generator) schedule = some s) :
    s.loop.tests.Nodup ∧ (∀ t ∈ s.loop.tests, t ∈ s.world.directory) ∧
      (s.world.isReady = true →
        (∃ rest t v, Along (step config) (Contract result) s rest ∧ run (step config) s rest = some t ∧
          t.loop.point = .returned v) ∧
        ∀ rest t, Along (step config) (Contract result) s rest → run (step config) s rest = some t →
          rest.length ≤ stepsLeft s) ∧
      ∀ v, s.loop.point = .returned v →
        (config.stopAfterSuccess = false ∨ (∀ x ∈ s.loop.executed, x.verdict.isPositive = false) →
          s.loop.tests.Perm s.world.directory) ∧
        ∀ final, final.Perm s.world.directory →
          (∃ w, Sequential config result final w) ∧
          ∀ w, Sequential config result final w → (v.verdict = .FALSE ↔ w.verdict = .FALSE) := by
  have inv : Inv config result s :=
    run_invariant (Inv config result) (fun s l t contract inv taken => inv_step contract inv taken) contract
      (inv_start unique) reached
  refine ⟨tests_nodup inv, tests_present inv, fun done => ?_, fun v returned => ?_⟩
  · obtain ⟨rest, t, legal, run, v, returned⟩ := exists_return inv done
    refine ⟨⟨rest, t, v, legal, run, returned⟩, fun rest t legal run => ?_⟩
    have bound := length_le_stepsLeft inv done legal run
    omega
  · refine ⟨tests_perm inv returned, fun final same => ?_⟩
    have distinct : (names final).Nodup := (same.map TestVector.name).nodup_iff.mpr inv.sound.distinct
    refine ⟨exists_sequential distinct, fun w sequential => ?_⟩
    rw [returned_false_iff inv returned, sequential_false_iff distinct sequential]
    simp only [same.mem_iff]

def quietTest : TestVector := ⟨"1".toList, "1".toList, []⟩

def errorTest : TestVector := ⟨"2".toList, "2".toList, []⟩

def reaches (test : TestVector) : List Status := if test = errorTest then [.FALSE] else [.UNKNOWN]

/-- The second test appears while the first one runs, after the only poll of the loop. -/
def lateSchedule : List Label :=
  [.move .tau, .move .tau, .outside (.write quietTest), .move (.poll (.ok [quietTest])), .outside (.write errorTest),
    .move (.execute (.ok [.UNKNOWN])), .outside (.finish true), .move .tau, .move .tau, .move .tau,
    .move (.poll (.ok [errorTest])), .move (.execute (.ok [.FALSE])), .move .tau]

theorem lateSchedule_agrees : ∃ s v, run (step ⟨false, true⟩) (start [] .running) lateSchedule = some s ∧
    s.loop.point = .returned v ∧ s.loop.tests.Nodup ∧
    ∀ w, Sequential ⟨false, true⟩ reaches [errorTest, quietTest] w → (v.verdict = .FALSE ↔ w.verdict = .FALSE) := by
  refine ⟨_, _, rfl, rfl, ?_⟩
  obtain ⟨once, -, -, agrees⟩ := @agrees_with_sequential ⟨false, true⟩ reaches [] .running lateSchedule _
    (by decide) (by decide) rfl
  exact ⟨once, ((agrees _ rfl).2 [errorTest, quietTest] (by decide)).2⟩

end Tbf.Parallel
