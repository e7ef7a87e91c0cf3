import Mathlib.Data.Finset.Card
import Tbf.Tools.PrtestGenerator

/-!
# Coverage guards

Every edge of an instrumented program has a guard cell. A cell is numbered at the start and set to zero by
the first report of its guard, so a later report of it does not make the test a new one.
-/

namespace Tbf.RandomTester
open Text

/-! ### Guard cells -/

/-- A section of guards, which are numbered in 32 bits. -/
structure GuardSection where
  size : Nat
  fits : size < 2 ^ 32

structure Sanitizer where
  counter : Nat
  cells : List UInt32

def numberCells : Nat → List UInt32 → Nat × List UInt32
  | counter, [] => (counter, [])
  | counter, _ :: rest =>
    let counter := (counter + 1) % 2 ^ 64
    let (last, cells) := numberCells counter rest
    (last, UInt32.ofNat counter :: cells)

/-- `__sanitizer_cov_trace_pc_guard_init`, which initializes only once. -/
def Sanitizer.guardInit (s : Sanitizer) : Sanitizer :=
  match s.cells with
  | [] => s
  | first :: _ =>
    if first ≠ 0 then s
    else { counter := (numberCells s.counter s.cells).1, cells := (numberCells s.counter s.cells).2 }

def GuardSection.blank (guards : GuardSection) : Sanitizer := ⟨0, List.replicate guards.size 0⟩

/-- The sanitizer calls the initialization once and may call it again. -/
def GuardSection.initial (guards : GuardSection) (again : Nat) : Sanitizer :=
  Sanitizer.guardInit^[again] guards.blank.guardInit

theorem length_numberCells (counter : Nat) (cells : List UInt32) :
    (numberCells counter cells).2.length = cells.length := by
  induction cells generalizing counter with
  | nil => rfl
  | cons c cells ih => simp [numberCells, ih]

theorem numberCells_ne_zero {counter : Nat} {cells : List UInt32} (fits : counter + cells.length < 2 ^ 32) :
    ∀ c ∈ (numberCells counter cells).2, c ≠ 0 := by
  induction cells generalizing counter with
  | nil => exact fun _ member => absurd member List.not_mem_nil
  | cons c cells ih =>
    rw [List.length_cons] at fits
    have next : (counter + 1) % 2 ^ 64 = counter + 1 := Nat.mod_eq_of_lt (by omega)
    intro d member
    simp only [numberCells, next, List.mem_cons] at member
    rcases member with rfl | member
    · intro zero
      have value := congrArg UInt32.toNat zero
      rw [UInt32.toNat_ofNat', Nat.mod_eq_of_lt (by omega)] at value
      cases value
    · exact ih (by omega) d member

/-- Every guard is numbered before the program starts. -/
structure Armed (guards : GuardSection) (s : Sanitizer) : Prop where
  length : s.cells.length = guards.size
  nonzero : ∀ c ∈ s.cells, c ≠ 0

theorem armed_guardInit (guards : GuardSection) : Armed guards guards.blank.guardInit := by
  unfold Sanitizer.guardInit GuardSection.blank
  cases count : guards.size with
  | zero => exact ⟨count.symm, fun _ member => absurd member List.not_mem_nil⟩
  | succ n =>
    have fits := guards.fits
    constructor
    · simp [List.replicate_succ, length_numberCells, count]
    · apply numberCells_ne_zero
      dsimp only
      rw [List.length_replicate]
      omega

theorem Armed.guardInit {guards : GuardSection} {s : Sanitizer} (armed : Armed guards s) : s.guardInit = s := by
  unfold Sanitizer.guardInit
  split
  · rfl
  · rename_i first rest cells
    exact if_pos (armed.nonzero first (by simp [cells]))

theorem armed_initial (guards : GuardSection) (again : Nat) : Armed guards (guards.initial again) := by
  have armed := armed_guardInit guards
  unfold GuardSection.initial
  rwa [Function.iterate_fixed armed.guardInit]

/-! ### The tester with its guards -/

structure Tester where
  gen : Generator
  cells : List UInt32

namespace Tester

def start (guards : GuardSection) (again : Nat) : Tester := ⟨.start, (guards.initial again).cells⟩

def covTracePcGuard (t : Tester) (g : Nat) : Option Tester :=
  match t.cells[g]? with
  | none => none
  | some cell =>
    if cell = 0 then some t
    else some { gen := { t.gen with testIsNew := true }, cells := t.cells.set g 0 }

def step (t : Tester) : Event → Option Tester
  | .guard g => if t.gen.point = .terminated then none else t.covTracePcGuard g
  | event => (t.gen.step event).map fun gen => { t with gen }

end Tester

/-! ### Zero cells are the reported guards -/

/-- A step that depends on a condition, and the same step of a changed state. -/
theorem guarded_step {here : Prop} [Decidable here] {next other last : Generator} (change : Generator → Generator)
    (same : other = change next) (taken : (if here then some next else none) = some last) :
    (if here then some other else none) = some (change last) := by
  obtain ⟨here, taken⟩ := Option.ite_none_right_eq_some.mp taken
  rw [if_pos here, same, Option.some.inj taken]

/-- Only a report of a guard reads or changes the guards. -/
theorem Generator.step_guards {s t : Generator} {event : Event} (other : ∀ g, event ≠ .guard g)
    (taken : s.step event = some t) (reported : List Nat) :
    { s with guards := reported }.step event = some { t with guards := reported } := by
  let change : Generator → Generator := fun t => { t with guards := reported }
  cases event with
  | guard g => exact absurd rfl (other g)
  | enter => exact guarded_step change rfl taken
  | input c =>
    apply guarded_step change _ taken
    simp only [Generator.input, Generator.longjmp, change]
    split <;> rfl
  | ret => exact guarded_step change rfl taken
  | abort => exact guarded_step change rfl taken
  | exit status =>
    apply guarded_step change _ taken
    simp only [Generator.exitHandler, Generator.longjmp, Generator.terminate, Generator.writeTest, change]
    split
    · rfl
    · split <;> rfl
  | next =>
    apply guarded_step change _ taken
    simp only [Generator.writeTest, change]
    split <;> rfl
  | leave => exact guarded_step change rfl taken
  | signal =>
    obtain ⟨here, taken⟩ := Option.ite_none_left_eq_some.mp taken
    obtain rfl := Option.some.inj taken
    exact if_neg here

theorem Ledger.observe_guards {l : Ledger} {event : Event} (other : ∀ g, event ≠ .guard g) :
    (l.observe event).guards = l.guards := by
  unfold observe keep
  cases event with
  | guard g => exact absurd rfl (other g)
  | exit status => dsimp only; split <;> rfl
  | next => dsimp only; split <;> rfl
  | _ => rfl

/-- The tester keeps the ledger, and a cell is zero exactly when its guard was reported. -/
structure Follows (guards : GuardSection) (t : Tester) (l : Ledger) : Prop where
  mirrors : Mirrors { t.gen with guards := l.guards } l
  length : t.cells.length = guards.size
  zero : ∀ g < guards.size, t.cells[g]? = some 0 ↔ g ∈ l.guards
  inside : ∀ g ∈ l.guards, g < guards.size

theorem follows_start (guards : GuardSection) (again : Nat) : Follows guards (.start guards again) .start where
  mirrors := mirrors_start
  length := (armed_initial guards again).length
  zero := fun g _ => by
    constructor
    · intro zero
      exact absurd rfl ((armed_initial guards again).nonzero 0 (List.mem_of_getElem? zero))
    · exact fun member => absurd member List.not_mem_nil
  inside := fun _ member => absurd member List.not_mem_nil

namespace Follows
variable {guards : GuardSection} {t u : Tester} {l : Ledger}

theorem guard (f : Follows guards t l) {g : Nat} (reported : t.covTracePcGuard g = some u) :
    Follows guards u (l.observe (.guard g)) := by
  unfold Tester.covTracePcGuard at reported
  split at reported
  · cases reported
  · rename_i cell here
    have inside : g < guards.size := f.length ▸ (List.getElem?_eq_some_iff.mp here).1
    split at reported
    · rename_i zero
      obtain rfl := Option.some.inj reported
      have known : l.guards.contains g = true := by simpa using (f.zero g inside).mp (zero ▸ here)
      rwa [Ledger.observe, if_pos known]
    · rename_i nonzero
      obtain rfl := Option.some.inj reported
      have fresh : g ∉ l.guards := by
        intro member
        have same := here.symm.trans ((f.zero g inside).mpr member)
        exact nonzero (Option.some.inj same)
      have unknown : ¬ l.guards.contains g = true := by simpa using fresh
      have mirrored := f.mirrors.guard g
      rw [Generator.covTracePcGuard] at mirrored
      simp only [Ledger.observe, if_neg unknown] at mirrored ⊢
      refine ⟨mirrored, by simpa using f.length, fun h below => ?_, fun h member => ?_⟩
      · rw [List.getElem?_set, List.mem_append, List.mem_singleton]
        by_cases same : g = h
        · simp [same, f.length, below]
        · rw [if_neg same, f.zero h below]
          exact ⟨Or.inl, fun either => either.resolve_right fun equal => same equal.symm⟩
      · rcases List.mem_append.mp member with before | last
        · exact f.inside h before
        · exact List.mem_singleton.mp last ▸ inside

theorem step (f : Follows guards t l) {event : Event} (taken : t.step event = some u) :
    Follows guards u (l.observe event) := by
  by_cases report : ∃ g, event = .guard g
  · obtain ⟨g, rfl⟩ := report
    exact f.guard (Option.ite_none_left_eq_some.mp taken).2
  · have other : ∀ g, event ≠ .guard g := fun g same => report ⟨g, same⟩
    have moved : (t.gen.step event).map (fun gen => { t with gen }) = some u := by
      rw [← taken]
      cases event with
      | guard g => exact absurd rfl (other g)
      | _ => rfl
    obtain ⟨gen, generated, rfl⟩ := Option.map_eq_some_iff.mp moved
    have same := Ledger.observe_guards (l := l) other
    refine ⟨?_, f.length, fun g below => ?_, fun g member => ?_⟩
    · rw [same]
      exact f.mirrors.step (Generator.step_guards other generated l.guards)
    · rw [same]
      exact f.zero g below
    · exact f.inside g (same ▸ member)

end Follows

theorem follows_run {guards : GuardSection} {again : Nat} {events : List Event} {t : Tester}
    (reached : Transition.run Tester.step (.start guards again) events = some t) :
    Follows guards t (events.foldl Ledger.observe .start) :=
  Transition.run_observed Ledger.observe (Follows guards) (fun _ _ _ _ f => f.step) (follows_start guards again) reached

/-! ### Executions -/

/-- What the program does in an execution. -/
inductive Act where
  | input (c : InputCall)
  | guard (g : Nat)

def Act.event : Act → Event
  | input c => .input c
  | guard g => .guard g

def Act.reported : Act → Option Nat
  | input _ => none
  | guard g => some g

def Act.row : Act → Option Str
  | input c => some c.row
  | guard _ => none

/-- How an execution ends; `full` is the call of `abort` in `input` when the test vector is full. -/
inductive Ending where
  | ret | abort | full
  | exit (status : Int) (other : status ≠ SUCCESS_STATUS)

def Ending.events : Ending → List Event
  | ret => [.ret]
  | abort => [.abort]
  | full => []
  | exit status _ => [.exit status]

/-- One execution of the program, from `reset_test_vector` to the check of `test_is_new`; guards may still
be reported behind its end. -/
structure Execution where
  acts : List Act
  ending : Ending
  late : List Nat

namespace Execution

def events (e : Execution) : List Event :=
  .enter :: (e.acts.map Act.event ++ e.ending.events ++ e.late.map Event.guard ++ [.next])

def guards (e : Execution) : List Nat := e.acts.filterMap Act.reported ++ e.late

def lines (e : Execution) : List Str := e.acts.filterMap Act.row

/-- The execution reports a guard that none of the earlier ones reported. -/
def IsNew (before : List Execution) (e : Execution) : Prop := ∃ g ∈ e.guards, g ∉ before.flatMap guards

instance (before : List Execution) (e : Execution) : Decidable (IsNew before e) :=
  inferInstanceAs (Decidable (∃ g ∈ e.guards, g ∉ before.flatMap guards))

end Execution

def eventsOf (executions : List Execution) : List Event := executions.flatMap Execution.events

/-- The executions, in order, that are new. -/
def newFrom (before : List Execution) : List Execution → List Execution
  | [] => []
  | e :: rest => (if e.IsNew before then [e] else []) ++ newFrom (before ++ [e]) rest

/-! ### What the ledger makes of an execution -/

namespace Ledger

/-- The ledger while an execution runs, told by the reports and inputs so far. -/
structure During (l : Ledger) (known reported : List Nat) (lines : List Str) (tests : List (List Str)) : Prop where
  guards : ∀ g, g ∈ l.guards ↔ g ∈ known ∨ g ∈ reported
  isNew : l.isNew = true ↔ ∃ g ∈ reported, g ∉ known
  lines : l.lines = lines
  tests : l.tests = tests

variable {l : Ledger} {known reported : List Nat} {lines : List Str} {tests : List (List Str)}

theorem During.guard (d : During l known reported lines tests) (g : Nat) :
    During (l.observe (.guard g)) known (reported ++ [g]) lines tests := by
  unfold observe
  dsimp only
  split
  · rename_i seen
    have member : g ∈ known ∨ g ∈ reported := (d.guards g).mp (by simpa using seen)
    refine ⟨fun h => ?_, ?_, d.lines, d.tests⟩
    · rw [d.guards, List.mem_append, List.mem_singleton]
      constructor
      · rintro (inKnown | inReported)
        · exact Or.inl inKnown
        · exact Or.inr (Or.inl inReported)
      · rintro (inKnown | inReported | rfl)
        · exact Or.inl inKnown
        · exact Or.inr inReported
        · exact member
    · rw [d.isNew]
      constructor
      · rintro ⟨h, inReported, fresh⟩
        exact ⟨h, List.mem_append_left _ inReported, fresh⟩
      · rintro ⟨h, inReported, fresh⟩
        rcases List.mem_append.mp inReported with before | last
        · exact ⟨h, before, fresh⟩
        · obtain rfl := List.mem_singleton.mp last
          exact ⟨h, member.resolve_left fresh, fresh⟩
  · rename_i unseen
    have fresh : ¬ (g ∈ known ∨ g ∈ reported) := fun member => unseen (by simpa using (d.guards g).mpr member)
    refine ⟨fun h => ?_, ?_, d.lines, d.tests⟩
    · rw [List.mem_append, d.guards, List.mem_append, or_assoc]
    · simp only [true_iff]
      exact ⟨g, by simp, fun inKnown => fresh (Or.inl inKnown)⟩

theorem During.input (d : During l known reported lines tests) (c : InputCall) :
    During (l.observe (.input c)) known reported (lines ++ [c.row]) tests :=
  ⟨d.guards, d.isNew, congrArg (· ++ [c.row]) d.lines, d.tests⟩

theorem During.acts (d : During l known reported lines tests) (acts : List Act) :
    During ((acts.map Act.event).foldl observe l) known
      (reported ++ acts.filterMap Act.reported) (lines ++ acts.filterMap Act.row) tests := by
  induction acts generalizing l reported lines with
  | nil => simpa using d
  | cons act acts ih =>
    cases act with
    | input c => simpa [Act.event, Act.reported, Act.row, List.filterMap_cons] using ih (d.input c)
    | guard g => simpa [Act.event, Act.reported, Act.row, List.filterMap_cons] using ih (d.guard g)

theorem During.late (d : During l known reported lines tests) (late : List Nat) :
    During ((late.map Event.guard).foldl observe l) known (reported ++ late) lines tests := by
  induction late generalizing l reported with
  | nil => simpa using d
  | cons g late ih => simpa using ih (d.guard g)

theorem During.ending (d : During l known reported lines tests) (ending : Ending) :
    During (ending.events.foldl observe l) known reported lines tests := by
  cases ending with
  | exit status other =>
    have same : l.observe (.exit status) = l := if_neg other
    simpa [Ending.events, same] using d
  | _ => exact d

/-- At the end of an execution its lines are kept exactly if it is new. -/
theorem observe_execution {before : List Execution} (l : Ledger)
    (known : ∀ g, g ∈ l.guards ↔ g ∈ before.flatMap Execution.guards) (e : Execution) :
    (e.events.foldl observe l).tests = l.tests ++ (if e.IsNew before then [e.lines] else []) ∧
      ∀ g, g ∈ (e.events.foldl observe l).guards ↔ g ∈ (before ++ [e]).flatMap Execution.guards := by
  have entered : During (l.observe .enter) (before.flatMap Execution.guards) [] [] l.tests :=
    ⟨fun g => (known g).trans (by simp), by simp [observe], rfl, rfl⟩
  have done := ((entered.acts e.acts).ending e.ending).late e.late
  have run : e.events.foldl observe l = ((e.late.map Event.guard).foldl observe
      (e.ending.events.foldl observe ((e.acts.map Act.event).foldl observe (l.observe .enter)))).observe .next := by
    simp [Execution.events, List.foldl_append]
  rw [run]
  generalize (e.late.map Event.guard).foldl observe
    (e.ending.events.foldl observe ((e.acts.map Act.event).foldl observe (l.observe .enter))) = last at done
  have reported : ∀ g, g ∈ last.guards ↔ g ∈ (before ++ [e]).flatMap Execution.guards := by
    intro g
    rw [done.guards, List.flatMap_append, List.flatMap_singleton, List.mem_append, Execution.guards]
    simp
  have isNew : last.isNew = true ↔ e.IsNew before := by
    rw [done.isNew]
    simp [Execution.IsNew, Execution.guards]
  have lines : last.lines = e.lines := by simpa [Execution.lines] using done.lines
  unfold observe keep
  dsimp only
  by_cases new : e.IsNew before
  · rw [if_pos (isNew.mpr new), if_pos new]
    exact ⟨by rw [done.tests, lines], reported⟩
  · rw [if_neg fun flag => new (isNew.mp flag), if_neg new]
    exact ⟨by rw [done.tests, List.append_nil], reported⟩

theorem observe_executions {before : List Execution} (l : Ledger)
    (known : ∀ g, g ∈ l.guards ↔ g ∈ before.flatMap Execution.guards) (executions : List Execution) :
    ((eventsOf executions).foldl observe l).tests = l.tests ++ (newFrom before executions).map Execution.lines ∧
      ∀ g, g ∈ ((eventsOf executions).foldl observe l).guards ↔ g ∈ (before ++ executions).flatMap Execution.guards := by
  induction executions generalizing before l with
  | nil => simpa [eventsOf, newFrom] using known
  | cons e rest ih =>
    obtain ⟨tests, guards⟩ := observe_execution l known e
    obtain ⟨restTests, restGuards⟩ := ih _ guards
    have split : eventsOf (e :: rest) = e.events ++ eventsOf rest := List.flatMap_cons
    rw [split, List.foldl_append]
    refine ⟨?_, by simpa using restGuards⟩
    rw [restTests, tests, newFrom, List.map_append, List.append_assoc]
    split_ifs <;> rfl

end Ledger

/-! ### New coverage -/

theorem newFrom_sublist (before executions : List Execution) : List.Sublist (newFrom before executions) executions := by
  induction executions generalizing before with
  | nil => exact List.Sublist.refl _
  | cons e rest ih =>
    rw [newFrom]
    split
    · exact (ih _).cons_cons e
    · exact (ih _).cons e

/-- A guard that was not known is reported by an execution that is new. -/
theorem covered_newFrom {before executions : List Execution} {g : Nat} (reported : g ∈ executions.flatMap Execution.guards)
    (fresh : g ∉ before.flatMap Execution.guards) : ∃ e ∈ newFrom before executions, g ∈ e.guards := by
  induction executions generalizing before with
  | nil => cases reported
  | cons e rest ih =>
    rw [newFrom]
    rw [List.flatMap_cons, List.mem_append] at reported
    by_cases here : g ∈ e.guards
    · exact ⟨e, by simp [show e.IsNew before from ⟨g, here, fresh⟩], here⟩
    · have later : g ∉ (before ++ [e]).flatMap Execution.guards := by simp [fresh, here]
      obtain ⟨kept, member, covers⟩ := ih (reported.resolve_left here) later
      exact ⟨kept, List.mem_append_right _ member, covers⟩

/-- Each new execution reports a guard of its own. -/
theorem length_newFrom (before executions : List Execution) :
    (newFrom before executions).length ≤
      ((executions.flatMap Execution.guards).toFinset \ (before.flatMap Execution.guards).toFinset).card := by
  induction executions generalizing before with
  | nil => simp [newFrom]
  | cons e rest ih =>
    have later := ih (before ++ [e])
    have part : (rest.flatMap Execution.guards).toFinset \ ((before ++ [e]).flatMap Execution.guards).toFinset ⊆
        ((e :: rest).flatMap Execution.guards).toFinset \ (before.flatMap Execution.guards).toFinset := by
      intro g member
      simp only [Finset.mem_sdiff, List.mem_toFinset, List.flatMap_append, List.flatMap_cons, List.mem_append,
        not_or] at member ⊢
      exact ⟨Or.inr member.1, member.2.1⟩
    rw [newFrom, List.length_append]
    split
    · rename_i new
      obtain ⟨g, reported, fresh⟩ := new
      have more := Finset.card_lt_card ((Finset.ssubset_iff_of_subset part).mpr ⟨g, by simp [reported, fresh], by simp [reported]⟩)
      rw [List.length_singleton]
      omega
    · have less := Finset.card_le_card part
      rw [List.length_nil]
      omega

/-! ### The main loop -/

theorem eventsOf_append (before rest : List Execution) : eventsOf (before ++ rest) = eventsOf before ++ eventsOf rest :=
  List.flatMap_append

theorem newFrom_concat (before executions : List Execution) (e : Execution) :
    newFrom before (executions ++ [e]) =
      newFrom before executions ++ (if e.IsNew (before ++ executions) then [e] else []) := by
  induction executions generalizing before with
  | nil => simp [newFrom]
  | cons next rest ih =>
    rw [List.cons_append, newFrom, ih, newFrom, List.append_assoc]
    simp

/-- The files are the tests of the new executions, and a cell is zero exactly when its guard was reported. -/
theorem tester_run {guards : GuardSection} {again : Nat} {executions : List Execution} {t : Tester}
    (reached : Transition.run Tester.step (.start guards again) (eventsOf executions) = some t) :
    t.gen.files = testFiles ((newFrom [] executions).map Execution.lines) ∧
      ∀ g < guards.size, t.cells[g]? = some 0 ↔ g ∈ executions.flatMap Execution.guards := by
  have follows := follows_run reached
  obtain ⟨tests, reported⟩ := @Ledger.observe_executions [] .start (fun g => by simp [Ledger.start]) executions
  have files := follows.mirrors.files
  rw [tests] at files
  exact ⟨files, fun g below => (follows.zero g below).trans (reported g)⟩

theorem reported_inside {guards : GuardSection} {again : Nat} {executions : List Execution} {t : Tester}
    (reached : Transition.run Tester.step (.start guards again) (eventsOf executions) = some t) :
    ∀ g ∈ executions.flatMap Execution.guards, g < guards.size := by
  intro g member
  obtain ⟨_, reported⟩ := @Ledger.observe_executions [] .start (fun g => by simp [Ledger.start]) executions
  exact (follows_run reached).inside g ((reported g).mpr member)

/-- At the end of an execution a test is written exactly if the execution reported a guard that was never
reported before; so the written tests cover every reported guard, and they are no more than the guards. -/
theorem keeps_new_coverage (guards : GuardSection) (again : Nat) (executions : List Execution) {t : Tester}
    (reached : Transition.run Tester.step (.start guards again) (eventsOf executions) = some t) :
    (∀ before e rest, executions = before ++ e :: rest → ∃ s u,
        Transition.run Tester.step (.start guards again) (eventsOf before) = some s ∧
        Transition.run Tester.step s e.events = some u ∧
        u.gen.files = s.gen.files ++
          if e.IsNew before then [(vectorName s.gen.files.length, testText e.lines)] else []) ∧
      (∃ kept, List.Sublist kept executions ∧ t.gen.files = testFiles (kept.map Execution.lines) ∧
        ∀ e ∈ executions, ∀ g ∈ e.guards, ∃ cover ∈ kept, g ∈ cover.guards) ∧
      t.gen.files.length ≤ guards.size := by
  refine ⟨?_, ⟨newFrom [] executions, newFrom_sublist _ _, (tester_run reached).1, ?_⟩, ?_⟩
  · rintro before e rest rfl
    have events : eventsOf (before ++ e :: rest) = eventsOf before ++ (e.events ++ eventsOf rest) := by
      rw [eventsOf_append]
      exact congrArg (eventsOf before ++ ·) List.flatMap_cons
    rw [events] at reached
    obtain ⟨s, first, later⟩ := Transition.run_append.mp reached
    obtain ⟨u, second, _⟩ := Transition.run_append.mp later
    have both : Transition.run Tester.step (.start guards again) (eventsOf (before ++ [e])) = some u := by
      have single : eventsOf [e] = e.events := List.flatMap_singleton ..
      rw [eventsOf_append, single]
      exact Transition.run_append.mpr ⟨s, first, second⟩
    refine ⟨s, u, first, second, ?_⟩
    rw [(tester_run both).1, (tester_run first).1, newFrom_concat, List.map_append, List.nil_append]
    split
    · rw [List.map_singleton, testFiles_concat]
      simp [testFiles]
    · simp
  · intro e member g reports
    exact covered_newFrom (List.mem_flatMap.mpr ⟨e, member, reports⟩) (by simp)
  · have many := length_newFrom [] executions
    have range : (executions.flatMap Execution.guards).toFinset ⊆ Finset.range guards.size := by
      intro g member
      exact Finset.mem_range.mpr (reported_inside reached g (List.mem_toFinset.mp member))
    have few := Finset.card_le_card range
    rw [Finset.card_range] at few
    rw [(tester_run reached).1]
    simp only [testFiles, List.length_map, List.length_zipIdx]
    simp only [List.flatMap_nil, List.toFinset_nil, Finset.sdiff_empty] at many
    omega

/-- Two executions that reach the same guard: only the first of them is kept. -/
def sameGuardTwice : List Execution := [⟨[.guard 0], .ret, []⟩, ⟨[.guard 0], .abort, []⟩]

theorem keeps_new_coverage_twice : ∃ t, Transition.run Tester.step (.start ⟨1, by decide⟩ 1) (eventsOf sameGuardTwice) = some t ∧
    t.gen.files.length ≤ 1 := by
  obtain ⟨t, reached⟩ : ∃ t, Transition.run Tester.step (.start ⟨1, by decide⟩ 1) (eventsOf sameGuardTwice) = some t :=
    ⟨_, rfl⟩
  exact ⟨t, reached, (keeps_new_coverage ⟨1, by decide⟩ 1 sameGuardTwice reached).2.2⟩

end Tbf.RandomTester
