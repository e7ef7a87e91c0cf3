import Mathlib.Algebra.GroupWithZero.Nat
import Mathlib.Logic.Basic

/-!
# Labelled steps and their runs

A system is a partial step function over labels: the label names who moves and what the
environment chose, so a list of labels is one interleaving.
-/

namespace Transition

section
variable {State Label : Type*} (step : State → Label → Option State)

/-- The state after a schedule, `none` where one of its labels is not enabled. -/
def run : State → List Label → Option State
  | s, [] => some s
  | s, l :: rest => (step s l).bind fun t => run t rest

/-- Every label of the schedule is `allowed` in the state it is taken from. -/
def Along (allowed : State → Label → Prop) : State → List Label → Prop
  | _, [] => True
  | s, l :: rest => allowed s l ∧ ∀ t, step s l = some t → Along allowed t rest

variable {step}

theorem run_cons {s t : State} {l : Label} {rest : List Label} :
    run step s (l :: rest) = some t ↔ ∃ m, step s l = some m ∧ run step m rest = some t := by
  simp [run, Option.bind_eq_some_iff]

theorem run_append {s t : State} {front back : List Label} :
    run step s (front ++ back) = some t ↔ ∃ m, run step s front = some m ∧ run step m back = some t := by
  induction front generalizing s with
  | nil => simp [run]
  | cons l rest ih =>
    rw [List.cons_append, run_cons]
    simp only [run_cons, ih]
    constructor
    · rintro ⟨first, here, middle, before, after⟩
      exact ⟨middle, ⟨first, here, before⟩, after⟩
    · rintro ⟨middle, ⟨first, here, before⟩, after⟩
      exact ⟨first, here, middle, before, after⟩

instance decidableAlong {allowed : State → Label → Prop} [∀ s l, Decidable (allowed s l)] :
    ∀ s schedule, Decidable (Along step allowed s schedule)
  | _, [] => .isTrue trivial
  | s, l :: rest =>
    match taken : step s l with
    | none => decidable_of_iff (allowed s l) (by simp [Along, taken])
    | some t =>
      have : Decidable (Along step allowed t rest) := decidableAlong t rest
      decidable_of_iff (allowed s l ∧ Along step allowed t rest) (by simp [Along, taken])

theorem run_invariant {allowed : State → Label → Prop} (inv : State → Prop)
    (preserved : ∀ s l t, allowed s l → inv s → step s l = some t → inv t)
    {s t : State} {schedule : List Label} (steps : Along step allowed s schedule)
    (initial : inv s) (reached : run step s schedule = some t) : inv t := by
  induction schedule generalizing s with
  | nil => exact Option.some.inj reached ▸ initial
  | cons l rest ih =>
    obtain ⟨m, first, reached⟩ := run_cons.mp reached
    exact ih (steps.2 m first) (preserved s l m steps.1 initial first) reached

theorem along_of_forall {allowed : State → Label → Prop} (always : ∀ s l, allowed s l) (s : State) (schedule : List Label) :
    Along step allowed s schedule := by
  induction schedule generalizing s with
  | nil => trivial
  | cons l rest ih => exact ⟨always s l, fun t _ => ih t⟩

theorem along_of_mem {allowed : State → Label → Prop} {schedule : List Label} (each : ∀ l ∈ schedule, ∀ s, allowed s l) (s : State) :
    Along step allowed s schedule := by
  induction schedule generalizing s with
  | nil => trivial
  | cons l rest ih =>
    obtain ⟨here, later⟩ := List.forall_mem_cons.mp each
    exact ⟨here s, fun t _ => ih later t⟩

/-- An observer that follows the labels: what relates it to the state and survives each step holds of
every run. -/
theorem run_observed {Observer : Type*} (observe : Observer → Label → Observer) (relation : State → Observer → Prop)
    (preserved : ∀ s o l t, relation s o → step s l = some t → relation t (observe o l))
    {s t : State} {o : Observer} {schedule : List Label} (initial : relation s o)
    (reached : run step s schedule = some t) : relation t (schedule.foldl observe o) := by
  induction schedule generalizing s o with
  | nil => exact Option.some.inj reached ▸ initial
  | cons l rest ih =>
    obtain ⟨m, first, reached⟩ := run_cons.mp reached
    exact ih (preserved s o l m initial first) reached

/-- A relation between a state and all that happened before it. -/
theorem run_past (relation : State → List Label → Prop)
    (preserved : ∀ s past l t, relation s past → step s l = some t → relation t (past ++ [l]))
    {s t : State} {past schedule : List Label} (initial : relation s past) (reached : run step s schedule = some t) :
    relation t (past ++ schedule) := by
  have observed := run_observed (fun past l => past ++ [l]) relation preserved initial reached
  have same : ∀ (past schedule : List Label), schedule.foldl (fun past l => past ++ [l]) past = past ++ schedule := by
    intro past schedule
    induction schedule generalizing past with
    | nil => simp
    | cons l rest ih => simp [ih]
  rwa [same] at observed

/-- Where an unfinished state always has an allowed step that brings a measure down, some schedule of
allowed steps finishes. -/
theorem exists_run {allowed : State → Label → Prop} (inv final : State → Prop) (measure : State → Nat)
    (progress : ∀ s, inv s → ¬ final s →
      ∃ l t, allowed s l ∧ step s l = some t ∧ inv t ∧ measure t < measure s) :
    ∀ s, inv s → ∃ schedule t, Along step allowed s schedule ∧ run step s schedule = some t ∧ final t := by
  intro s
  induction size : measure s using Nat.strongRecOn generalizing s with
  | ind n ih =>
    intro start
    by_cases done : final s
    · exact ⟨[], s, trivial, rfl, done⟩
    · obtain ⟨l, m, legal, first, later, smaller⟩ := progress s start done
      obtain ⟨rest, t, steps, reached, final⟩ := ih (measure m) (size ▸ smaller) m rfl later
      refine ⟨l :: rest, t, ⟨legal, ?_⟩, run_cons.mpr ⟨m, first, reached⟩, final⟩
      intro other taken
      obtain rfl := Option.some.inj (first.symm.trans taken)
      exact steps

/-- Where every allowed step brings a measure down, no schedule of them is longer than the measure. -/
theorem length_le_measure {allowed : State → Label → Prop} (inv : State → Prop) (measure : State → Nat)
    (decreases : ∀ s l t, allowed s l → inv s → step s l = some t → inv t ∧ measure t < measure s)
    {s t : State} {schedule : List Label} (steps : Along step allowed s schedule) (initial : inv s)
    (reached : run step s schedule = some t) : schedule.length + measure t ≤ measure s := by
  induction schedule generalizing s with
  | nil => simp [Option.some.inj reached]
  | cons l rest ih =>
    obtain ⟨m, first, reached⟩ := run_cons.mp reached
    obtain ⟨later, smaller⟩ := decreases s l m steps.1 initial first
    have shorter := ih (steps.2 m first) later reached
    simp only [List.length_cons]
    omega

/-- Where a step that costs something is paid for by the measure or by what the step brings in, a whole run is. -/
theorem run_potential {allowed : State → Label → Prop} (inv : State → Prop) (measure : State → Nat) (cost gain : Label → Nat)
    (each : ∀ s l t, allowed s l → inv s → step s l = some t → inv t ∧ measure t + cost l ≤ measure s + gain l)
    {s t : State} {schedule : List Label} (steps : Along step allowed s schedule) (initial : inv s)
    (reached : run step s schedule = some t) :
    inv t ∧ measure t + (schedule.map cost).sum ≤ measure s + (schedule.map gain).sum := by
  induction schedule generalizing s with
  | nil =>
    obtain rfl := Option.some.inj reached
    simp [initial]
  | cons l rest ih =>
    obtain ⟨m, first, reached⟩ := run_cons.mp reached
    obtain ⟨later, paid⟩ := each s l m steps.1 initial first
    obtain ⟨last, total⟩ := ih (steps.2 m first) later reached
    refine ⟨last, ?_⟩
    simp only [List.map_cons, List.sum_cons]
    omega

end

end Transition
