import Tbf.Coverage
import Tbf.StopAfterSuccess

/-!
# Execution validation with coverage

`perform_execution_validation` asks for the coverage in a `finally` block, when the verdict is there already.
-/

namespace Tbf.ExecutionValidation
open Text Transition Processing Coverage TestProcessor
open StopAfterSuccess (State step start)

/-- A figure that is there, and not empty, goes into the statistics. -/
def addFigure (p : TestProcessor) (property : Str) : Option Str → Except Raised TestProcessor
  | some value => if value = [] then .ok p else p.addValue property (.text value)
  | none => .ok p

def addCoverage (p : TestProcessor) (figures : Figures) : Except Raised TestProcessor := do
  let p ← addFigure p "Statements covered".toList figures.1
  let p ← addFigure p "Branch conditions executed".toList figures.2.1
  addFigure p "Branches covered".toList figures.2.2

/-- The `finally` block, with the result that is on its way: an exception of its own takes the place of that. -/
def finish (measureCoverage : Bool) (programFile : Str) (gcov : Gcov) (processing : Except Raised Verdict)
    (p : TestProcessor) : Except Raised (Verdict × TestProcessor) := do
  if measureCoverage then
    let figures ← getCoverage programFile gcov
    let p ← addCoverage p figures
    let verdict ← processing
    return (verdict, p)
  else
    let verdict ← processing
    return (verdict, p)

/-- `perform_execution_validation`, once `_perform_processing` is over. -/
def performExecutionValidation (measureCoverage : Bool) (programFile : Str) (gcov : Gcov) (s : State) :
    Option (Except Raised (Verdict × TestProcessor)) :=
  match s.loop.point with
  | .returned v => some (finish measureCoverage programFile gcov (.ok v) s.processor)
  | .raised e => some (finish measureCoverage programFile gcov (.error e) s.processor)
  | _ => none

/-! ### What the coverage needs -/

/-- Behind the first line of the program's file are three more. -/
def LinesFollow (programName : Str) (lines : List Str) : Prop :=
  ∀ front line back, lines = front ++ line :: back → (∀ l ∈ front, isFileLine programName l = false) →
    isFileLine programName line = true → 3 ≤ back.length

/-- gcov starts, what it prints is text, and the program's section is not cut off. -/
def Readable (programFile : Str) (gcov : Gcov) : Prop :=
  ∃ returncode output errOutput text, gcov = .ok (returncode, output, errOutput) ∧ decode output = some text ∧
    LinesFollow (basename programFile) (splitLines text)

theorem readFigures_isOk {lines : List Str} : (∃ figures, readFigures lines = .ok figures) ↔ 3 ≤ lines.length := by
  match lines with
  | [] | [_] | [_, _] => simp [readFigures]
  | _ :: _ :: _ :: _ => simp [readFigures]

theorem readCoverage_isOk {programName : Str} {lines : List Str} :
    (∃ figures, readCoverage programName lines = .ok figures) ↔ LinesFollow programName lines := by
  induction lines with
  | nil =>
    refine ⟨fun _ front line back same => ?_, fun _ => ⟨_, rfl⟩⟩
    simp at same
  | cons line lines ih =>
    rw [readCoverage]
    split
    · rename_i here
      rw [readFigures_isOk]
      constructor
      · intro enough front line' back same others _
        cases front with
        | nil =>
          obtain ⟨rfl, rfl⟩ := List.cons.inj same
          exact enough
        | cons l front =>
          obtain ⟨rfl, _⟩ := List.cons.inj same
          rw [others line List.mem_cons_self] at here
          cases here
      · exact fun follow => follow [] line lines rfl (fun _ member => absurd member List.not_mem_nil) here
    · rename_i here
      rw [Bool.not_eq_true] at here
      rw [ih]
      constructor
      · intro follow front line' back same others found
        cases front with
        | nil =>
          obtain ⟨rfl, rfl⟩ := List.cons.inj same
          rw [here] at found
          cases found
        | cons l front =>
          obtain ⟨rfl, rfl⟩ := List.cons.inj same
          exact follow front line' back rfl (fun l member => others l (List.mem_cons_of_mem _ member)) found
      · intro follow front line' back same others found
        exact follow (line :: front) line' back (congrArg (line :: ·) same) (List.forall_mem_cons.mpr ⟨here, others⟩) found

theorem getCoverage_isOk {programFile : Str} {gcov : Gcov} :
    (∃ figures, getCoverage programFile gcov = .ok figures) ↔ Readable programFile gcov := by
  cases gcov with
  | error e =>
    constructor
    · rintro ⟨figures, made⟩
      cases made
    · rintro ⟨returncode, output, errOutput, text, started, _⟩
      cases started
  | ok finished =>
    obtain ⟨returncode, output, errOutput⟩ := finished
    cases decoded : decode output with
    | some text =>
      rw [getCoverage_text decoded, readCoverage_isOk]
      constructor
      · exact fun follow => ⟨returncode, output, errOutput, text, rfl, decoded, follow⟩
      · rintro ⟨_, output', _, text', same, decoded', follow⟩
        cases same
        obtain rfl := Option.some.inj (decoded.symm.trans decoded')
        exact follow
    | none =>
      constructor
      · rintro ⟨figures, made⟩
        rw [getCoverage_bytes decoded] at made
        cases made
      · rintro ⟨_, output', _, text', same, decoded', _⟩
        cases same
        cases decoded.symm.trans decoded'

/-- A report of complete sections can be read, whatever files they are about. -/
theorem readable_report (programFile : Str) (sections : List Section) (returncode : Int) (errOutput : Bytes) :
    Readable programFile (.ok (returncode, encode (report sections), errOutput)) :=
  getCoverage_isOk.mp ⟨_, getCoverage_report programFile sections returncode errOutput⟩

/-! ### The statistics take the figures -/

theorem addFigure_ok {p : TestProcessor} {property : Str} (free : property ∉ p.stats.map Prod.fst) (figure : Option Str) :
    ∃ q, addFigure p property figure = .ok q ∧ q.stats.map Prod.fst ⊆ p.stats.map Prod.fst ++ [property] := by
  unfold addFigure
  split
  · split
    · exact ⟨p, rfl, List.subset_append_left _ _⟩
    · rename_i value _
      refine ⟨{ p with stats := p.stats ++ [(property, .text value)] }, ?_, ?_⟩
      · have open' : (!(p.stats.map Prod.fst).contains property) = true := by
          rw [Bool.not_eq_true', ← Bool.not_eq_true, List.contains_iff_mem]
          exact free
        rw [addValue, open']
        rfl
      · rw [List.map_append]
        exact List.Subset.refl _
  · exact ⟨p, rfl, List.subset_append_left _ _⟩

theorem addCoverage_ok {p : TestProcessor} (stats : p.stats = fresh.stats) (figures : Figures) :
    ∃ q, addCoverage p figures = .ok q := by
  have free : "Statements covered".toList ∉ p.stats.map Prod.fst := by
    rw [stats]
    decide
  obtain ⟨q, first, names⟩ := addFigure_ok free figures.1
  have free' : "Branch conditions executed".toList ∉ q.stats.map Prod.fst := by
    intro member
    have inside := names member
    rw [stats] at inside
    exact absurd inside (by decide)
  obtain ⟨r, second, names'⟩ := addFigure_ok free' figures.2.1
  have free'' : "Branches covered".toList ∉ r.stats.map Prod.fst := by
    intro member
    rcases List.mem_append.mp (names' member) with inside | inside
    · have inside := names inside
      rw [stats] at inside
      exact absurd inside (by decide)
    · exact absurd inside (by decide)
  obtain ⟨last, third, _⟩ := addFigure_ok free'' figures.2.2
  refine ⟨last, ?_⟩
  simp only [addCoverage, first, second, third, bind, Except.bind]

/-- No run of the processing puts anything new into the statistics. -/
theorem stats_run {config : ProcessingConfig} {w : World} {schedule : List Parallel.Label} {s : State}
    (reached : run (step config) (start w) schedule = some s) : s.processor.stats = fresh.stats := by
  have free : Along (step config) (fun _ _ => True) (start w) schedule := along_of_forall (fun _ _ => trivial) _ _
  refine run_invariant (fun s => s.processor.stats = fresh.stats) ?_ free rfl reached
  intro s l t _ kept taken
  cases l with
  | outside o =>
    obtain ⟨w, _, rfl⟩ := Option.map_eq_some_iff.mp taken
    exact kept
  | move m =>
    obtain ⟨loop, _, rfl⟩ := Option.map_eq_some_iff.mp taken
    exact (StopAfterSuccess.account_keeps config s.loop s.processor m).1.trans kept

/-- The verdict is what the processing computed exactly if the coverage is not asked for or can be read. -/
theorem performExecutionValidation_verdict_iff {config : ProcessingConfig} {w : World} {schedule : List Parallel.Label}
    {s : State} {v : Verdict} (reached : run (step config) (start w) schedule = some s)
    (returned : s.loop.point = .returned v) (measureCoverage : Bool) (programFile : Str) (gcov : Gcov) :
    (performExecutionValidation measureCoverage programFile gcov s).map (Except.map Prod.fst) = some (.ok v) ↔
      (measureCoverage = true → Readable programFile gcov) := by
  rw [performExecutionValidation, returned, Option.map_some, Option.some.injEq]
  cases measureCoverage with
  | false =>
    constructor
    · intro _ on
      cases on
    · exact fun _ => rfl
  | true =>
    rw [← getCoverage_isOk]
    cases covered : getCoverage programFile gcov with
    | error e =>
      have lost : finish true programFile gcov (.ok v) s.processor = .error e := by
        simp only [finish, covered, if_true, bind, Except.bind]
      rw [lost]
      constructor
      · intro same
        cases same
      · intro readable
        obtain ⟨figures, made⟩ := readable rfl
        cases made
    | ok figures =>
      obtain ⟨q, added⟩ := addCoverage_ok (stats_run reached) figures
      have kept : finish true programFile gcov (.ok v) s.processor = .ok (v, q) := by
        simp only [finish, covered, added, if_true, bind, Except.bind, pure, Except.pure]
      rw [kept]
      exact ⟨fun _ _ => ⟨figures, rfl⟩, fun _ => rfl⟩

open Parallel (errorTest quietTest)
open StopAfterSuccess (existingTests successSchedule)

theorem successSchedule_covered : ∃ s v,
    run (step ⟨false, true⟩) (start (existingTests [errorTest, quietTest])) successSchedule = some s ∧
    s.loop.point = .returned v ∧ v.verdict = .FALSE ∧
    (performExecutionValidation true "dir/s.c".toList (.ok (0, encode (report [harnessSection]), [])) s).map
      (Except.map Prod.fst) = some (.ok v) :=
  ⟨_, _, rfl, rfl, rfl, (@performExecutionValidation_verdict_iff ⟨false, true⟩ (existingTests [errorTest, quietTest])
    successSchedule _ _ rfl rfl true _ _).mpr fun _ => readable_report _ _ _ _⟩

/-- An error is found; then gcov is missing, or what it prints ends behind the head of the program's section. -/
theorem successSchedule_lost : ∃ s v,
    run (step ⟨false, true⟩) (start (existingTests [errorTest, quietTest])) successSchedule = some s ∧
    s.loop.point = .returned v ∧ v.verdict = .FALSE ∧
    performExecutionValidation true "dir/s.c".toList (.error .fileNotFoundError) s = some (.error .fileNotFoundError) ∧
    performExecutionValidation true "dir/s.c".toList (.ok (0, encode "File 'dir/s.c'\n".toList, [])) s =
      some (.error .indexError) := by
  have cut : getCoverage "dir/s.c".toList (.ok (0, encode "File 'dir/s.c'\n".toList, [])) = .error .indexError := by
    rw [getCoverage_text (decode_encode _)]
    rfl
  refine ⟨_, _, rfl, rfl, rfl, rfl, ?_⟩
  simp only [performExecutionValidation, finish, cut, if_true, bind, Except.bind]
  rfl

end Tbf.ExecutionValidation
