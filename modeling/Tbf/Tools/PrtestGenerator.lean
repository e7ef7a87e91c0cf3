import Tbf.Library.Transition
import Tbf.Tools.RandomTester

/-!
# The main loop of `random_tester.c`

One buffer serves all executions of the program. An execution ends by return, by `abort` or by `exit`, and
the last two leave it through `longjmp` from a handler.
-/

namespace Tbf.RandomTester
open Text Harness

def MAX_TEST_SIZE : Nat := 10000

def MAX_TEST_NUMBER : Nat := 150000

def SUCCESS_STATUS : Int := 147

/-! ### Rows of characters -/

def NUL : Char := '\x00'

/-- The string that starts at the front of a buffer. -/
def cstr (buffer : Str) : Str := buffer.takeWhile (· != NUL)

/-- The buffer behind `snprintf`, which ends the text with a null character. -/
def printTo (text buffer : Str) : Str := text ++ NUL :: buffer.drop (text.length + 1)

/-- The buffer behind `memset(buffer, 0, 1)`. -/
def zeroFirst (buffer : Str) : Str := NUL :: buffer.drop 1

theorem cstr_printTo {text : Str} (clean : NUL ∉ text) (buffer : Str) : cstr (printTo text buffer) = text := by
  have solid : ∀ c ∈ text, (c != NUL) = true := fun c member => by
    simpa using fun same : c = NUL => clean (same ▸ member)
  rw [cstr, printTo, List.takeWhile_append_of_pos solid]
  simp

@[simp] theorem cstr_zeroFirst (buffer : Str) : cstr (zeroFirst buffer) = [] := by
  simp [cstr, zeroFirst]

theorem length_printTo {text buffer : Str} (fits : text.length < buffer.length) :
    (printTo text buffer).length = buffer.length := by
  simp only [printTo, List.length_append, List.length_cons, List.length_drop]
  omega

theorem length_zeroFirst {buffer : Str} (nonempty : 0 < buffer.length) : (zeroFirst buffer).length = buffer.length := by
  simp only [zeroFirst, List.length_cons, List.length_drop]
  omega

/-- A call of `input()` for the variable of a method; `drawn` holds the results of `rand()`. -/
structure InputCall where
  method : CIdentifier
  drawn : Bytes

def InputCall.row (c : InputCall) : Str :=
  snprintf 99 (getSymVarName c.method.name ++ ": 0x".toList ++ c.drawn.flatMap fun b => snprintf 3 (Numeral.hexPair b))

def Draw.toInputCall (d : Draw) : InputCall := ⟨d.method, d.drawn⟩

namespace InputCall

theorem row_ne_nil (c : InputCall) : c.row ≠ [] := by
  apply snprintf_ne_nil (by omega)
  exact List.append_ne_nil_of_left_ne_nil (List.append_ne_nil_of_right_ne_nil _ (List.cons_ne_nil _ _)) _

theorem length_row (c : InputCall) : c.row.length ≤ 98 := by
  simp only [row, snprintf, List.length_take]
  omega

theorem mem_row {c : InputCall} {x : Char} (member : x ∈ c.row) :
    isIdentifierChar x = true ∨ x = ':' ∨ x = ' ' ∨ Numeral.isHexDigit x = true := by
  have member := (List.take_sublist _ _).subset member
  rcases List.mem_append.mp member with member | member
  · rcases List.mem_append.mp member with member | member
    · exact Or.inl (mem_getSymVarName c.method member)
    · have all : ∀ y ∈ ": 0x".toList, isIdentifierChar y = true ∨ y = ':' ∨ y = ' ' :=
        forall_mem_of_all (by decide)
      rcases all x member with identifier | colon | blank
      · exact Or.inl identifier
      · exact Or.inr (Or.inl colon)
      · exact Or.inr (Or.inr (Or.inl blank))
  · obtain ⟨b, _, member⟩ := List.mem_flatMap.mp member
    have member := (List.take_sublist _ _).subset member
    exact Or.inr (Or.inr (Or.inr (Numeral.isHexDigit_of_mem_hexPair member)))

/-- A row has neither a null character nor a line break in it. -/
theorem row_clean (c : InputCall) : NUL ∉ c.row ∧ '\n' ∉ c.row ∧ '\r' ∉ c.row := by
  have no : ∀ x ∈ [NUL, '\n', '\r'],
      ¬ (isIdentifierChar x = true ∨ x = ':' ∨ x = ' ' ∨ Numeral.isHexDigit x = true) :=
    forall_mem_of_all (by decide)
  refine ⟨fun member => no NUL ?_ (mem_row member), fun member => no '\n' ?_ (mem_row member),
    fun member => no '\r' ?_ (mem_row member)⟩
  all_goals simp

end InputCall

/-! ### The generator -/

inductive Point where
  | top | running | after | terminated
  deriving DecidableEq, Repr

/-- `guards` are those set to zero so far, `written` the rows that `input()` wrote to, and `files` the test
files in the order of their renaming. -/
structure Generator where
  point : Point
  testVector : List Str
  testSize : Nat
  testRuns : Nat
  totalRuns : Nat
  testIsNew : Bool
  done : Bool
  guards : List Nat
  written : List Nat
  files : List (Str × Str)

inductive Event where
  | enter
  | input (c : InputCall)
  | guard (g : Nat)
  | ret
  | abort
  | exit (status : Int)
  | next
  | leave
  | signal

def vectorName (testRuns : Nat) : Str := "vector".toList ++ Numeral.decimal testRuns ++ ".test".toList

/-- The loop of `reset_test_vector`: up to the first empty row, but over no more than `count` rows. -/
def resetRows : Nat → List Str → List Str
  | 0, rows => rows
  | _, [] => []
  | count + 1, row :: rows => if cstr row = [] then row :: rows else zeroFirst row :: resetRows count rows

namespace Generator

def start : Generator where
  point := .top
  testVector := List.replicate (MAX_TEST_SIZE + 1) (List.replicate 100 NUL)
  testSize := 0
  testRuns := 0
  totalRuns := 0
  testIsNew := false
  done := false
  guards := []
  written := []
  files := []

def resetTestVector (s : Generator) : Generator :=
  { s with testVector := resetRows MAX_TEST_SIZE s.testVector, testSize := 0, testIsNew := false }

def writeTest (s : Generator) : Generator :=
  { s with
    files := s.files ++ [(vectorName s.testRuns, RandomTester.writeTest (s.testVector.map cstr))]
    testRuns := s.testRuns + 1 }

/-- `longjmp(env, 1)`: the call of `setjmp` returns once more. -/
def longjmp (s : Generator) : Generator := { s with point := .after }

def terminate (s : Generator) : Generator := { s with done := true, point := .terminated }

def exitHandler (s : Generator) (status : Int) : Generator :=
  if s.done then { s with point := .terminated }
  else if status = SUCCESS_STATUS then s.writeTest.terminate
  else s.longjmp

def input (s : Generator) (c : InputCall) : Generator :=
  let s := { s with
    testVector := s.testVector.modify s.testSize (printTo c.row)
    written := s.written ++ [s.testSize]
    testSize := s.testSize + 1 }
  if s.testSize ≥ MAX_TEST_SIZE then s.longjmp else s

def covTracePcGuard (s : Generator) (g : Nat) : Generator :=
  if s.guards.contains g then s else { s with guards := s.guards ++ [g], testIsNew := true }

def step (s : Generator) : Event → Option Generator
  | .enter =>
    if s.point = .top ∧ s.testRuns < MAX_TEST_NUMBER then
      some { s.resetTestVector with totalRuns := s.totalRuns + 1, point := .running }
    else none
  | .input c => if s.point = .running then some (s.input c) else none
  | .guard g => if s.point = .terminated then none else some (s.covTracePcGuard g)
  | .ret => if s.point = .running then some { s with point := .after } else none
  | .abort => if s.point = .running then some s.longjmp else none
  | .exit status => if s.point = .running then some (s.exitHandler status) else none
  | .next =>
    if s.point = .after then some { (if s.testIsNew then s.writeTest else s) with point := .top } else none
  | .leave => if s.point = .top ∧ ¬ s.testRuns < MAX_TEST_NUMBER then some s.terminate else none
  -- `exit_gracefully` sets `done` before it exits, so the exit handler writes nothing.
  | .signal => if s.point = .terminated then none else some s.terminate

end Generator

/-! ### What is to be kept -/

/-- The tests as they should be: `lines` are those of the execution under way, and `isNew` says whether it
was the first to reach some guard. -/
structure Ledger where
  lines : List Str
  isNew : Bool
  guards : List Nat
  tests : List (List Str)

namespace Ledger

def start : Ledger := ⟨[], false, [], []⟩

def keep (l : Ledger) : Ledger := { l with tests := l.tests ++ [l.lines] }

def observe (l : Ledger) : Event → Ledger
  | .enter => { l with lines := [], isNew := false }
  | .input c => { l with lines := l.lines ++ [c.row] }
  | .guard g => if l.guards.contains g then l else { l with guards := l.guards ++ [g], isNew := true }
  | .exit status => if status = SUCCESS_STATUS then l.keep else l
  | .next => if l.isNew then l.keep else l
  | .ret | .abort | .leave | .signal => l

end Ledger

/-- The lines of each test of a run. -/
def keptTests (events : List Event) : List (List Str) := (events.foldl Ledger.observe .start).tests

def testText (lines : List Str) : Str := lines.flatMap (· ++ ['\n'])

def testFiles (tests : List (List Str)) : List (Str × Str) :=
  tests.zipIdx.map fun (lines, k) => (vectorName k, testText lines)

theorem testFiles_concat (tests : List (List Str)) (lines : List Str) :
    testFiles (tests ++ [lines]) = testFiles tests ++ [(vectorName tests.length, testText lines)] := by
  simp [testFiles, List.zipIdx_append]

/-- A kept test with the lines of some draws is the file whose conversion and replay the draws decide. -/
theorem testText_draws (draws : List Draw) :
    testText (draws.map fun d => d.toInputCall.row) = RandomTester.writeTest (draws.map Draw.row) := by
  rw [RandomTester.writeTest, takeWhile_rows]
  rfl

/-! ### The buffer -/

/-- The rows hold the lines, and nothing behind them. -/
def Holds (rows lines : List Str) : Prop :=
  lines.length ≤ MAX_TEST_SIZE ∧ rows.map cstr = lines ++ List.replicate (MAX_TEST_SIZE + 1 - lines.length) []

theorem map_cstr_resetRows {count : Nat} {rows lines : List Str} {empty : Nat} (solid : ∀ line ∈ lines, line ≠ [])
    (enough : lines.length ≤ count) (held : rows.map cstr = lines ++ List.replicate empty []) :
    (resetRows count rows).map cstr = List.replicate (lines.length + empty) [] := by
  induction count generalizing rows lines with
  | zero =>
    obtain rfl := List.eq_nil_of_length_eq_zero (Nat.le_zero.mp enough)
    simpa [resetRows] using held
  | succ count ih =>
    cases rows with
    | nil =>
      have sizes := congrArg List.length held
      simp only [List.map_nil, List.length_nil, List.length_append, List.length_replicate] at sizes
      simp [resetRows, show lines.length + empty = 0 by omega]
    | cons row rows =>
      cases lines with
      | nil =>
        have blank : cstr row = [] := by
          have member : cstr row ∈ List.replicate empty [] := by
            rw [← List.nil_append (List.replicate empty []), ← held]
            exact List.mem_map_of_mem List.mem_cons_self
          exact List.eq_of_mem_replicate member
        simpa [resetRows, blank] using held
      | cons line lines =>
        obtain ⟨first, held⟩ := List.cons.inj held
        have full : cstr row ≠ [] := first ▸ solid line List.mem_cons_self
        have rest := ih (fun line member => solid line (List.mem_cons_of_mem _ member))
          (Nat.le_of_succ_le_succ enough) held
        rw [resetRows, if_neg full, List.map_cons, cstr_zeroFirst, rest, List.length_cons, Nat.succ_add,
          List.replicate_succ]

theorem Holds.reset {rows lines : List Str} (held : Holds rows lines) (solid : ∀ line ∈ lines, line ≠ []) :
    Holds (resetRows MAX_TEST_SIZE rows) [] := by
  refine ⟨Nat.zero_le _, ?_⟩
  rw [map_cstr_resetRows solid held.1 held.2, List.nil_append, List.length_nil]
  have bounded := held.1
  congr 1
  omega

theorem map_cstr_modify (rows : List Str) (k : Nat) {text : Str} (clean : NUL ∉ text) :
    (rows.modify k (printTo text)).map cstr = (rows.map cstr).set k text := by
  induction rows generalizing k with
  | nil => simp
  | cons row rows ih => cases k <;> simp [cstr_printTo clean, ih]

theorem Holds.input {rows lines : List Str} (held : Holds rows lines) (room : lines.length < MAX_TEST_SIZE)
    (c : InputCall) : Holds (rows.modify lines.length (printTo c.row)) (lines ++ [c.row]) := by
  refine ⟨by simpa using Nat.succ_le_of_lt room, ?_⟩
  obtain ⟨empty, count⟩ : ∃ empty, MAX_TEST_SIZE + 1 - lines.length = empty + 1 :=
    ⟨MAX_TEST_SIZE - lines.length, by omega⟩
  rw [map_cstr_modify rows _ c.row_clean.1, held.2, count, List.length_append, List.length_singleton,
    show MAX_TEST_SIZE + 1 - (lines.length + 1) = empty by omega, List.set_append_right _ _ (Nat.le_refl _),
    Nat.sub_self, List.replicate_succ, List.set_cons_zero, List.append_assoc]
  rfl

theorem Holds.writeTest {rows lines : List Str} (held : Holds rows lines) (solid : ∀ line ∈ lines, line ≠ []) :
    RandomTester.writeTest (rows.map cstr) = testText lines := by
  have bounded := held.1
  rw [held.2, show MAX_TEST_SIZE + 1 - lines.length = MAX_TEST_SIZE - lines.length + 1 by omega,
    List.replicate_succ, RandomTester.writeTest,
    List.takeWhile_append_of_pos fun line member => by simpa using solid line member]
  simp [testText]

/-- Every row keeps its 100 characters. -/
def Sized (rows : List Str) : Prop := ∀ row ∈ rows, row.length = 100

theorem Sized.reset {rows : List Str} (sized : Sized rows) (count : Nat) : Sized (resetRows count rows) := by
  induction rows generalizing count with
  | nil => cases count <;> exact sized
  | cons row rows ih =>
    cases count with
    | zero => exact sized
    | succ count =>
      have size := sized row List.mem_cons_self
      rw [resetRows]
      split
      · exact sized
      · intro other member
        rcases List.mem_cons.mp member with rfl | member
        · rw [length_zeroFirst (by omega), size]
        · exact ih (fun row member => sized row (List.mem_cons_of_mem _ member)) count other member

theorem Sized.input {rows : List Str} (sized : Sized rows) (k : Nat) (c : InputCall) :
    Sized (rows.modify k (printTo c.row)) := by
  intro row member
  have short := c.length_row
  obtain ⟨i, inside, rfl⟩ := List.getElem_of_mem member
  rw [List.length_modify] at inside
  have size := sized rows[i] (List.getElem_mem inside)
  rw [List.getElem_modify]
  split
  · rw [length_printTo (by omega), size]
  · exact size

/-! ### The generator keeps the ledger -/

/-- The buffer holds the lines of the execution under way, and the files are the tests kept so far. -/
structure Mirrors (s : Generator) (l : Ledger) : Prop where
  holds : Holds s.testVector l.lines
  solid : ∀ line ∈ l.lines, line ≠ [] ∧ '\n' ∉ line
  size : s.testSize = l.lines.length
  room : s.point = .running → l.lines.length < MAX_TEST_SIZE
  isNew : s.testIsNew = l.isNew
  guards : s.guards = l.guards
  undone : s.point ≠ .terminated → s.done = false
  files : s.files = testFiles l.tests
  runs : s.testRuns = l.tests.length
  oneLine : ∀ lines ∈ l.tests, ∀ line ∈ lines, '\n' ∉ line
  written : ∀ row ∈ s.written, row < MAX_TEST_SIZE
  sized : Sized s.testVector

theorem mirrors_start : Mirrors .start .start where
  holds := by
    refine ⟨Nat.zero_le _, ?_⟩
    have blank : cstr (List.replicate 100 NUL) = [] := rfl
    simp only [Generator.start, Ledger.start, List.map_replicate, blank, List.length_nil, Nat.sub_zero,
      List.nil_append]
  solid := by simp [Ledger.start]
  size := rfl
  room := by simp [Generator.start]
  isNew := rfl
  guards := rfl
  undone := fun _ => rfl
  files := rfl
  runs := rfl
  oneLine := by simp [Ledger.start]
  written := by simp [Generator.start]
  sized := fun _ member => by
    rw [List.eq_of_mem_replicate member, List.length_replicate]

namespace Mirrors
variable {s : Generator} {l : Ledger}

theorem nonempty (m : Mirrors s l) : ∀ line ∈ l.lines, line ≠ [] := fun line member => (m.solid line member).1

/-- A new point that is not inside an execution. -/
theorem goto (m : Mirrors s l) {point : Point} (outside : point ≠ .running) (undone : s.done = false) :
    Mirrors { s with point := point } l :=
  { m with room := fun running => absurd running outside, undone := fun _ => undone }

theorem terminate (m : Mirrors s l) : Mirrors s.terminate l :=
  { m with room := nofun, undone := fun live => absurd rfl live }

theorem writeTest (m : Mirrors s l) : Mirrors s.writeTest l.keep :=
  { m with
    files := by
      rw [Ledger.keep, testFiles_concat, ← m.files, ← m.runs, ← m.holds.writeTest m.nonempty]
      rfl
    runs := by simpa [Generator.writeTest, Ledger.keep] using m.runs
    oneLine := fun lines member => by
      rcases List.mem_append.mp member with member | member
      · exact m.oneLine lines member
      · rw [List.mem_singleton.mp member]
        exact fun line member => (m.solid line member).2 }

theorem enter (m : Mirrors s l) (undone : s.done = false) :
    Mirrors { s.resetTestVector with totalRuns := s.totalRuns + 1, point := .running } (l.observe .enter) :=
  { m with
    holds := m.holds.reset m.nonempty
    solid := by simp [Ledger.observe]
    size := rfl
    room := fun _ => by simp [Ledger.observe, MAX_TEST_SIZE]
    isNew := rfl
    undone := fun _ => undone
    sized := m.sized.reset _ }

theorem input (m : Mirrors s l) (running : s.point = .running) (c : InputCall) :
    Mirrors (s.input c) (l.observe (.input c)) := by
  have room := m.room running
  have undone := m.undone (by simp [running])
  have size : s.testSize + 1 = (l.observe (.input c)).lines.length := by simp [Ledger.observe, m.size]
  have solid : ∀ line ∈ (l.observe (.input c)).lines, line ≠ [] ∧ '\n' ∉ line := by
    intro line member
    rcases List.mem_append.mp member with member | member
    · exact m.solid line member
    · rw [List.mem_singleton.mp member]
      exact ⟨c.row_ne_nil, c.row_clean.2.1⟩
  have written : ∀ row ∈ s.written ++ [s.testSize], row < MAX_TEST_SIZE := by
    intro row member
    rcases List.mem_append.mp member with member | member
    · exact m.written row member
    · rw [List.mem_singleton.mp member, m.size]
      exact room
  have holds := m.holds.input room c
  rw [← m.size] at holds
  simp only [Generator.input]
  split
  · exact { m with
      holds := holds, solid := solid, size := size, room := nofun, undone := fun _ => undone, written := written
      sized := m.sized.input _ c }
  · rename_i short
    refine { m with
      holds := holds, solid := solid, size := size, room := fun _ => ?_, undone := fun _ => undone
      written := written, sized := m.sized.input _ c }
    exact size ▸ Nat.lt_of_not_le short

theorem guard (m : Mirrors s l) (g : Nat) : Mirrors (s.covTracePcGuard g) (l.observe (.guard g)) := by
  simp only [Generator.covTracePcGuard, Ledger.observe, ← m.guards]
  split
  · exact m
  · exact { m with isNew := rfl, guards := rfl }

theorem exit (m : Mirrors s l) (running : s.point = .running) (status : Int) :
    Mirrors (s.exitHandler status) (l.observe (.exit status)) := by
  have undone := m.undone (by simp [running])
  simp only [Generator.exitHandler, Ledger.observe, undone, Bool.false_eq_true, if_false]
  split
  · exact m.writeTest.terminate
  · exact m.goto (by simp) undone

theorem next (m : Mirrors s l) (undone : s.done = false) :
    Mirrors { (if s.testIsNew then s.writeTest else s) with point := .top } (l.observe .next) := by
  simp only [Ledger.observe, m.isNew]
  split
  · exact m.writeTest.goto (by simp) undone
  · exact m.goto (by simp) undone

theorem step (m : Mirrors s l) {event : Event} {t : Generator} (taken : s.step event = some t) :
    Mirrors t (l.observe event) := by
  have undone : ∀ {point}, s.point = point → point ≠ .terminated → s.done = false :=
    fun here live => m.undone (here ▸ live)
  cases event with
  | enter =>
    obtain ⟨⟨top, _⟩, taken⟩ := Option.ite_none_right_eq_some.mp taken
    exact Option.some.inj taken ▸ m.enter (undone top (by simp))
  | input c =>
    obtain ⟨running, taken⟩ := Option.ite_none_right_eq_some.mp taken
    exact Option.some.inj taken ▸ m.input running c
  | guard g =>
    obtain ⟨_, taken⟩ := Option.ite_none_left_eq_some.mp taken
    exact Option.some.inj taken ▸ m.guard g
  | ret =>
    obtain ⟨running, taken⟩ := Option.ite_none_right_eq_some.mp taken
    exact Option.some.inj taken ▸ m.goto (by simp) (undone running (by simp))
  | abort =>
    obtain ⟨running, taken⟩ := Option.ite_none_right_eq_some.mp taken
    exact Option.some.inj taken ▸ m.goto (by simp) (undone running (by simp))
  | exit status =>
    obtain ⟨running, taken⟩ := Option.ite_none_right_eq_some.mp taken
    exact Option.some.inj taken ▸ m.exit running status
  | next =>
    obtain ⟨after, taken⟩ := Option.ite_none_right_eq_some.mp taken
    exact Option.some.inj taken ▸ m.next (undone after (by simp))
  | leave =>
    obtain ⟨_, taken⟩ := Option.ite_none_right_eq_some.mp taken
    exact Option.some.inj taken ▸ m.terminate
  | signal =>
    obtain ⟨_, taken⟩ := Option.ite_none_left_eq_some.mp taken
    exact Option.some.inj taken ▸ m.terminate

end Mirrors

/-- The files of a run are the kept tests under consecutive names, each with the lines of its own execution. -/
theorem files_eq_keptTests (events : List Event) {s : Generator}
    (reached : Transition.run Generator.step .start events = some s) :
    s.files = testFiles (keptTests events) ∧ (∀ lines ∈ keptTests events, ∀ line ∈ lines, '\n' ∉ line) ∧
      (∀ row ∈ s.written, row < MAX_TEST_SIZE) ∧ Sized s.testVector := by
  have mirrors := Transition.run_observed Ledger.observe Mirrors (fun s l event t m => m.step) mirrors_start reached
  exact ⟨mirrors.files, mirrors.oneLine, mirrors.written, mirrors.sized⟩

def byteCall (b : UInt8) : InputCall := ⟨.of ['x'] (by decide), [b]⟩

/-- An execution with two calls that returns, and one with a single call that finds the error. -/
def twoExecutions : List Event :=
  [.enter, .input (byteCall 7), .guard 1, .input (byteCall 255), .ret, .next, .enter, .input (byteCall 1), .exit 147]

theorem files_of_twoExecutions : ∃ s, Transition.run Generator.step .start twoExecutions = some s ∧
    s.files = [("vector0.test".toList, "__sym_x: 0x07\n__sym_x: 0xff\n".toList),
      ("vector1.test".toList, "__sym_x: 0x01\n".toList)] := by
  obtain ⟨s, reached⟩ : ∃ s, Transition.run Generator.step .start twoExecutions = some s := ⟨_, rfl⟩
  refine ⟨s, reached, (files_eq_keptTests twoExecutions reached).1.trans ?_⟩
  decide

end Tbf.RandomTester
