import Tbf.Tools.Converters

/-!
# The test suites of FShell

A suite is a header and blocks of lines, one block for each test. The converter emits a block when the
next one starts, and the last block by a rule of its own.
-/

namespace Tbf.Fshell
open Text Numeral

/-- The start of a block, `IN:`. -/
def startMark : Str := "IN:".toList

/-- A line inside a block: the value of a nondet method, or a line of another kind. -/
inductive SuiteLine (methods : List Str) where
  | input (m args value : Str) (interesting : m ∈ methods) (argsPlain : '=' ∉ args) (valuePlain : '=' ∉ value)
  | other (text : Str) (noStart : ¬ startMark <+: text) (plain : isInteresting methods text = false)

variable {methods : List Str}

def SuiteLine.text : SuiteLine methods → Str
  | input m args value _ _ _ => m ++ '(' :: args ++ ")=".toList ++ value
  | other text _ _ => text

def SuiteLine.value : SuiteLine methods → Option Str
  | input _ _ value _ _ _ => some value
  | other _ _ _ => none

/-- A block starts with a line `IN:`, which may go on. -/
structure Block (methods : List Str) where
  behind : Str
  lines : List (SuiteLine methods)

def Block.texts (b : Block methods) : List Str := (startMark ++ b.behind) :: b.lines.map SuiteLine.text

def Block.values (b : Block methods) : List Str := b.lines.filterMap SuiteLine.value

structure Suite (methods : List Str) where
  header : Str
  noStart : ¬ startMark <+: header
  plain : isInteresting methods header = false
  blocks : List (Block methods)
  single : ∀ line ∈ blocks.flatMap Block.texts, ¬ "Test Suite".toList <:+: line

def Suite.texts (s : Suite methods) : List Str := s.header :: s.blocks.flatMap Block.texts

/-- Test cases for some blocks, with consecutive names from `count` on, and without the excluded ones. -/
def numberedFrom (testsFile : Str) (exclude : List Str) (count : Nat) (blocks : List (Block methods)) :
    List (TestCase (List Str)) :=
  ((blocks.zipIdx count).filter fun (_, i) => !exclude.contains (decimal i)).map
    fun (b, i) => ⟨decimal i, testsFile, b.values⟩

/-- The converter returns one test for each block that is not excluded, with the values of this block. -/
def Returns (nondetMethods : List Str) (testsFile content : Str) (exclude : List Str)
    (blocks : List (Block methods)) : Prop :=
  ∃ testCases, getTestCasesInDir nondetMethods testsFile (some content) exclude = .ok testCases ∧
    testCases = numberedFrom testsFile exclude 1 blocks ∧
    ∀ testCase ∈ testCases, (getTestVector testCase).values = testCase.content.map Value.str

/-! ### One line -/

/-- The names that FShell prints have no colon and no equals sign. -/
def Plain (methods : List Str) : Prop := ∀ m ∈ methods, ':' ∉ m ∧ '=' ∉ m

theorem plain_interestingMethods (nondetMethods : List CIdentifier) :
    Plain (interestingMethods (nondetMethods.map CIdentifier.name)) := by
  intro m member
  unfold interestingMethods at member
  obtain ⟨name, inNames, rfl⟩ := List.mem_map.mp member
  obtain ⟨method, _, rfl⟩ := List.mem_map.mp inNames
  have kept : ∀ c, c ∉ "nondet".toList → c ∉ "_nondet".toList → isIdentifierChar c = false →
      c ∉ replaceSub "nondet".toList "_nondet".toList method.name := by
    intro c noOld noNew noChar inside
    have absent : c ∉ method.name := fun member => by
      rw [method.chars c member] at noChar
      cases noChar
    rcases mem_intercalate inside with inNew | ⟨part, inParts, inPart⟩
    · exact noNew inNew
    · exact not_mem_of_mem_splitSub (by decide) noOld absent inParts inPart
  exact ⟨kept ':' (by decide) (by decide) (by decide), kept '=' (by decide) (by decide) (by decide)⟩

/-- A colon would be in the name, or a parenthesis in front of it. -/
theorem noStart_of_interesting (plain : Plain methods) {m rest : Str} (member : m ∈ methods) :
    ¬ startMark <+: m ++ '(' :: rest := by
  intro start
  have noColon := (plain m member).1
  have mark : startMark = ['I', 'N', ':'] := rfl
  rw [mark] at start
  rcases m with _ | ⟨a, _ | ⟨b, _ | ⟨c, m⟩⟩⟩
  all_goals simp [List.cons_prefix_cons] at start noColon
  exact noColon.2.2.1 start.2.2

theorem isInteresting_input {m rest : Str} (member : m ∈ methods) :
    isInteresting methods (m ++ '(' :: rest) = true := by
  unfold isInteresting
  rw [List.any_eq_true]
  exact ⟨m, member, by simp⟩

theorem isInteresting_start (plain : Plain methods) (behind : Str) :
    isInteresting methods (startMark ++ behind) = false := by
  unfold isInteresting
  rw [List.any_eq_false]
  intro m member front
  have mark : startMark = ['I', 'N', ':'] := rfl
  have noColon := (plain m member).1
  have front := List.isPrefixOf_iff_prefix.mp front
  rw [mark] at front
  rcases m with _ | ⟨a, _ | ⟨b, _ | ⟨c, m⟩⟩⟩
  all_goals simp [List.cons_prefix_cons] at front noColon
  exact noColon.2.2.1 front.2.2.1.symm

/-- The text between the two equals signs that could stand in a line, of which there is only one. -/
theorem value_of_input (plain : Plain methods) {m args value : Str} (member : m ∈ methods) (argsPlain : '=' ∉ args)
    (valuePlain : '=' ∉ value) : ((m ++ '(' :: args ++ ")=".toList ++ value).splitOn '=')[1]? = some value := by
  have front : '=' ∉ m ++ '(' :: args ++ [')'] := by
    simp [(plain m member).2, argsPlain]
  have split : m ++ '(' :: args ++ ")=".toList ++ value = (m ++ '(' :: args ++ [')']) ++ '=' :: value := by
    rw [show ")=".toList = [')', '='] from rfl]
    simp
  rw [split, List.splitOn_append_cons_self_of_not_mem front, List.splitOn_eq_singleton valuePlain]
  rfl

def step (testsFile : Str) (exclude methods : List Str) (s : Scan) (line : Str) : Except Raised Scan :=
  (s.startTest testsFile exclude line).addValue methods line

theorem addValue_interesting {line value : Str} (interesting : isInteresting methods line = true)
    (read : (line.splitOn '=')[1]? = some value) (s : Scan) :
    s.addValue methods line = .ok { s with currTest := s.currTest ++ [value] } := by
  rw [Scan.addValue, if_pos interesting, read]

theorem addValue_other {line : Str} (other : isInteresting methods line = false) (s : Scan) :
    s.addValue methods line = .ok s := by
  rw [Scan.addValue, if_neg (by simp [other])]

/-- A line inside a block adds its value, if it has one, to the block. -/
theorem step_line (plain : Plain methods) (testsFile : Str) (exclude : List Str) (s : Scan) (line : SuiteLine methods) :
    step testsFile exclude methods s line.text = .ok { s with currTest := s.currTest ++ line.value.toList } := by
  cases line with
  | input m args value member argsPlain valuePlain =>
    have noStart : ¬ startMark <+: m ++ '(' :: args ++ ")=".toList ++ value := by
      simpa only [List.append_assoc, List.cons_append] using noStart_of_interesting plain member
    have interesting : isInteresting methods (m ++ '(' :: args ++ ")=".toList ++ value) = true := by
      simpa only [List.append_assoc, List.cons_append] using isInteresting_input member
    have same : s.startTest testsFile exclude (m ++ '(' :: args ++ ")=".toList ++ value) = s :=
      if_neg fun start => noStart (List.isPrefixOf_iff_prefix.mp start)
    rw [SuiteLine.text, step, same]
    exact addValue_interesting interesting (value_of_input plain member argsPlain valuePlain) s
  | other text noStart notInteresting =>
    have same : s.startTest testsFile exclude text = s :=
      if_neg fun start => noStart (List.isPrefixOf_iff_prefix.mp start)
    rw [SuiteLine.text, step, same, addValue_other notInteresting]
    simp [SuiteLine.value]

/-! ### Blocks -/

theorem fold_lines (plain : Plain methods) (testsFile : Str) (exclude : List Str) (s : Scan)
    (lines : List (SuiteLine methods)) :
    (lines.map SuiteLine.text).foldlM (step testsFile exclude methods) s =
      .ok { s with currTest := s.currTest ++ lines.filterMap SuiteLine.value } := by
  induction lines generalizing s with
  | nil => simp [pure, Except.pure]
  | cons line lines ih =>
    rw [List.map_cons, List.foldlM_cons, step_line plain]
    show (lines.map SuiteLine.text).foldlM (step testsFile exclude methods) _ = _
    rw [ih]
    cases value : line.value <;> simp [value]

/-- The start of a block emits the block before it, unless there is none. -/
theorem step_start (plain : Plain methods) (testsFile : Str) (exclude : List Str) (s : Scan) (behind : Str) :
    step testsFile exclude methods s (startMark ++ behind) =
      .ok ⟨[], if !exclude.contains (decimal s.count) && s.count > 0 then
        s.testCases ++ [⟨decimal s.count, testsFile, s.currTest⟩] else s.testCases, s.count + 1⟩ := by
  have started : s.startTest testsFile exclude (startMark ++ behind) =
      ⟨[], if !exclude.contains (decimal s.count) && s.count > 0 then
        s.testCases ++ [⟨decimal s.count, testsFile, s.currTest⟩] else s.testCases, s.count + 1⟩ :=
    if_pos (List.isPrefixOf_iff_prefix.mpr (List.prefix_append _ _))
  rw [step, started, addValue_other (isInteresting_start plain behind)]

theorem fold_block (plain : Plain methods) (testsFile : Str) (exclude : List Str) (s : Scan) (b : Block methods) :
    b.texts.foldlM (step testsFile exclude methods) s =
      .ok ⟨b.values, if !exclude.contains (decimal s.count) && s.count > 0 then
        s.testCases ++ [⟨decimal s.count, testsFile, s.currTest⟩] else s.testCases, s.count + 1⟩ := by
  rw [Block.texts, List.foldlM_cons, step_start plain]
  show (b.lines.map SuiteLine.text).foldlM (step testsFile exclude methods) _ = _
  rw [fold_lines plain]
  rfl

theorem numberedFrom_cons (testsFile : Str) (exclude : List Str) (count : Nat) (b : Block methods)
    (blocks : List (Block methods)) : numberedFrom testsFile exclude count (b :: blocks) =
      (if !exclude.contains (decimal count) then [⟨decimal count, testsFile, b.values⟩] else []) ++
        numberedFrom testsFile exclude (count + 1) blocks := by
  unfold numberedFrom
  rw [List.zipIdx_cons, List.filter_cons]
  dsimp only
  split <;> rfl

/-- While a block is read, the blocks before it are emitted, and it is itself held back. -/
theorem fold_blocks (plain : Plain methods) (testsFile : Str) (exclude : List Str) (testCases : List (TestCase (List Str)))
    {count : Nat} (started : 0 < count) (b : Block methods) (blocks : List (Block methods)) :
    (blocks.flatMap Block.texts).foldlM (step testsFile exclude methods) ⟨b.values, testCases, count⟩ =
      .ok ⟨((b :: blocks).getLast (List.cons_ne_nil _ _)).values,
        testCases ++ numberedFrom testsFile exclude count (b :: blocks).dropLast, count + blocks.length⟩ := by
  induction blocks generalizing b testCases count with
  | nil => simp [numberedFrom, pure, Except.pure]
  | cons next blocks ih =>
    rw [List.flatMap_cons, List.foldlM_append, fold_block plain]
    show (blocks.flatMap Block.texts).foldlM (step testsFile exclude methods) _ = _
    rw [ih _ (Nat.succ_pos count)]
    have counted : decide (count > 0) = true := decide_eq_true started
    have total : count.succ + blocks.length = count + (next :: blocks).length := by
      rw [List.length_cons]
      omega
    rw [List.dropLast_cons_of_ne_nil (List.cons_ne_nil next blocks), numberedFrom_cons,
      List.getLast_cons (List.cons_ne_nil next blocks), counted, Bool.and_true, total]
    split <;> simp

theorem numberedFrom_concat (testsFile : Str) (exclude : List Str) (count : Nat) (blocks : List (Block methods))
    (b : Block methods) : numberedFrom testsFile exclude count (blocks ++ [b]) =
      numberedFrom testsFile exclude count blocks ++
        (if !exclude.contains (decimal (count + blocks.length)) then
          [⟨decimal (count + blocks.length), testsFile, b.values⟩] else []) := by
  induction blocks generalizing count with
  | nil => simpa [numberedFrom] using numberedFrom_cons testsFile exclude count b []
  | cons next blocks ih =>
    have total : count + 1 + blocks.length = count + (next :: blocks).length := by
      rw [List.length_cons]
      omega
    rw [List.cons_append, numberedFrom_cons, ih, numberedFrom_cons, total, List.append_assoc]

/-! ### A whole suite -/

/-- What the loop over a suite ends with. -/
def Suite.scanned (suite : Suite methods) (testsFile : Str) (exclude : List Str) : Scan :=
  ⟨(suite.blocks.getLast?.map Block.values).getD [], numberedFrom testsFile exclude 1 suite.blocks.dropLast,
    suite.blocks.length⟩

theorem fold_suite (plain : Plain methods) (testsFile : Str) (exclude : List Str) (suite : Suite methods) :
    suite.texts.foldlM (step testsFile exclude methods) ⟨[], [], 0⟩ = .ok (suite.scanned testsFile exclude) := by
  have header := step_line plain testsFile exclude ⟨[], [], 0⟩ (.other suite.header suite.noStart suite.plain)
  rw [Suite.texts, List.foldlM_cons]
  rw [SuiteLine.text] at header
  rw [header]
  show (suite.blocks.flatMap Block.texts).foldlM (step testsFile exclude methods) ⟨[], [], 0⟩ = _
  unfold Suite.scanned
  cases suite.blocks with
  | nil => rfl
  | cons b blocks =>
    have none_before : (!exclude.contains (decimal 0) && decide (0 > 0)) = false := Bool.and_false _
    rw [List.flatMap_cons, List.foldlM_append, fold_block plain]
    dsimp only
    rw [none_before, if_neg Bool.false_ne_true]
    show (blocks.flatMap Block.texts).foldlM (step testsFile exclude methods) _ = _
    rw [fold_blocks plain testsFile exclude [] Nat.one_pos b blocks,
      List.getLast?_eq_some_getLast (List.cons_ne_nil b blocks), List.length_cons, Nat.add_comm]
    simp

/-- The last block is emitted only where it has a value. -/
theorem getTestCasesInDir_suite {nondetMethods : List Str} (plain : Plain (interestingMethods nondetMethods))
    (testsFile : Str) (exclude : List Str) (suite : Suite (interestingMethods nondetMethods)) {content : Str}
    (reads : (readLines (universalNewlines content)).map strip = suite.texts) :
    getTestCasesInDir nondetMethods testsFile (some content) exclude =
      .ok (let s := suite.scanned testsFile exclude
        if s.currTest ≠ [] ∧ !exclude.contains (decimal s.count) then
          s.testCases ++ [⟨decimal s.count, testsFile, s.currTest⟩] else s.testCases) := by
  have single : (suite.texts.filter fun l => "Test Suite".toList <:+: l).length ≤ 1 := by
    have noOther : (suite.blocks.flatMap Block.texts).filter (fun l => "Test Suite".toList <:+: l) = [] :=
      List.filter_eq_nil_iff.mpr fun line member inside => suite.single line member (of_decide_eq_true inside)
    rw [Suite.texts, List.filter_cons, noOther]
    split <;> simp
  unfold getTestCasesInDir
  dsimp only
  rw [reads]
  exact bind_ok.mpr ⟨(), check_ok.mpr (decide_eq_true single),
    bind_ok.mpr ⟨_, fold_suite plain testsFile exclude suite, rfl⟩⟩

theorem getTestVector_values (testCase : TestCase (List Str)) :
    (getTestVector testCase).values = testCase.content.map Value.str := by
  unfold getTestVector TestVector.values
  rw [TestVector.foldl_add_vector Value.str (fun _ => none)]
  simp [TestVector.new, Function.comp_def]

/-- Every test of a suite is returned exactly where the last block has a value or is excluded. -/
theorem returns_blocks_iff (nondetMethods : List CIdentifier) (testsFile : Str) (exclude : List Str)
    (suite : Suite (interestingMethods (nondetMethods.map CIdentifier.name))) {content : Str}
    (reads : (readLines (universalNewlines content)).map strip = suite.texts) :
    Returns (nondetMethods.map CIdentifier.name) testsFile content exclude suite.blocks ↔
      ∀ last ∈ suite.blocks.getLast?, last.values ≠ [] ∨ decimal suite.blocks.length ∈ exclude := by
  have result := getTestCasesInDir_suite (plain_interestingMethods nondetMethods) testsFile exclude suite reads
  have exact : Returns (nondetMethods.map CIdentifier.name) testsFile content exclude suite.blocks ↔
      (let s := suite.scanned testsFile exclude
        if s.currTest ≠ [] ∧ !exclude.contains (decimal s.count) then
          s.testCases ++ [⟨decimal s.count, testsFile, s.currTest⟩] else s.testCases) =
        numberedFrom testsFile exclude 1 suite.blocks := by
    unfold Returns
    rw [result]
    constructor
    · rintro ⟨testCases, made, whole, _⟩
      exact (Except.ok.inj made).trans whole
    · intro whole
      exact ⟨_, rfl, whole, fun testCase _ => getTestVector_values testCase⟩
  rw [exact]
  unfold Suite.scanned
  rcases List.eq_nil_or_concat suite.blocks with none_there | ⟨init, last, split⟩
  · simp [none_there, numberedFrom]
  · rw [List.concat_eq_append] at split
    have total : (init ++ [last]).length = 1 + init.length := by
      rw [List.length_append, List.length_singleton]
      omega
    rw [split, List.getLast?_concat, List.dropLast_concat, numberedFrom_concat, total]
    by_cases skipped : decimal (1 + init.length) ∈ exclude
    · simp [skipped]
    · by_cases empty : last.values = [] <;> simp [skipped, empty]

def nondetInt : CIdentifier := .of "__VERIFIER_nondet_int".toList (by decide)

/-- A suite with one test, and this test with one input. -/
def sevenSuite : Suite (interestingMethods ([nondetInt].map CIdentifier.name)) where
  header := "Test Suite 1:".toList
  noStart := by decide
  plain := by decide
  blocks := [⟨[], [.input "__VERIFIER__nondet_int".toList [] ['7'] (by decide) (by decide) (by decide)]⟩]
  single := forall_mem_of_all (by decide)

theorem returns_blocks_iff_seven :
    Returns ([nondetInt].map CIdentifier.name) "testsuite.txt".toList
        "Test Suite 1:\n  IN:\n    __VERIFIER__nondet_int()=7\n".toList [] sevenSuite.blocks ↔
      ∀ last ∈ sevenSuite.blocks.getLast?, last.values ≠ [] ∨ decimal sevenSuite.blocks.length ∈ ([] : List Str) :=
  returns_blocks_iff [nondetInt] "testsuite.txt".toList [] sevenSuite (by decide)

/-- The only test of a program that reads no input is lost. -/
theorem empty_test_lost :
    ¬ Returns ([nondetInt].map CIdentifier.name) "testsuite.txt".toList "Test Suite 1:\nIN:\n".toList []
      ([⟨[], []⟩] : List (Block (interestingMethods ([nondetInt].map CIdentifier.name)))) := by
  rintro ⟨testCases, made, whole, _⟩
  have nothing : getTestCasesInDir ([nondetInt].map CIdentifier.name) "testsuite.txt".toList
      (some "Test Suite 1:\nIN:\n".toList) [] = .ok [] := by decide
  obtain rfl := Except.ok.inj (nothing.symm.trans made)
  cases whole

end Tbf.Fshell
