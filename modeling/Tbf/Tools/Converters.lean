import Tbf.Tools.Afl
import Tbf.Tools.CpaTiger
import Tbf.Tools.Klee
import Tbf.Tools.RandomTester

/-!
# The vectors of the six converters

CREST and FShell, and what kind of values each converter puts into a vector.
-/

namespace Tbf
open Text

namespace Crest

def getTestVector (testCase : TestCase Str) : TestVector :=
  ((testCase.content.splitOn '\n').map strip |>.filter (· ≠ [])).foldl
    (fun testVector value => testVector.add (.str value) none) (.new testCase.name testCase.origin)

end Crest

namespace Fshell

/-- The names that FShell prints for the nondet methods. -/
def interestingMethods (nondetMethods : List Str) : List Str :=
  nondetMethods.map (replaceSub "nondet".toList "_nondet".toList)

structure Scan where
  currTest : List Str
  testCases : List (TestCase (List Str))
  count : Nat

def isInteresting (methods : List Str) (line : Str) : Bool := methods.any fun m => (m ++ ['(']).isPrefixOf line

def Scan.startTest (testsFile : Str) (exclude : List Str) (s : Scan) (line : Str) : Scan :=
  if "IN:".toList.isPrefixOf line then
    let testName := Numeral.decimal s.count
    let testCases := if !exclude.contains testName && s.count > 0 then
        s.testCases ++ [⟨testName, testsFile, s.currTest⟩] else s.testCases
    { currTest := [], testCases, count := s.count + 1 }
  else s

def Scan.addValue (methods : List Str) (s : Scan) (line : Str) : Except Raised Scan :=
  if isInteresting methods line then
    match (line.splitOn '=')[1]? with
    | some testValue => .ok { s with currTest := s.currTest ++ [testValue] }
    | none => .error .indexError
  else .ok s

def getTestCasesInDir (nondetMethods : List Str) (testsFile : Str) (content : Option Str) (exclude : List Str) :
    Except Raised (List (TestCase (List Str))) :=
  match content with
  | none => .ok []
  | some content => do
    let content := (readLines (universalNewlines content)).map strip
    check ((content.filter fun l => "Test Suite".toList <:+: l).length ≤ 1)
    let methods := interestingMethods nondetMethods
    let s ← content.foldlM (fun (s : Scan) line => (s.startTest testsFile exclude line).addValue methods line)
      ⟨[], [], 0⟩
    let testName := Numeral.decimal s.count
    return if s.currTest ≠ [] ∧ !exclude.contains testName then s.testCases ++ [⟨testName, testsFile, s.currTest⟩]
      else s.testCases

def getTestVector (testCase : TestCase (List Str)) : TestVector :=
  testCase.content.foldl (fun vector tv => vector.add (.str tv) none) (.new testCase.name testCase.origin)

end Fshell

/-! ### Vectors of strings -/

inductive Tester where
  | afl | crest | cpatiger | fshell | klee | prtest
  deriving DecidableEq, Repr

/-- The vector is one that the converter of the tester can return. -/
def Tester.Produces : Tester → TestVector → Prop
  | afl, tv => ∃ testCase, Afl.getTestVector testCase = tv
  | crest, tv => ∃ testCase, Crest.getTestVector testCase = tv
  | cpatiger, tv => ∃ testCase, CpaTiger.getTestVector testCase = .ok tv
  | fshell, tv => ∃ nondetMethods testsFile content exclude testCases,
      Fshell.getTestCasesInDir nondetMethods testsFile content exclude = .ok testCases ∧
        ∃ testCase ∈ testCases, Fshell.getTestVector testCase = tv
  | klee, tv => ∃ name origin execOutput, Klee.getTestVector name origin execOutput = .ok tv
  | prtest, tv => ∃ testCase, RandomTester.getTestVector testCase = .ok tv

/-- All values are strings of one line. -/
def TestVector.Textual (tv : TestVector) : Prop := ∀ v ∈ tv.values, ∃ text, v = .str text ∧ '\n' ∉ text

theorem textual_of_vector {tv : TestVector} {texts : List Str} {method : Str → Option Str}
    (vector : tv.vector = texts.map fun text => ⟨.str text, method text⟩) (clean : ∀ text ∈ texts, '\n' ∉ text) :
    tv.Textual := by
  intro v member
  rw [TestVector.values, vector, List.map_map] at member
  obtain ⟨text, inTexts, rfl⟩ := List.mem_map.mp member
  exact ⟨text, rfl, clean text inTexts⟩

theorem newline_not_mem_of_splitOn {s : Str} (single : (s.splitOn '\n').length = 1) : '\n' ∉ s := by
  obtain ⟨line, split⟩ := List.length_eq_one_iff.mp single
  have whole : _ = s := List.intercalate_splitOn '\n'
  rw [split] at whole
  have clean := (subset_of_mem_splitOn (show line ∈ s.splitOn '\n' by rw [split]; exact List.mem_cons_self)).2
  simp at whole
  exact whole ▸ clean

theorem not_mem_of_mem_splitSub {c : Char} {sep xs part : Str} (nonempty : sep ≠ []) (noSep : c ∉ sep) (absent : c ∉ xs)
    (member : part ∈ splitSub sep xs) : c ∉ part := by
  intro inside
  have none_lost := countP_flatten_splitSub (p := (· == c)) nonempty
    (fun x here => by simpa using fun same : x = c => noSep (same ▸ here)) xs
  have none_there : xs.countP (· == c) = 0 :=
    List.countP_eq_zero.mpr fun x here => by simpa using fun same : x = c => absent (same ▸ here)
  rw [none_there, List.countP_eq_zero] at none_lost
  exact none_lost c (List.mem_flatten.mpr ⟨part, member, inside⟩) (by simp)

theorem crest_textual (testCase : TestCase Str) : (Crest.getTestVector testCase).Textual := by
  have vector : (Crest.getTestVector testCase).vector =
      (((testCase.content.splitOn '\n').map strip).filter (· ≠ [])).map fun text => ⟨.str text, none⟩ := by
    unfold Crest.getTestVector
    rw [TestVector.foldl_add_vector (fun line => Value.str line) (fun _ => none)]
    rfl
  refine textual_of_vector vector fun text member inside => ?_
  obtain ⟨line, inLines, rfl⟩ := List.mem_map.mp (List.mem_filter.mp member).1
  exact (subset_of_mem_splitOn inLines).2 (strip_subset line inside)

theorem cpatiger_textual {testCase : TestCase Str} {tv : TestVector}
    (converted : CpaTiger.getTestVector testCase = .ok tv) : tv.Textual := by
  unfold CpaTiger.getTestVector at converted
  obtain ⟨_, single, converted⟩ := bind_ok.mp converted
  obtain ⟨_, _, converted⟩ := bind_ok.mp converted
  have oneLine := newline_not_mem_of_splitOn (by simpa using check_ok.mp single)
  have vector : tv.vector = (splitSub ", ".toList (testCase.content.dropLast.drop 1)).map
      fun text => ⟨.str text, none⟩ := by
    rw [← Except.ok.inj converted, TestVector.foldl_add_vector (fun value => Value.str value) (fun _ => none)]
    rfl
  have inside : '\n' ∉ testCase.content.dropLast.drop 1 := fun member =>
    oneLine (((List.drop_sublist _ _).trans (List.dropLast_sublist _)).subset member)
  exact textual_of_vector vector fun text => not_mem_of_mem_splitSub (by decide) (by decide) inside

theorem fshell_textual {testCase : TestCase (List Str)} (clean : ∀ text ∈ testCase.content, '\n' ∉ text) :
    (Fshell.getTestVector testCase).Textual := by
  have vector : (Fshell.getTestVector testCase).vector = testCase.content.map fun text => ⟨.str text, none⟩ := by
    unfold Fshell.getTestVector
    rw [TestVector.foldl_add_vector (fun tv => Value.str tv) (fun _ => none)]
    rfl
  exact textual_of_vector vector clean

def Fshell.Scan.Clean (s : Fshell.Scan) : Prop :=
  (∀ text ∈ s.currTest, '\n' ∉ text) ∧ ∀ testCase ∈ s.testCases, ∀ text ∈ testCase.content, '\n' ∉ text

theorem startTest_clean {s : Fshell.Scan} (clean : s.Clean) (testsFile : Str) (exclude : List Str) (line : Str) :
    (s.startTest testsFile exclude line).Clean := by
  unfold Fshell.Scan.startTest
  split
  · refine ⟨by simp, ?_⟩
    dsimp only
    split
    · intro testCase member
      rcases List.mem_append.mp member with before | last
      · exact clean.2 testCase before
      · obtain rfl := List.mem_singleton.mp last
        exact clean.1
    · exact clean.2
  · exact clean

theorem addValue_clean {s s' : Fshell.Scan} (clean : s.Clean) {methods : List Str} {line : Str} (oneLine : '\n' ∉ line)
    (added : s.addValue methods line = .ok s') : s'.Clean := by
  unfold Fshell.Scan.addValue at added
  split at added
  · split at added
    · rename_i testValue value
      obtain rfl := Except.ok.inj added
      refine ⟨fun text member => ?_, clean.2⟩
      rcases List.mem_append.mp member with before | last
      · exact clean.1 text before
      · obtain rfl := List.mem_singleton.mp last
        exact fun inside => oneLine ((subset_of_mem_splitOn (List.mem_of_getElem? value)).1 inside)
    · cases added
  · exact Except.ok.inj added ▸ clean

theorem fshell_testCases_clean {nondetMethods : List Str} {testsFile : Str} {content : Option Str} {exclude : List Str}
    {testCases : List (TestCase (List Str))}
    (read : Fshell.getTestCasesInDir nondetMethods testsFile content exclude = .ok testCases) :
    ∀ testCase ∈ testCases, ∀ text ∈ testCase.content, '\n' ∉ text := by
  cases content with
  | none =>
    obtain rfl := Except.ok.inj read
    simp
  | some content =>
    unfold Fshell.getTestCasesInDir at read
    obtain ⟨_, _, read⟩ := bind_ok.mp read
    obtain ⟨last, scanned, read⟩ := bind_ok.mp read
    have clean : last.Clean := by
      refine foldlM_invariant (fun s s' line member clean step => ?_) (by simp [Fshell.Scan.Clean]) scanned
      obtain ⟨raw, inFile, rfl⟩ := List.mem_map.mp member
      exact addValue_clean (startTest_clean clean _ _ _) (newline_not_mem_strip inFile) step
    obtain rfl := Except.ok.inj read
    split
    · intro testCase member
      rcases List.mem_append.mp member with before | final
      · exact clean.2 testCase before
      · obtain rfl := List.mem_singleton.mp final
        exact clean.1
    · exact clean.2

def Klee.Reader.Clean (r : Klee.Reader) : Prop := r.vector.Textual ∧ ∀ text ∈ r.lastValue, '\n' ∉ text

theorem klee_getValue {line value : Str} (oneLine : '\n' ∉ line) (read : Klee.getValue line = .ok value) :
    '\n' ∉ value := by
  unfold Klee.getValue at read
  split at read
  · rename_i part found
    obtain rfl := Except.ok.inj read
    intro inside
    have inStrip := ((List.drop_sublist _ _).trans (List.dropLast_sublist _)).subset inside
    exact oneLine ((subset_of_mem_splitOn (List.mem_of_getElem? found)).1 (strip_subset _ inStrip))
  · cases read

theorem klee_lookAt_clean {r r' : Klee.Reader} {line : Str} (oneLine : '\n' ∉ line) (clean : r.Clean)
    (read : r.lookAt line = .ok r') : r'.Clean := by
  obtain ⟨middle, first, read⟩ := bind_ok.mp read
  have middleClean : middle.Clean := by
    unfold Klee.Reader.readLine at first
    split at first
    · iterate 6 obtain ⟨_, _, first⟩ := bind_ok.mp first
      obtain rfl := Except.ok.inj first
      exact clean
    · split at first
      · obtain ⟨_, _, first⟩ := bind_ok.mp first
        obtain ⟨_, _, first⟩ := bind_ok.mp first
        obtain ⟨value, found, first⟩ := bind_ok.mp first
        obtain ⟨_, _, first⟩ := bind_ok.mp first
        obtain rfl := Except.ok.inj first
        refine ⟨clean.1, ?_⟩
        rintro text same inside
        obtain rfl := Option.some.inj same
        rcases List.mem_append.mp inside with zero | inside
        · revert zero
          decide
        · obtain ⟨part, member, inPart⟩ := List.mem_flatten.mp inside
          exact not_mem_of_mem_splitSub (by decide) (by decide) (klee_getValue oneLine found)
            (List.mem_reverse.mp member) inPart
      · exact Except.ok.inj first ▸ clean
  obtain rfl := Except.ok.inj read
  unfold Klee.Reader.flush
  split
  · rename_i method value _ pending
    refine ⟨fun v member => ?_, by simp⟩
    simp only [TestVector.values, TestVector.add, List.map_append, List.map_cons, List.map_nil, List.mem_append,
      List.mem_singleton] at member
    rcases member with before | rfl
    · exact middleClean.1 v before
    · exact ⟨value, rfl, middleClean.2 value pending⟩
  · exact middleClean

theorem klee_textual {name origin execOutput : Str} {tv : TestVector}
    (converted : Klee.getTestVector name origin execOutput = .ok tv) : tv.Textual := by
  unfold Klee.getTestVector at converted
  obtain ⟨last, read, converted⟩ := bind_ok.mp converted
  obtain rfl := Except.ok.inj converted
  have start : Klee.Reader.Clean ⟨-1, none, none, .new name origin⟩ := by
    simp [Klee.Reader.Clean, TestVector.Textual, TestVector.values, TestVector.new]
  refine (foldlM_invariant (fun r r' line member clean step => ?_) start read).1
  exact klee_lookAt_clean (subset_of_mem_splitOn (List.mem_filter.mp member).1).2 clean step

theorem prtest_textual {testCase : TestCase Str} {tv : TestVector}
    (converted : RandomTester.getTestVector testCase = .ok tv) : tv.Textual := by
  unfold RandomTester.getTestVector at converted
  simp only [RandomTester.foldlM_getValue] at converted
  split at converted
  · rename_i values read
    have vector : tv.vector = values.map fun text => ⟨.str text, none⟩ := by
      rw [← Except.ok.inj converted]
      simp [TestVector.new]
    refine textual_of_vector vector fun text member inside => ?_
    obtain ⟨k, there, rfl⟩ := List.getElem_of_mem member
    have each := mapM_ok_iff.mp read
    have inside' := each.length_eq ▸ there
    have here := each.get inside' there
    have line := List.get_mem ((testCase.content.splitOn '\n').filter (· ≠ [])) ⟨k, inside'⟩
    unfold RandomTester.getValue at here
    split at here
    · rename_i value found
      have stripped : strip value = values[k] := Except.ok.inj here
      rw [← stripped] at inside
      have inLine := (subset_of_mem_splitOn (List.mem_of_getElem? found)).1 (strip_subset _ inside)
      exact (subset_of_mem_splitOn (List.mem_filter.mp line).1).2 inLine
    · cases here
  · cases converted

end Tbf
