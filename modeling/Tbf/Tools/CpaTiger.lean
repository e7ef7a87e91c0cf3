import Mathlib.Data.List.Nodup
import Tbf.Library.Numeral
import Tbf.Utils

/-!
# CPATiger

All tests of CPATiger are lines of one file, `testsuite.txt`, which grows while tbf polls it. A test is
named after its position, but after the tests of earlier polls were taken out.
-/

namespace Tbf.CpaTiger
open Text Numeral

/-! ### The converter -/

def isTest (line : Str) : Bool := line.head? = some '[' && line.getLast? = some ']'

def tests (content : Str) : List Str := ((readLines (universalNewlines content)).map strip).filter isTest

/-- `_get_test_cases_in_dir`, where `content` is that of `testsuite.txt` if it exists. -/
def getTestCasesInDir (testsFile : Str) (content : Option Str) (exclude : List Str) : List (TestCase Str) :=
  match content with
  | none => []
  | some content =>
    let remaining := ((tests content).zipIdx.filter fun (_, i) => !exclude.contains (decimal i)).map Prod.fst
    remaining.zipIdx.map fun (t, i) => ⟨decimal i, testsFile, t⟩

def getTestVector (testCase : TestCase Str) : Except Raised TestVector := do
  check ((testCase.content.splitOn '\n').length = 1)
  check (isTest testCase.content)
  let processedLine := testCase.content.dropLast.drop 1
  let testValues := splitSub ", ".toList processedLine
  return testValues.foldl (fun testVector value => testVector.add (.str value) none)
    (.new testCase.name testCase.origin)

/-! ### Polling -/

/-- The file as a list of whole lines, `none` while it does not exist. -/
abbrev Suite := Option (List Str)

namespace Suite

def text (lines : List Str) : Str := lines.flatMap (· ++ ['\n'])

def seen (suite : Suite) : List Str := (suite.map fun lines => tests (text lines)).getD []

/-- The file was created, or whole lines were appended to it. -/
def Grows (before after : Suite) : Prop :=
  ∀ lines, before = some lines → ∃ appended, after = some (lines ++ appended)

end Suite

/-- What each poll excludes and returns: it excludes the names that earlier ones returned. -/
def polls (testsFile : Str) : List Str → List Suite → List (List Str × List (TestCase Str))
  | _, [] => []
  | exclude, suite :: rest =>
    let testCases := getTestCasesInDir testsFile (suite.map Suite.text) exclude
    (exclude, testCases) :: polls testsFile (exclude ++ testCases.map TestCase.name) rest

def returned (testsFile : Str) (exclude : List Str) (suites : List Suite) : List (TestCase Str) :=
  (polls testsFile exclude suites).flatMap Prod.snd

/-- Over a whole run, every bracketed line of the last poll is returned once, no excluded name is, and no
name is given twice. -/
structure KeepsIdentity (testsFile : Str) (suites : List Suite) : Prop where
  once : ((returned testsFile [] suites).map TestCase.content).Perm ((suites.getLast?.map Suite.seen).getD [])
  excluded : ∀ poll ∈ polls testsFile [] suites, ∀ testCase ∈ poll.2, testCase.name ∉ poll.1
  distinct : ((returned testsFile [] suites).map TestCase.name).Nodup

/-- Once a poll has seen a test, no later poll sees a new one. -/
def Settled (suites : List Suite) : Prop := suites.Pairwise fun before after => before.seen = [] ∨ after.seen = before.seen

/-! ### One poll -/

def names (n : Nat) : List Str := (List.range n).map decimal

def numbered (testsFile : Str) (lines : List Str) : List (TestCase Str) :=
  lines.zipIdx.map fun (t, i) => ⟨decimal i, testsFile, t⟩

theorem decimal_mem_names {i n : Nat} : decimal i ∈ names n ↔ i < n := by
  simp only [names, List.mem_map, List.mem_range]
  constructor
  · rintro ⟨j, small, same⟩
    exact decimal_injective same ▸ small
  · exact fun small => ⟨i, small, rfl⟩

theorem names_nodup (n : Nat) : (names n).Nodup := List.Nodup.map decimal_injective List.nodup_range

theorem numbered_names (testsFile : Str) (lines : List Str) :
    (numbered testsFile lines).map TestCase.name = names lines.length := by
  have positions : lines.zipIdx.map Prod.snd = List.range lines.length := by
    rw [List.zipIdx_map_snd, List.range_eq_range']
  rw [names, ← positions, numbered, List.map_map, List.map_map]
  rfl

theorem numbered_content (testsFile : Str) (lines : List Str) :
    (numbered testsFile lines).map TestCase.content = lines := by
  simp only [numbered, List.map_map, Function.comp_def]
  exact List.zipIdx_map_fst 0 lines

theorem filter_zipIdx (lines : List Str) (start n : Nat) :
    ((lines.zipIdx start).filter fun (_, i) => !(names n).contains (decimal i)).map Prod.fst = lines.drop (n - start) := by
  induction lines generalizing start with
  | nil => simp
  | cons line lines ih =>
    rw [List.zipIdx_cons, List.filter_cons]
    by_cases later : n ≤ start
    · have kept : decimal start ∉ names n := fun member => Nat.not_lt_of_le later (decimal_mem_names.mp member)
      have rest := ih (start + 1)
      rw [show n - (start + 1) = 0 by omega] at rest
      rw [show n - start = 0 by omega]
      simpa [kept] using rest
    · have skipped : decimal start ∈ names n := decimal_mem_names.mpr (Nat.lt_of_not_le later)
      rw [show n - start = n - (start + 1) + 1 by omega]
      simpa [skipped] using ih (start + 1)

/-- A poll that excludes the first `n` names skips the first `n` tests and numbers the others anew. -/
theorem getTestCasesInDir_names (testsFile : Str) (suite : Suite) (n : Nat) :
    getTestCasesInDir testsFile (suite.map Suite.text) (names n) = numbered testsFile (suite.seen.drop n) := by
  cases suite with
  | none => simp [getTestCasesInDir, Suite.seen, numbered]
  | some lines =>
    have rest := filter_zipIdx (tests (Suite.text lines)) 0 n
    simp only [getTestCasesInDir, Option.map_some, rest]
    rfl

/-! ### Growth -/

theorem tests_append (front rest : Str) : tests (front ++ '\n' :: rest) = tests (front ++ ['\n']) ++ tests rest := by
  obtain ⟨text, whole⟩ := universalNewlines_concat front
  have split := readLines_append text (universalNewlines rest)
  have nonempty : universalNewlines (front ++ '\n' :: rest) = text ++ '\n' :: universalNewlines rest := by
    rw [universalNewlines_append, whole]
    simp
  unfold tests
  rw [nonempty, whole, split]
  simp

theorem tests_text_append (lines appended : List Str) :
    tests (Suite.text (lines ++ appended)) = tests (Suite.text lines) ++ tests (Suite.text appended) := by
  rcases List.eq_nil_or_concat' lines with rfl | ⟨front, last, rfl⟩
  · have empty : tests [] = [] := rfl
    simp [Suite.text, empty]
  · have split : Suite.text (front ++ [last] ++ appended) =
        (Suite.text front ++ last) ++ '\n' :: Suite.text appended := by simp [Suite.text]
    have whole : Suite.text (front ++ [last]) = (Suite.text front ++ last) ++ ['\n'] := by simp [Suite.text]
    rw [split, whole, tests_append]

theorem seen_front {before after : Suite} (grows : before.Grows after) : before.seen <+: after.seen := by
  cases before with
  | none => exact List.nil_prefix
  | some lines =>
    obtain ⟨appended, rfl⟩ := grows lines rfl
    exact ⟨tests (Suite.text appended), (tests_text_append lines appended).symm⟩

/-! ### A whole run -/

theorem returned_settled (testsFile : Str) {n : Nat} {suites : List Suite}
    (same : ∀ suite ∈ suites, suite.seen.length = n) :
    returned testsFile (names n) suites = [] := by
  induction suites with
  | nil => rfl
  | cons suite suites ih =>
    obtain ⟨here, later⟩ := List.forall_mem_cons.mp same
    have nothing : getTestCasesInDir testsFile (suite.map Suite.text) (names n) = [] := by
      rw [getTestCasesInDir_names, List.drop_eq_nil_of_le (by omega)]
      rfl
    simpa [returned, polls, nothing] using ih later

theorem polls_settled (testsFile : Str) {n : Nat} {suites : List Suite}
    (same : ∀ suite ∈ suites, suite.seen.length = n) :
    ∀ poll ∈ polls testsFile (names n) suites, poll.2 = [] := by
  intro poll member
  have empty := returned_settled testsFile same
  rw [returned, List.flatMap_eq_nil_iff] at empty
  exact empty poll member

theorem length_seen_of_excluded (testsFile : Str) {n : Nat} (some_seen : 0 < n) {suites : List Suite}
    (enough : ∀ suite ∈ suites, n ≤ suite.seen.length)
    (excluded : ∀ poll ∈ polls testsFile (names n) suites, ∀ testCase ∈ poll.2, testCase.name ∉ poll.1) :
    ∀ suite ∈ suites, suite.seen.length = n := by
  induction suites with
  | nil => simp
  | cons suite suites ih =>
    obtain ⟨here, later⟩ := List.forall_mem_cons.mp enough
    rw [polls, getTestCasesInDir_names] at excluded
    obtain ⟨first, rest⟩ := List.forall_mem_cons.mp excluded
    have nothing : suite.seen.drop n = [] := by
      by_contra more
      obtain ⟨line, lines, split⟩ := List.exists_cons_of_ne_nil more
      have again : (⟨decimal 0, testsFile, line⟩ : TestCase Str) ∈ numbered testsFile (suite.seen.drop n) := by
        rw [split, numbered, List.zipIdx_cons]
        exact List.mem_cons_self
      exact first _ again (decimal_mem_names.mpr some_seen)
    have all : suite.seen.length = n := by
      have := List.drop_eq_nil_iff.mp nothing
      omega
    rw [nothing] at rest
    simp only [numbered, List.zipIdx_nil, List.map_nil, List.append_nil] at rest
    exact List.forall_mem_cons.mpr ⟨all, ih later rest⟩

theorem polls_unseen (testsFile : Str) {suite : Suite} (unseen : suite.seen = []) (suites : List Suite) :
    polls testsFile [] (suite :: suites) = ([], []) :: polls testsFile [] suites := by
  have nothing := getTestCasesInDir_names testsFile suite 0
  rw [unseen] at nothing
  rw [polls, show ([] : List Str) = names 0 from rfl, nothing]
  rfl

theorem polls_first (testsFile : Str) (suite : Suite) (suites : List Suite) :
    polls testsFile [] (suite :: suites) =
      ([], numbered testsFile suite.seen) :: polls testsFile (names suite.seen.length) suites := by
  have all := getTestCasesInDir_names testsFile suite 0
  rw [List.drop_zero] at all
  rw [polls, show ([] : List Str) = names 0 from rfl, all, numbered_names]
  rfl

theorem keepsIdentity_of_settled (testsFile : Str) {suites : List Suite} (settled : Settled suites) :
    KeepsIdentity testsFile suites := by
  induction suites with
  | nil => exact ⟨List.Perm.refl _, by simp [polls], List.nodup_nil⟩
  | cons suite suites ih =>
    obtain ⟨here, later⟩ := List.pairwise_cons.mp settled
    by_cases unseen : suite.seen = []
    · obtain ⟨once, excluded, distinct⟩ := ih later
      have polled := polls_unseen testsFile unseen suites
      have same : returned testsFile [] (suite :: suites) = returned testsFile [] suites := by
        rw [returned, polled]
        rfl
      refine ⟨?_, ?_, same ▸ distinct⟩
      · rw [same]
        cases suites with
        | nil => simp [returned, polls, unseen]
        | cons next rest => simpa using once
      · rw [polled]
        exact List.forall_mem_cons.mpr ⟨by simp, excluded⟩
    · have fixed : ∀ after ∈ suites, after.seen = suite.seen :=
        fun after member => (here after member).resolve_left unseen
      have lengths : ∀ after ∈ suites, after.seen.length = suite.seen.length :=
        fun after member => by rw [fixed after member]
      have polled := polls_first testsFile suite suites
      have all : returned testsFile [] (suite :: suites) = numbered testsFile suite.seen := by
        have nothing := returned_settled testsFile lengths
        rw [returned] at nothing ⊢
        rw [polled, List.flatMap_cons, nothing, List.append_nil]
      refine ⟨?_, ?_, ?_⟩
      · rw [all, numbered_content]
        cases last : (suite :: suites).getLast? with
        | none => simp at last
        | some after =>
          have same : after.seen = suite.seen := by
            rcases List.mem_cons.mp (List.mem_of_getLast? last) with rfl | member
            · rfl
            · exact fixed after member
          simp [same]
      · rw [polled]
        refine List.forall_mem_cons.mpr ⟨by simp, fun poll member => ?_⟩
        rw [polls_settled testsFile lengths poll member]
        simp
      · rw [all, numbered_names]
        exact names_nodup _

/-- The first test seen must come with all others: only the check of excluded names is needed for that. -/
theorem settled_of_excluded (testsFile : Str) {suites : List Suite} (grows : suites.Pairwise Suite.Grows)
    (excluded : ∀ poll ∈ polls testsFile [] suites, ∀ testCase ∈ poll.2, testCase.name ∉ poll.1) :
    Settled suites := by
  induction suites with
  | nil => exact List.Pairwise.nil
  | cons suite suites ih =>
    obtain ⟨fromHere, later⟩ := List.pairwise_cons.mp grows
    by_cases unseen : suite.seen = []
    · rw [polls_unseen testsFile unseen] at excluded
      exact List.pairwise_cons.mpr ⟨fun _ _ => Or.inl unseen, ih later (List.forall_mem_cons.mp excluded).2⟩
    · rw [polls_first] at excluded
      have kept : ∀ after ∈ suites, suite.seen <+: after.seen := fun after member => seen_front (fromHere after member)
      have lengths := length_seen_of_excluded testsFile (List.length_pos_of_ne_nil unseen)
        (fun after member => (kept after member).length_le) (List.forall_mem_cons.mp excluded).2
      have fixed : ∀ after ∈ suites, after.seen = suite.seen :=
        fun after member => ((kept after member).eq_of_length (lengths after member).symm).symm
      refine List.pairwise_cons.mpr ⟨fun after member => Or.inr (fixed after member), ?_⟩
      exact List.pairwise_of_forall_mem_list fun before first after second =>
        Or.inr ((fixed after second).trans (fixed before first).symm)

/-- A growing suite keeps the identity of its tests exactly when no poll sees a test that is new after
the first poll that saw any. -/
theorem keepsIdentity_iff_settled (testsFile : Str) {suites : List Suite} (grows : suites.Pairwise Suite.Grows) :
    KeepsIdentity testsFile suites ↔ Settled suites :=
  ⟨fun keeps => settled_of_excluded testsFile grows keeps.excluded, keepsIdentity_of_settled testsFile⟩

def twoPolls : List Suite := [none, some ["[1, 2]".toList], some ["[1, 2]".toList, "done".toList]]

theorem twoPolls_keepsIdentity : KeepsIdentity "output/testsuite.txt".toList twoPolls := by
  refine (keepsIdentity_iff_settled _ ?_).mpr ?_
  · simp [twoPolls, Suite.Grows]
  · unfold Settled twoPolls
    decide

theorem growing_loses_identity :
    ([some ["[1]".toList], some ["[1]".toList, "[2]".toList]] : List Suite).Pairwise Suite.Grows ∧
      ¬ KeepsIdentity "output/testsuite.txt".toList [some ["[1]".toList], some ["[1]".toList, "[2]".toList]] := by
  refine ⟨by simp [Suite.Grows], fun keeps => ?_⟩
  have distinct := keeps.distinct
  revert distinct
  decide

/-! ### Decoding -/

/-- A test as CPATiger prints its list of integer inputs. -/
def render (inputs : List Int) : Str := '[' :: ", ".toList.intercalate (inputs.map integerText) ++ [']']

theorem newline_not_mem_render (inputs : List Int) : '\n' ∉ render inputs := by
  intro member
  have inside : '\n' ∈ ", ".toList.intercalate (inputs.map integerText) := by
    simpa [render] using member
  rcases mem_intercalate inside with inSep | ⟨part, inParts, inPart⟩
  · revert inSep
    decide
  · obtain ⟨v, _, rfl⟩ := List.mem_map.mp inParts
    rcases mem_integerText inPart with minus | digit
    · cases minus
    · cases digit

theorem getTestVector_render (name origin : Str) (inputs : List Int) :
    getTestVector ⟨name, origin, render inputs⟩ =
      .ok ((splitSub ", ".toList (", ".toList.intercalate (inputs.map integerText))).foldl
        (fun testVector value => testVector.add (.str value) none) (.new name origin)) := by
  have single : ((render inputs).splitOn '\n').length = 1 := by
    rw [List.splitOn_eq_singleton (newline_not_mem_render inputs), List.length_singleton]
  have brackets : isTest (render inputs) = true := by
    rw [isTest, render, List.getLast?_concat]
    rfl
  have inner : (render inputs).dropLast.drop 1 = ", ".toList.intercalate (inputs.map integerText) := by
    rw [render, List.dropLast_concat, List.drop_one, List.tail_cons]
  unfold getTestVector
  dsimp only
  rw [(check_ok (u := ())).mpr (decide_eq_true single), brackets, inner]
  rfl

/-- The decoded vector has the numerals of the inputs as its values, in order and no others. -/
def Decoded (name origin : Str) (inputs : List Int) : Prop :=
  ∃ tv, getTestVector ⟨name, origin, render inputs⟩ = .ok tv ∧
    tv.values = inputs.map (fun v => .str (integerText v)) ∧ tv.length = inputs.length

/-- A rendered list is decoded to its numerals, except that the empty list is decoded to one empty value. -/
theorem decoded_iff (name origin : Str) (inputs : List Int) : Decoded name origin inputs ↔ inputs ≠ [] := by
  unfold Decoded
  rw [getTestVector_render]
  constructor
  · rintro ⟨tv, made, _, size⟩ rfl
    obtain rfl := Except.ok.inj made
    cases size
  · intro nonempty
    have texts : splitSub ", ".toList (", ".toList.intercalate (inputs.map integerText)) = inputs.map integerText := by
      apply splitSub_intercalate (by simpa using nonempty)
      intro part member comma
      obtain ⟨v, _, rfl⟩ := List.mem_map.mp member
      rcases mem_integerText comma with minus | digit
      · cases minus
      · cases digit
    have vector := TestVector.foldl_add_vector Value.str (fun _ => none) (inputs.map integerText) (.new name origin)
    refine ⟨_, rfl, ?_, ?_⟩
    · rw [texts, TestVector.values, vector]
      simp [TestVector.new, Function.comp_def]
    · rw [texts, TestVector.length, vector]
      simp [TestVector.new]

theorem not_decoded_empty : ¬ Decoded ['0'] "testsuite.txt".toList [] := by
  rintro ⟨tv, made, _, size⟩
  obtain rfl := Except.ok.inj made
  cases size

end Tbf.CpaTiger
