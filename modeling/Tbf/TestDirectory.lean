import Mathlib.Data.List.Perm.Basic
import Tbf.Library.Lines
import Tbf.Library.Polling
import Tbf.Parallel
import Tbf.TestSuiteXml
import Tbf.Tools.KtestFile
import Tbf.Tools.PrtestExchange

/-!
# Tests as files

AFL, CREST, KLEE and the random tester write each test to a file of its own. The processing loop polls their
directory, and leaves out what has the name of a test that an earlier poll returned.
-/

namespace Tbf.TestDirectory
open Text Processing Polling

/-- A file in the directory; its name is no path. -/
structure File where
  name : Str
  plain : '/' ∉ name
  content : Bytes
  deriving DecidableEq

/-- A converter that takes each test from a file; `isTest` is the pattern for which it globs. -/
structure FileConverter (Content : Type) where
  isTest : Str → Bool
  getTestName : Str → Str
  read : Bytes → Except Raised Content
  getTestVector : TestCase Content → Except Raised TestVector
  named : ∀ testCase tv, getTestVector testCase = .ok tv → tv.name = testCase.name

def path (directory : Str) (file : File) : Str := directory ++ '/' :: file.name

theorem basename_path (directory : Str) (file : File) : basename (path directory file) = file.name := by
  have plain : ∀ c ∈ file.name.reverse, decide (c ≠ '/') = true := by
    intro c member
    simpa using fun same : c = '/' => file.plain (same ▸ List.mem_reverse.mp member)
  rw [basename, path, List.rtakeWhile, List.reverse_append, List.reverse_cons, List.append_assoc,
    List.takeWhile_append_of_pos plain]
  simp

/-! ### The four converters -/

/-- The content of a file that is opened as text. -/
def readText (content : Bytes) : Except Raised Str :=
  match decode content with
  | some text => .ok (universalNewlines text)
  | none => .error .unicodeDecodeError

theorem name_foldl_add {ι : Type} (value : ι → Value) (items : List ι) (tv : TestVector) :
    (items.foldl (fun v item => v.add (value item) none) tv).name = tv.name := by
  induction items generalizing tv with
  | nil => rfl
  | cons item items ih => exact ih _

def afl : FileConverter Bytes where
  isTest name := "id:".toList.isPrefixOf name
  getTestName := basename
  read := .ok
  getTestVector testCase := .ok (Afl.getTestVector testCase)
  named _ _ converted := Except.ok.inj converted ▸ name_foldl_add Value.bytes _ _

def crest : FileConverter Str where
  isTest name := "input".toList.isPrefixOf name && (name[5]?).any Char.isDigit
  getTestName := basename
  read := readText
  getTestVector testCase := .ok (Crest.getTestVector testCase)
  named _ _ converted := Except.ok.inj converted ▸ name_foldl_add Value.str _ _

def prtest : FileConverter Str where
  isTest := RandomTester.isVectorFile
  getTestName := basename
  read := readText
  getTestVector := RandomTester.getTestVector
  named _ _ converted := by
    unfold RandomTester.getTestVector at converted
    rw [RandomTester.foldlM_getValue] at converted
    split at converted
    · obtain rfl := Except.ok.inj converted
      rfl
    · cases converted

theorem vector_readLine {r next : Klee.Reader} {line : Str} (read : r.readLine line = .ok next) : next.vector = r.vector := by
  unfold Klee.Reader.readLine at read
  split at read
  · simp only [bind_ok] at read
    obtain ⟨_, _, _, _, _, _, _, _, _, _, _, _, same⟩ := read
    obtain rfl := Except.ok.inj same
    rfl
  · split at read
    · simp only [bind_ok] at read
      obtain ⟨_, _, _, _, _, _, _, _, same⟩ := read
      obtain rfl := Except.ok.inj same
      rfl
    · obtain rfl := Except.ok.inj read
      rfl

theorem name_lookAt {r next : Klee.Reader} {line : Str} (read : r.lookAt line = .ok next) :
    next.vector.name = r.vector.name := by
  obtain ⟨middle, line, same⟩ := bind_ok.mp read
  obtain rfl := Except.ok.inj same
  rw [← vector_readLine line, Klee.Reader.flush]
  split <;> rfl

/-- The name of a test is its file's up to the first dot, and the vector is read off what `ktest-tool` prints. -/
def klee (r : Ktest.TextRepr) : FileConverter Bytes where
  isTest name := ".ktest".toList.isSuffixOf name && name.head? != some '.'
  getTestName testFile := (basename testFile).takeWhile (· ≠ '.')
  read := .ok
  getTestVector testCase := Ktest.getTestVector r testCase.name testCase.origin (some testCase.content)
  named testCase _ converted := by
    obtain ⟨last, folded, same⟩ := bind_ok.mp converted
    obtain rfl := Except.ok.inj same
    exact @foldlM_invariant Klee.Reader Str _ (fun r => r.vector.name = testCase.name) _
      (fun _ _ _ _ named read => (name_lookAt read).trans named) _ _ rfl folded

def firstFile : File := ⟨"id:000000".toList, by decide, encode "7".toList⟩

def secondFile : File := ⟨"id:000001".toList, by decide, encode "8".toList⟩

/-! ### Polls -/

namespace FileConverter
variable {Content : Type} (c : FileConverter Content)

def getTestCaseFromFile (directory : Str) (file : File) : Except Raised (TestCase Content) := do
  let content ← c.read file.content
  return ⟨c.getTestName (path directory file), path directory file, content⟩

def getTestCasesInDir (directory : Str) (files : List File) (exclude : List Str) : Except Raised (List (TestCase Content)) :=
  let allTests := files.filter fun file => c.isTest file.name
  (allTests.filter fun file => !exclude.contains (c.getTestName (path directory file))).mapM (c.getTestCaseFromFile directory)

def getTestVectors (directory : Str) (files : List File) (exclude : List Str) : Except Raised (List TestVector) := do
  let testCases ← c.getTestCasesInDir directory files exclude
  testCases.mapM c.getTestVector

/-- The polls of `_perform_processing`, with what each of them finds in the directory. -/
def poll (directory : Str) : List Str → List (List File) → Except Raised (List (List TestVector))
  | _, [] => .ok []
  | visited, files :: later => do
    let newTestVectors ← c.getTestVectors directory files visited
    let rest ← poll directory (visited ∪ names newTestVectors) later
    return newTestVectors :: rest

/-! ### What a poll returns -/

def fromFile (directory : Str) (file : File) : Except Raised TestVector := do
  let testCase ← c.getTestCaseFromFile directory file
  c.getTestVector testCase

def testName (directory : Str) (file : File) : Str := c.getTestName (path directory file)

def tests (files : List File) : List File := files.filter fun file => c.isTest file.name

variable {c} {directory : Str}

theorem name_fromFile {file : File} {tv : TestVector} (converted : c.fromFile directory file = .ok tv) :
    tv.name = c.testName directory file := by
  obtain ⟨testCase, made, converted⟩ := bind_ok.mp converted
  obtain ⟨content, _, made⟩ := bind_ok.mp made
  obtain rfl := Except.ok.inj made
  exact c.named _ _ converted

theorem mapM_mapM {α β γ : Type} {f : α → Except Raised β} {g : β → Except Raised γ} {xs : List α} {zs : List γ} :
    (xs.mapM f >>= fun ys => ys.mapM g) = .ok zs ↔ List.Forall₂ (fun x z => (f x >>= g) = .ok z) xs zs := by
  simp only [bind_ok, mapM_ok_iff]
  constructor
  · rintro ⟨ys, first, second⟩
    induction first generalizing zs with
    | nil =>
      cases second
      exact .nil
    | cons made _ ih =>
      cases second with
      | cons converted rest => exact .cons ⟨_, made, converted⟩ (ih rest)
  · intro each
    induction each with
    | nil => exact ⟨[], .nil, .nil⟩
    | cons here _ ih =>
      obtain ⟨y, made, converted⟩ := here
      obtain ⟨ys, first, second⟩ := ih
      exact ⟨y :: ys, .cons made first, .cons converted second⟩

theorem getTestVectors_ok {files : List File} {exclude : List Str} {batch : List TestVector} :
    c.getTestVectors directory files exclude = .ok batch ↔
      List.Forall₂ (fun file tv => c.fromFile directory file = .ok tv)
        (fresh (c.testName directory) exclude (c.tests files)) batch := by
  have same : fresh (c.testName directory) exclude (c.tests files) =
      (c.tests files).filter fun file => !exclude.contains (c.getTestName (path directory file)) := by
    unfold fresh testName
    exact List.filter_congr fun file _ => by simp
  rw [same]
  exact mapM_mapM

theorem names_of_converted {files : List File} {batch : List TestVector}
    (each : List.Forall₂ (fun file tv => c.fromFile directory file = .ok tv) files batch) :
    names batch = files.map (c.testName directory) := by
  induction each with
  | nil => rfl
  | cons converted _ ih => rw [List.map_cons, ← ih, ← name_fromFile converted, names, names, List.map_cons]

theorem poll_ok {visited : List Str} {listings : List (List File)} {batches : List (List TestVector)}
    (polled : c.poll directory visited listings = .ok batches) :
    List.Forall₂ (List.Forall₂ fun file tv => c.fromFile directory file = .ok tv)
      (polls (c.testName directory) visited (listings.map c.tests)) batches := by
  induction listings generalizing visited batches with
  | nil =>
    obtain rfl := Except.ok.inj polled
    exact .nil
  | cons files later ih =>
    obtain ⟨batch, found, polled⟩ := bind_ok.mp polled
    obtain ⟨rest, later, same⟩ := bind_ok.mp polled
    obtain rfl := Except.ok.inj same
    have each := getTestVectors_ok.mp found
    rw [names_of_converted each] at later
    exact .cons each (ih later)

theorem mem_testNames {files : List File} {n : Str} : n ∈ (c.tests files).map (c.testName directory) ↔
    ∃ file ∈ files, c.isTest file.name = true ∧ c.testName directory file = n := by
  simp [tests, and_assoc]

theorem unshown_iff {listings : List (List File)} {k : Nat} {n : Str} :
    (∀ earlier ∈ (listings.map c.tests).take k, n ∉ earlier.map (c.testName directory)) ↔
      ∀ earlier ∈ listings.take k, ∀ other ∈ earlier, c.isTest other.name = true → c.testName directory other ≠ n := by
  rw [← List.map_take, List.forall_mem_map]
  simp only [mem_testNames, not_exists, not_and, ne_eq]

/-- The poll returns the tests whose name no file of an earlier poll had, each as its file is at this poll. -/
theorem poll_returns {listings : List (List File)} {batches : List (List TestVector)}
    (polled : c.poll directory [] listings = .ok batches) {k : Nat} {batch : List TestVector}
    (here : batches[k]? = some batch) :
    ∃ files, listings[k]? = some files ∧
      List.Forall₂ (fun file tv => c.fromFile directory file = .ok tv)
        (files.filter fun file => c.isTest file.name ∧ ∀ earlier ∈ listings.take k, ∀ other ∈ earlier,
          c.isTest other.name = true → c.testName directory other ≠ c.testName directory file) batch := by
  have each := poll_ok polled
  obtain ⟨inside, rfl⟩ := List.getElem?_eq_some_iff.mp here
  have inPolls := each.length_eq ▸ inside
  have taken : (polls (c.testName directory) [] (listings.map c.tests))[k]? = _ := getElem?_polls k
  rw [List.getElem?_eq_getElem inPolls, List.getElem?_map] at taken
  cases listed : listings[k]? with
  | none => simp [listed] at taken
  | some files =>
    simp only [listed, Option.map_some, Option.some.injEq] at taken
    refine ⟨files, rfl, ?_⟩
    have converted := each.get inPolls inside
    have same : (c.tests files).filter (fun file => c.testName directory file ∉ [] ∧
        ∀ earlier ∈ (listings.map c.tests).take k, c.testName directory file ∉ earlier.map (c.testName directory)) =
        files.filter fun file => c.isTest file.name ∧ ∀ earlier ∈ listings.take k, ∀ other ∈ earlier,
          c.isTest other.name = true → c.testName directory other ≠ c.testName directory file := by
      rw [tests, List.filter_filter]
      refine List.filter_congr fun file _ => ?_
      simp only [unshown_iff, List.not_mem_nil, not_false_eq_true, true_and, Bool.decide_and, Bool.decide_eq_true]
      rw [Bool.and_comm]
    rw [List.get_eq_getElem, List.get_eq_getElem, taken, same] at converted
    exact converted

theorem names_of_poll (base : c.getTestName = basename) {listings : List (List File)} {batches : List (List TestVector)}
    (polled : c.poll directory [] listings = .ok batches) :
    names batches.flatten = (polls File.name [] (listings.map c.tests)).flatten.map File.name := by
  have key : c.testName directory = File.name := by
    funext file
    rw [testName, base, basename_path]
  rw [names_of_converted (List.rel_flatten (poll_ok polled)), key]

theorem poll_names_nodup (base : c.getTestName = basename) {listings : List (List File)} {batches : List (List TestVector)}
    (distinct : ∀ files ∈ listings, (files.map File.name).Nodup) (polled : c.poll directory [] listings = .ok batches) :
    (names batches.flatten).Nodup := by
  rw [names_of_poll base polled]
  refine nodup_keys fun listing member => ?_
  obtain ⟨files, listed, rfl⟩ := List.mem_map.mp member
  exact (List.filter_sublist.map File.name).nodup (distinct files listed)

/-- The first file grows, but it has been read. -/
def twoPolls : List (List File) := [[firstFile], [secondFile, { firstFile with content := encode "77".toList }]]

theorem twoPolls_returns : ∃ files, twoPolls[1]? = some files ∧
    List.Forall₂ (fun file tv => afl.fromFile "queue".toList file = .ok tv)
      (files.filter fun file => afl.isTest file.name ∧ ∀ earlier ∈ twoPolls.take 1, ∀ other ∈ earlier,
        afl.isTest other.name = true → afl.testName "queue".toList other ≠ afl.testName "queue".toList file)
      [Afl.getTestVector ⟨secondFile.name, path "queue".toList secondFile, secondFile.content⟩] :=
  @poll_returns _ afl "queue".toList twoPolls
    [[Afl.getTestVector ⟨firstFile.name, path "queue".toList firstFile, firstFile.content⟩],
      [Afl.getTestVector ⟨secondFile.name, path "queue".toList secondFile, secondFile.content⟩]] (by decide) 1 _ rfl

/-- Of two files that agree up to their first dot, the later one is no test of its own. -/
example : (klee Ktest.quoted).getTestName "tests/test.1.ktest".toList =
    (klee Ktest.quoted).getTestName "tests/test.2.ktest".toList := by decide

/-- Where the name of a test is the name of its file: every test that is ever there is returned by one poll, the
first that meets it, and by no other. -/
theorem poll_returns_once (base : c.getTestName = basename) {listings : List (List File)} {batches : List (List TestVector)}
    (distinct : ∀ files ∈ listings, (files.map File.name).Nodup) (polled : c.poll directory [] listings = .ok batches) :
    (names batches.flatten).Nodup ∧
      ∀ n, n ∈ names batches.flatten ↔ ∃ files ∈ listings, ∃ file ∈ files, c.isTest file.name = true ∧ file.name = n := by
  refine ⟨poll_names_nodup base distinct polled, fun n => ?_⟩
  rw [names_of_poll base polled, mem_keys]
  simp [tests, and_assoc]

/-- For the files that are there, a poll is what the processing loop relies on: the unvisited tests, in some order. -/
theorem getTestVectors_perm {files written : List File} {w : World} (exclude : List Str) (listed : files.Perm written)
    (converted : List.Forall₂ (fun file tv => c.fromFile directory file = .ok tv) (c.tests written) w.directory) :
    ∃ batch, c.getTestVectors directory files exclude = .ok batch ∧ batch.Perm (w.unvisited exclude) := by
  have left : List.Forall₂ (fun file tv => c.fromFile directory file = .ok tv)
      (fresh (c.testName directory) exclude (c.tests written)) (w.unvisited exclude) := by
    refine List.rel_filter (fun file tv made => ?_) converted
    simp [name_fromFile made]
  have listed : (fresh (c.testName directory) exclude (c.tests files)).Perm
      (fresh (c.testName directory) exclude (c.tests written)) := (listed.filter _).filter _
  obtain ⟨batch, found, same⟩ := List.perm_comp_forall₂ listed left
  exact ⟨batch, getTestVectors_ok.mpr found, same⟩

/-! ### The XML files -/

/-- The same polls with an `XmlWritingTestConverter` around the converter. -/
def pollWriting (c : FileConverter Content) (directory : Str) : List Str → List (List File) → TestSuiteXml.Files →
    Except Raised (List (List TestVector) × TestSuiteXml.Files)
  | _, [], xmls => .ok ([], xmls)
  | visited, files :: later, xmls => do
    let newTestVectors ← c.getTestVectors directory files visited
    let xmls ← TestSuiteXml.writeAll xmls newTestVectors
    let (rest, xmls) ← pollWriting c directory (visited ∪ names newTestVectors) later xmls
    return (newTestVectors :: rest, xmls)

theorem pollWriting_ok {visited : List Str} {listings : List (List File)} {batches : List (List TestVector)}
    {xmls written : TestSuiteXml.Files} (polled : c.pollWriting directory visited listings xmls = .ok (batches, written)) :
    c.poll directory visited listings = .ok batches ∧ TestSuiteXml.writeAll xmls batches.flatten = .ok written := by
  induction listings generalizing visited batches xmls with
  | nil =>
    obtain ⟨rfl, rfl⟩ := Prod.mk.inj (Except.ok.inj polled)
    exact ⟨rfl, rfl⟩
  | cons files later ih =>
    obtain ⟨batch, found, polled⟩ := bind_ok.mp polled
    obtain ⟨middle, wrote, polled⟩ := bind_ok.mp polled
    obtain ⟨⟨rest, last⟩, behind, same⟩ := bind_ok.mp polled
    obtain ⟨rfl, rfl⟩ := Prod.mk.inj (Except.ok.inj same)
    obtain ⟨polledRest, writtenRest⟩ := ih behind
    refine ⟨bind_ok.mpr ⟨batch, found, bind_ok.mpr ⟨rest, polledRest, rfl⟩⟩, ?_⟩
    rw [List.flatten_cons, TestSuiteXml.writeAll, List.foldlM_append]
    exact bind_ok.mpr ⟨middle, wrote, writtenRest⟩

/-- No document is lost in the polls: every test that is ever there is returned once, it has its own document in the
end, and other files stay as they were. -/
theorem poll_writes_all (base : c.getTestName = basename) {listings : List (List File)} {batches : List (List TestVector)}
    {xmls written : TestSuiteXml.Files} (distinct : ∀ files ∈ listings, (files.map File.name).Nodup)
    (polled : c.pollWriting directory [] listings xmls = .ok (batches, written)) :
    (names batches.flatten).Nodup ∧
      (∀ n, n ∈ names batches.flatten ↔ ∃ files ∈ listings, ∃ file ∈ files, c.isTest file.name = true ∧ file.name = n) ∧
      (∀ tv ∈ batches.flatten, written (TestSuiteXml.outputName tv) = some (TestSuiteXml.testcaseXml tv)) ∧
      ∀ name, (∀ tv ∈ batches.flatten, TestSuiteXml.outputName tv ≠ name) → written name = xmls name := by
  obtain ⟨polled, wrote⟩ := pollWriting_ok polled
  obtain ⟨once, all⟩ := poll_returns_once base distinct polled
  obtain ⟨written', same, documents, frame⟩ := TestSuiteXml.writeAll_distinct once xmls
  obtain rfl := Except.ok.inj (wrote.symm.trans same)
  exact ⟨once, all, documents, frame⟩

theorem twoPolls_writes_all : ∃ batches written, afl.pollWriting "queue".toList [] twoPolls (fun _ => none) = .ok (batches, written) ∧
    (names batches.flatten).Nodup ∧
      ∀ tv ∈ batches.flatten, written (TestSuiteXml.outputName tv) = some (TestSuiteXml.testcaseXml tv) := by
  have polled : (afl.pollWriting "queue".toList [] twoPolls (fun _ => none)).isOk = true := by decide
  cases made : afl.pollWriting "queue".toList [] twoPolls (fun _ => none) with
  | error e =>
    rw [made] at polled
    cases polled
  | ok result =>
    obtain ⟨once, -, documents, -⟩ := @poll_writes_all _ afl "queue".toList rfl twoPolls _ _ _ (by decide) made
    exact ⟨_, _, rfl, once, documents⟩

end FileConverter

/-! ### The processing loop on a directory -/

section
variable {Content : Type}

structure State where
  files : List File
  generator : Generator
  stopped : Bool
  loop : Loop

/-- The file with what is in it from now on, whether it is a new one or not. -/
def put (files : List File) (file : File) : List File :=
  if files.any fun old => old.name = file.name then files.map fun old => if old.name = file.name then file else old
  else files ++ [file]

/-- A file can be written to many times. A poll lists the files in the order of the glob. -/
inductive Label where
  | write (file : File)
  | finish (success : Bool)
  | fail (e : Raised)
  | stop
  | tau
  | poll (listing : List File)
  | execute (answer : Except Raised (List Status))

variable (c : FileConverter Content) (directory : Str) (config : ProcessingConfig) (result : TestVector → List Status)

/-- The tests that the files stand for. -/
def State.world (s : State) : World where
  directory := (c.tests s.files).filterMap fun file => (c.fromFile directory file).toOption
  generator := s.generator
  stopped := s.stopped

def State.move (s : State) (m : Move) : Option State :=
  (s.loop.step config true (s.world c directory) m).map fun loop => { s with loop }

def step (s : State) : Label → Option State
  | .write file => if s.generator = .running then some { s with files := put s.files file } else none
  | .finish success => if s.generator = .running then some { s with generator := .returned success } else none
  | .fail e => if s.generator = .running then some { s with generator := .raised e } else none
  | .stop => some { s with stopped := true }
  | .tau => s.move c directory config .tau
  | .poll listing =>
    if listing.isPerm s.files then s.move c directory config (.poll (c.getTestVectors directory listing s.loop.visited))
    else none
  | .execute answer => s.move c directory config (.execute answer)

def start : State := ⟨[], .running, false, Loop.start⟩

/-- No two test files have one test name, and none is written to once a poll has returned its test; at every poll and
when the generation ends each of them can be read. The stop event stays unset, and the validator's answer is a function
of the test. -/
def Contract (s : State) : Label → Prop
  | .write file => c.isTest file.name = true →
      (∀ other ∈ c.tests s.files, c.testName directory other = c.testName directory file → other.name = file.name) ∧
        c.testName directory file ∉ names (s.loop.tests ++ s.loop.point.rest)
  | .finish _ => ∀ file ∈ c.tests s.files, (c.fromFile directory file).toOption.isSome = true
  | .fail _ => ∀ file ∈ c.tests s.files, (c.fromFile directory file).toOption.isSome = true
  | .stop => False
  | .tau => True
  | .poll _ => ∀ file ∈ c.tests s.files, (c.fromFile directory file).toOption.isSome = true
  | .execute (.ok answer) => s.loop.point.rest.head?.map result = some answer
  | .execute (.error _) => False

instance (s : State) : ∀ l, Decidable (Contract c directory result s l)
  | .write file => inferInstanceAs (Decidable (c.isTest file.name = true →
      (∀ other ∈ c.tests s.files, c.testName directory other = c.testName directory file → other.name = file.name) ∧
        c.testName directory file ∉ names (s.loop.tests ++ s.loop.point.rest)))
  | .finish _ => inferInstanceAs (Decidable (∀ file ∈ c.tests s.files, (c.fromFile directory file).toOption.isSome = true))
  | .fail _ => inferInstanceAs (Decidable (∀ file ∈ c.tests s.files, (c.fromFile directory file).toOption.isSome = true))
  | .stop => .isFalse id
  | .tau => .isTrue trivial
  | .poll _ => inferInstanceAs (Decidable (∀ file ∈ c.tests s.files, (c.fromFile directory file).toOption.isSome = true))
  | .execute (.ok answer) => inferInstanceAs (Decidable (s.loop.point.rest.head?.map result = some answer))
  | .execute (.error _) => .isFalse id

variable {c directory config result} {s t : State}

theorem toOption_eq_some {tv : TestVector} {converted : Except Raised TestVector} :
    converted.toOption = some tv ↔ converted = .ok tv := by
  cases converted <;> simp [Except.toOption]

theorem converted_of_readable {files : List File} (readable : ∀ file ∈ files, (c.fromFile directory file).toOption.isSome = true) :
    List.Forall₂ (fun file tv => c.fromFile directory file = .ok tv) files
      (files.filterMap fun file => (c.fromFile directory file).toOption) := by
  induction files with
  | nil => exact .nil
  | cons file files ih =>
    obtain ⟨here, later⟩ := List.forall_mem_cons.mp readable
    obtain ⟨tv, made⟩ := Option.isSome_iff_exists.mp here
    rw [List.filterMap_cons, made]
    exact .cons (toOption_eq_some.mp made) (ih later)

/-- The tests that can be read have the names of their files. -/
theorem names_sublist (files : List File) :
    (names (files.filterMap fun file => (c.fromFile directory file).toOption)).Sublist (files.map (c.testName directory)) := by
  induction files with
  | nil => exact .slnil
  | cons file files ih =>
    rw [List.filterMap_cons, List.map_cons]
    cases made : c.fromFile directory file with
    | error e => exact ih.cons _
    | ok tv =>
      have same := FileConverter.name_fromFile made
      rw [← same]
      exact ih.cons_cons _

/-! ### Files that are written to -/

theorem mem_put {files : List File} {file old : File} (inside : old ∈ files) (other : old.name ≠ file.name) :
    old ∈ put files file := by
  unfold put
  split
  · exact List.mem_map.mpr ⟨old, inside, if_neg other⟩
  · exact List.mem_append_left _ inside

theorem isTest_put (file : File) :
    ((fun file => c.isTest file.name) ∘ fun old : File => if old.name = file.name then file else old) =
      fun old => c.isTest old.name := by
  funext old
  rw [Function.comp_apply]
  split
  · rename_i same
    rw [same]
  · rfl

theorem tests_put_test {files : List File} {file : File} (test : c.isTest file.name = true) :
    c.tests (put files file) = put (c.tests files) file := by
  have found : ((c.tests files).any fun old => old.name = file.name) = files.any fun old => old.name = file.name := by
    rw [FileConverter.tests, List.any_filter]
    refine List.any_congr rfl fun old => ?_
    by_cases same : old.name = file.name
    · simp [same, test]
    · simp [same]
  unfold put
  rw [found]
  split
  · rw [FileConverter.tests, List.filter_map, FileConverter.tests, isTest_put]
  · simp [FileConverter.tests, test]

theorem tests_put_other {files : List File} {file : File} (other : c.isTest file.name = false) :
    c.tests (put files file) = c.tests files := by
  unfold put
  split
  · rw [FileConverter.tests, List.filter_map, FileConverter.tests, isTest_put]
    refine (List.map_congr_left fun old member => if_neg fun same => ?_).trans (List.map_id _)
    have test := (List.mem_filter.mp member).2
    simp [same, other] at test
  · simp [FileConverter.tests, other]

theorem testName_congr {file old : File} (same : old.name = file.name) : c.testName directory old = c.testName directory file := by
  rw [FileConverter.testName, FileConverter.testName, path, path, same]

/-- A file keeps its name when it is written to, and a new one has a name of its own. -/
theorem nodup_put {files : List File} {file : File} (distinct : (files.map (c.testName directory)).Nodup)
    (own : ∀ other ∈ files, c.testName directory other = c.testName directory file → other.name = file.name) :
    ((put files file).map (c.testName directory)).Nodup := by
  unfold put
  split
  · rw [List.map_map]
    refine (List.map_congr_left fun old _ => ?_) ▸ distinct
    rw [Function.comp_apply]
    split
    · rename_i same
      exact testName_congr same
    · rfl
  · rename_i absent
    rw [List.map_append]
    refine distinct.append (List.nodup_singleton _) fun n before now => absent ?_
    obtain rfl := List.mem_singleton.mp now
    obtain ⟨old, inside, same⟩ := List.mem_map.mp before
    exact List.any_eq_true.mpr ⟨old, inside, decide_eq_true (own old inside same)⟩

/-! ### The loop follows -/

theorem mem_world {tv : TestVector} : tv ∈ (s.world c directory).directory ↔
    ∃ file ∈ c.tests s.files, c.fromFile directory file = .ok tv := by
  simp [State.world, toOption_eq_some]

/-- The abstract loop, which is told of tests and not of files. -/
def State.parallel (c : FileConverter Content) (directory : Str) (s : State) : Parallel.State := ⟨s.world c directory, s.loop⟩

structure Follows (c : FileConverter Content) (directory : Str) (config : ProcessingConfig)
    (result : TestVector → List Status) (s : State) : Prop where
  inv : Parallel.Inv config result (s.parallel c directory)
  distinct : ((c.tests s.files).map (c.testName directory)).Nodup
  readable : s.generator ≠ .running → ∀ file ∈ c.tests s.files, (c.fromFile directory file).toOption.isSome = true

theorem follows_start : Follows c directory config result start where
  inv := Parallel.inv_start (by simp [names, FileConverter.tests, start])
  distinct := by simp [start, FileConverter.tests]
  readable := by simp [start]

theorem follows_move {m : Move} (follows : Follows c directory config result s)
    (contract : Parallel.Contract result (s.parallel c directory) (.move m)) (taken : s.move c directory config m = some t) :
    Follows c directory config result t := by
  obtain ⟨loop, moved, rfl⟩ := Option.map_eq_some_iff.mp taken
  exact ⟨Parallel.inv_move follows.inv contract moved, follows.distinct, follows.readable⟩

/-- The generation ends: nothing is written any more. -/
theorem follows_end {o : Outside} {w : World} {generator : Generator} (follows : Follows c directory config result s)
    (contract : Parallel.Contract result (s.parallel c directory) (.outside o))
    (taken : (s.world c directory).step o = some w) (same : { s.world c directory with generator } = w)
    (readable : ∀ file ∈ c.tests s.files, (c.fromFile directory file).toOption.isSome = true) :
    Follows c directory config result { s with generator } := by
  refine ⟨?_, follows.distinct, fun _ => readable⟩
  have inv := Parallel.inv_outside follows.inv contract taken
  rw [← same] at inv
  exact inv

/-- What a poll has returned is not written to, and so it stays in the directory. -/
theorem present_put {file : File} (follows : Follows c directory config result s) (test : c.isTest file.name = true)
    (unreturned : c.testName directory file ∉ names (s.loop.tests ++ s.loop.point.rest)) {tv : TestVector}
    (taken : tv ∈ s.loop.tests ++ s.loop.point.rest) :
    tv ∈ (c.tests (put s.files file)).filterMap fun file => (c.fromFile directory file).toOption := by
  obtain ⟨old, inside, made⟩ := mem_world.mp (follows.inv.sound.present tv taken)
  have other : old.name ≠ file.name := by
    intro same
    rw [← testName_congr same, ← FileConverter.name_fromFile made] at unreturned
    exact unreturned (List.mem_map_of_mem taken)
  rw [tests_put_test test]
  exact List.mem_filterMap.mpr ⟨old, mem_put inside other, toOption_eq_some.mpr made⟩

theorem follows_write {file : File} (contract : Contract c directory result s (.write file))
    (follows : Follows c directory config result s) (running : s.generator = .running) :
    Follows c directory config result { s with files := put s.files file } := by
  cases test : c.isTest file.name with
  | true =>
    obtain ⟨own, unreturned⟩ := contract test
    have distinct : ((c.tests (put s.files file)).map (c.testName directory)).Nodup := by
      rw [tests_put_test test]
      exact nodup_put follows.distinct own
    refine ⟨?_, distinct, fun ended => absurd running ended⟩
    exact Parallel.inv_rewrite follows.inv running ((names_sublist _).nodup distinct) fun tv taken =>
      present_put follows test unreturned taken
  | false =>
    have same : c.tests (put s.files file) = c.tests s.files := tests_put_other test
    refine ⟨?_, by rw [same]; exact follows.distinct, fun ended => absurd running ended⟩
    have inv := follows.inv
    unfold State.parallel State.world at inv ⊢
    rw [same]
    exact inv

/-- Every step on the directory is a step of the abstract loop that keeps its contract, or leaves it alone. -/
theorem follows_step {l : Label} (contract : Contract c directory result s l) (follows : Follows c directory config result s)
    (taken : step c directory config s l = some t) : Follows c directory config result t := by
  cases l with
  | write file =>
    simp only [step, Option.ite_none_right_eq_some, Option.some.injEq] at taken
    obtain ⟨running, rfl⟩ := taken
    exact follows_write contract follows running
  | finish success =>
    simp only [step, Option.ite_none_right_eq_some, Option.some.injEq] at taken
    obtain ⟨running, rfl⟩ := taken
    exact @follows_end _ c directory config result s (.finish success) _ _ follows trivial (if_pos running) rfl contract
  | fail e =>
    simp only [step, Option.ite_none_right_eq_some, Option.some.injEq] at taken
    obtain ⟨running, rfl⟩ := taken
    exact @follows_end _ c directory config result s (.fail e) _ _ follows trivial (if_pos running) rfl contract
  | stop => exact contract.elim
  | tau => exact @follows_move _ c directory config result s t .tau follows trivial taken
  | poll listing =>
    simp only [step, Option.ite_none_right_eq_some] at taken
    obtain ⟨listed, taken⟩ := taken
    have converted : List.Forall₂ (fun file tv => c.fromFile directory file = .ok tv) (c.tests s.files)
        (s.world c directory).directory := converted_of_readable contract
    obtain ⟨batch, found, same⟩ :=
      FileConverter.getTestVectors_perm s.loop.visited (List.isPerm_iff.mp listed) converted
    rw [found] at taken
    exact @follows_move _ c directory config result s t (.poll (.ok batch)) follows same taken
  | execute answer =>
    cases answer with
    | ok answer => exact @follows_move _ c directory config result s t (.execute (.ok answer)) follows contract taken
    | error e => exact contract.elim

theorem follows_run {schedule : List Label}
    (contract : Transition.Along (step c directory config) (Contract c directory result) start schedule)
    (reached : Transition.run (step c directory config) start schedule = some s) : Follows c directory config result s :=
  Transition.run_invariant (Follows c directory config result) (fun _ _ _ contract follows taken =>
    follows_step contract follows taken) contract follows_start reached

theorem Follows.false_iff {v : Verdict} (follows : Follows c directory config result s)
    (returned : s.loop.point = .returned v) :
    v.verdict = .FALSE ↔ ∃ file ∈ c.tests s.files, ∃ tv, c.fromFile directory file = .ok tv ∧ .FALSE ∈ result tv := by
  rw [Parallel.returned_false_iff follows.inv returned]
  constructor
  · rintro ⟨tv, member, found⟩
    obtain ⟨file, inside, made⟩ := mem_world.mp member
    exact ⟨file, inside, tv, made, found⟩
  · rintro ⟨file, inside, tv, made, found⟩
    exact ⟨tv, mem_world.mpr ⟨file, inside, made⟩, found⟩

/-- Whatever is written when, and in whatever order the polls list it: each test that runs is that of a file as it is in
the end, and no file runs twice. The verdict is `FALSE` if and only if the test of some file reaches the error, and unless the
loop is to stop at a success, all of them have run. -/
theorem loop_on_directory {schedule : List Label}
    (contract : Transition.Along (step c directory config) (Contract c directory result) start schedule)
    (reached : Transition.run (step c directory config) start schedule = some s) :
    (names s.loop.tests).Nodup ∧
      (∀ tv ∈ s.loop.tests, ∃ file ∈ c.tests s.files, c.fromFile directory file = .ok tv) ∧
      ∀ v, s.loop.point = .returned v →
        (v.verdict = .FALSE ↔ ∃ file ∈ c.tests s.files, ∃ tv, c.fromFile directory file = .ok tv ∧ .FALSE ∈ result tv) ∧
        (config.stopAfterSuccess = false → ∀ file ∈ c.tests s.files, ∃ tv ∈ s.loop.tests, c.fromFile directory file = .ok tv) := by
  have follows := follows_run contract reached
  have inv := follows.inv
  have once := inv.sound.once
  rw [names_append] at once
  refine ⟨once.of_append_left, fun tv ran => mem_world.mp (Parallel.tests_present inv tv ran), fun v returned => ?_⟩
  refine ⟨follows.false_iff returned, fun all file inside => ?_⟩
  have ended : s.generator ≠ .running := by
    intro running
    have early := (Parallel.early_of_running inv running returned).1
    simp [all] at early
  obtain ⟨tv, made⟩ := Option.isSome_iff_exists.mp (follows.readable ended file inside)
  have member : tv ∈ (s.world c directory).directory := mem_world.mpr ⟨file, inside, toOption_eq_some.mp made⟩
  exact ⟨tv, (Parallel.tests_perm inv returned (Or.inl all)).mem_iff.mpr member, toOption_eq_some.mp made⟩

end

/-- The first test is a file with nothing in it at first. What else AFL writes is no test, and the second test comes when
the first one has run. -/
def twoFiles : List Label :=
  [.write { firstFile with content := [] }, .write firstFile, .tau, .tau, .poll [firstFile], .write ⟨"fuzzer_stats".toList, by decide, []⟩, .execute (.ok [.UNKNOWN]),
    .tau, .write secondFile, .finish true, .tau, .tau, .poll [secondFile, ⟨"fuzzer_stats".toList, by decide, []⟩, firstFile],
    .execute (.ok [.FALSE]), .tau]

def reaches (test : TestVector) : List Status := if test.name = secondFile.name then [.FALSE] else [.UNKNOWN]

theorem twoFiles_loop : ∃ s v, Transition.run (step afl "queue".toList ⟨false, false⟩) start twoFiles = some s ∧
    s.loop.point = .returned v ∧ (names s.loop.tests).Nodup ∧
      ∀ file ∈ afl.tests s.files, ∃ tv ∈ s.loop.tests, afl.fromFile "queue".toList file = .ok tv := by
  have finished : (Transition.run (step afl "queue".toList ⟨false, false⟩) start twoFiles).any (fun s =>
      s.loop.point = .returned (decideFinalVerdict ⟨false, false⟩ s.loop.verdicts)) = true := by decide
  obtain ⟨s, ran, returned⟩ := (Option.any_eq_true _ _).mp finished
  have returned := of_decide_eq_true returned
  obtain ⟨once, -, all⟩ := @loop_on_directory _ afl "queue".toList ⟨false, false⟩ reaches _ twoFiles (by decide) ran
  exact ⟨s, _, ran, returned, once, (all _ returned).2 rfl⟩

end Tbf.TestDirectory
