import Tbf.Library.Directory
import Tbf.Tools.PrtestGenerator

/-!
# Test files of PRTest, written and read at the same time

The generator writes each test to `tmp_vector` and gives it its name when it is closed; the converter polls
the directory meanwhile. Each step of either side may stand between any two of the other.
-/

namespace Tbf.RandomTester
open Text

abbrev Store := Directory Str Char

/-- The names of `glob.glob(directory + '/vector[0-9]*.test')`. -/
def isVectorFile (name : Str) : Bool :=
  "vector".toList.isPrefixOf name && (name[6]?).any Char.isDigit && ".test".toList.isSuffixOf (name.drop 7)

def tmpVector : Str := "tmp_vector".toList

theorem isVectorFile_vectorName (k : Nat) : isVectorFile (vectorName k) = true := by
  obtain ⟨digit, digits, split⟩ := List.exists_cons_of_ne_nil (Numeral.decimal_ne_nil k)
  have isDigit : digit.isDigit = true := Numeral.isDigit_of_mem_decimal (split ▸ List.mem_cons_self)
  have name : vectorName k = 'v' :: 'e' :: 'c' :: 't' :: 'o' :: 'r' :: digit :: (digits ++ ".test".toList) := by
    delta vectorName
    rw [split]
    rfl
  have rear : ".test".toList.isSuffixOf (digits ++ ".test".toList) = true :=
    List.isSuffixOf_iff_suffix.mpr (List.suffix_append _ _)
  simp only [isVectorFile, name, List.drop_succ_cons, List.drop_zero, rear, Bool.and_true]
  exact Bool.and_eq_true_iff.mpr ⟨by simp, isDigit⟩

theorem vectorName_injective : Function.Injective vectorName := by
  intro k l same
  delta vectorName at same
  exact Numeral.decimal_injective (List.append_cancel_left (List.append_cancel_right same))

/-! ### The two sides -/

/-- Where `write_test` stands; `printing` has the open file, what `stdio` still keeps of the lines printed,
and the lines that are left. -/
inductive WriterPoint where
  | ready
  | printing (file : Nat) (buffer : Str) (left : List Str)
  | closed
  | renamed
  | killed

structure Writer where
  store : Store
  point : WriterPoint
  testRuns : Nat

inductive WriterMove where
  | create (calls : List InputCall)
  | print
  | flush (count : Nat)
  | close
  | rename
  | count
  | kill

def Writer.step (w : Writer) : WriterMove → Option Writer
  | .create calls =>
    match w.point with
    | .ready =>
      let (store, file) := w.store.openWrite tmpVector
      some { w with store, point := .printing file [] (calls.map InputCall.row) }
    | _ => none
  | .print =>
    match w.point with
    | .printing file buffer (line :: left) => some { w with point := .printing file (buffer ++ line ++ ['\n']) left }
    | _ => none
  | .flush count =>
    match w.point with
    | .printing file buffer left =>
      some { w with store := w.store.append file (buffer.take count), point := .printing file (buffer.drop count) left }
    | _ => none
  | .close =>
    match w.point with
    | .printing file buffer [] => some { w with store := w.store.append file buffer, point := .closed }
    | _ => none
  | .rename =>
    match w.point with
    | .closed => some { w with store := w.store.rename tmpVector (vectorName w.testRuns), point := .renamed }
    | _ => none
  | .count =>
    match w.point with
    | .renamed => some { w with testRuns := w.testRuns + 1, point := .ready }
    | _ => none
  | .kill => some { w with point := .killed }

/-- Where `_get_test_cases_in_dir` stands; `scanning` has the names that were there when the glob began. -/
inductive ReaderPoint where
  | idle
  | scanning (seen : List Str)
  | reading (todo : List Str) (tcs : List (TestCase Str))
  | file (name : Str) (file : Nat) (text : Str) (todo : List Str) (tcs : List (TestCase Str))
  | failed (e : Raised)

/-- `returned` holds the test cases of all polls so far. -/
structure Reader where
  point : ReaderPoint
  returned : List (TestCase Str)

/-- `found` is what the glob answers: each name at most once, all that were there from its beginning on, and
none that is not there at its end. -/
inductive ReaderMove where
  | glob
  | listed (found : List Str)
  | open
  | read (count : Nat)
  | deliver

def caseNames (tcs : List (TestCase Str)) : List Str := tcs.map TestCase.name

def Reader.step (directory : Str) (store : Store) (r : Reader) : ReaderMove → Option Reader
  | .glob =>
    match r.point with
    | .idle => some { r with point := .scanning (store.names.filter isVectorFile) }
    | _ => none
  | .listed found =>
    match r.point with
    | .scanning seen =>
      if found.Nodup ∧ seen ⊆ found ∧ found ⊆ store.names.filter isVectorFile then
        some { r with point := .reading (found.filter fun name => !(caseNames r.returned).contains name) [] }
      else none
    | _ => none
  | .open =>
    match r.point with
    | .reading (name :: todo) tcs =>
      match store.lookup name with
      | some file => some { r with point := .file name file [] todo tcs }
      | none => some { r with point := .failed .fileNotFoundError }
    | _ => none
  | .read count =>
    match r.point with
    | .file name file text todo tcs =>
      if count = 0 then none
      else
        let chunk := ((store.contents file).drop text.length).take count
        if chunk = [] then
          some { r with point := .reading todo (tcs ++ [⟨name, directory ++ '/' :: name, universalNewlines text⟩]) }
        else some { r with point := .file name file (text ++ chunk) todo tcs }
    | _ => none
  | .deliver =>
    match r.point with
    | .reading [] tcs => some { r with point := .idle, returned := r.returned ++ tcs }
    | _ => none

structure Exchange where
  writer : Writer
  reader : Reader

inductive Move where
  | writer (m : WriterMove)
  | reader (m : ReaderMove)

def Exchange.start (store : Store) : Exchange := ⟨⟨store, .ready, 0⟩, ⟨.idle, []⟩⟩

def Exchange.step (directory : Str) (x : Exchange) : Move → Option Exchange
  | .writer m => (x.writer.step m).map fun writer => { x with writer }
  | .reader m => (x.reader.step directory x.writer.store m).map fun reader => { x with reader }

/-- The lines of the test under way, and of all tests renamed so far. -/
structure Issued where
  current : List Str
  tests : List (List Str)

def Issued.observe (i : Issued) : Move → Issued
  | .writer (.create calls) => { i with current := calls.map InputCall.row }
  | .writer .rename => { i with tests := i.tests ++ [i.current] }
  | _ => i

/-- The lines of each test that a schedule renames. -/
def renamedTests (schedule : List Move) : List (List Str) := (schedule.foldl Issued.observe ⟨[], []⟩).tests

/-! ### Published files -/

/-- The vector files are the tests, each complete, and `tmp_vector` is none of them. -/
structure Published (store : Store) (tests : List (List Str)) : Prop where
  files : ∀ k lines, tests[k]? = some lines →
    ∃ file, store.Binds (vectorName k) file ∧ store.contents file = testText lines
  names : ∀ name file, store.Binds name file → isVectorFile name = true → ∃ k < tests.length, name = vectorName k
  apart : ∀ name file, store.Binds tmpVector file → store.Binds name file → isVectorFile name = false

/-- The vector files of a store stay in place, with their contents. -/
def Keeps (store next : Store) : Prop :=
  ∀ name file, isVectorFile name = true → store.Binds name file →
    next.Binds name file ∧ next.contents file = store.contents file

theorem ne_tmpVector {name : Str} (vector : isVectorFile name = true) : name ≠ tmpVector := by
  rintro rfl
  revert vector
  decide

namespace Published
variable {store next : Store} {tests : List (List Str)}

theorem content (p : Published store tests) {name : Str} {file : Nat} (bound : store.Binds name file)
    (vector : isVectorFile name = true) :
    ∃ k lines, tests[k]? = some lines ∧ name = vectorName k ∧ store.contents file = testText lines := by
  obtain ⟨k, inside, rfl⟩ := p.names name file bound vector
  have here : tests[k]? = some tests[k] := List.getElem?_eq_getElem inside
  obtain ⟨other, again, content⟩ := p.files k _ here
  exact ⟨k, _, here, rfl, bound.unique again ▸ content⟩

theorem of_keeps (p : Published store tests) (keeps : Keeps store next)
    (names : ∀ name file, next.Binds name file → isVectorFile name = true → store.Binds name file)
    (apart : ∀ name file, next.Binds tmpVector file → next.Binds name file → isVectorFile name = false) :
    Published next tests where
  files k lines here := by
    obtain ⟨file, bound, content⟩ := p.files k lines here
    obtain ⟨again, same⟩ := keeps _ file (isVectorFile_vectorName k) bound
    exact ⟨file, again, same.trans content⟩
  names name file bound vector := p.names name file (names name file bound vector) vector
  apart := apart

theorem opened_apart (p : Published store tests) {name : Str} {file : Nat} (bound : store.Binds name file)
    (vector : isVectorFile name = true) : file ≠ (store.openWrite tmpVector).2 := by
  rcases Directory.openWrite_file (d := store) tmpVector with fresh | old
  · have below := bound.lt_fresh
    omega
  · intro same
    have hidden := p.apart name _ old (same ▸ bound)
    rw [vector] at hidden
    cases hidden

theorem openWrite_keeps (p : Published store tests) : Keeps store (store.openWrite tmpVector).1 := by
  intro name file vector bound
  refine ⟨?_, Directory.contents_openWrite_other (p.opened_apart bound vector)⟩
  rw [Directory.binds_openWrite, if_neg (ne_tmpVector vector)]
  exact bound

theorem openWrite (p : Published store tests) : Published (store.openWrite tmpVector).1 tests := by
  refine p.of_keeps p.openWrite_keeps ?_ ?_
  · intro name file bound vector
    rwa [Directory.binds_openWrite, if_neg (ne_tmpVector vector)] at bound
  · intro name file temporary bound
    by_contra vector
    have vector : isVectorFile name = true := by simpa using vector
    rw [Directory.binds_openWrite, if_pos rfl] at temporary
    rw [Directory.binds_openWrite, if_neg (ne_tmpVector vector)] at bound
    exact p.opened_apart bound vector temporary

theorem append_keeps (p : Published store tests) {file : Nat} (temporary : store.Binds tmpVector file) (text : Str) :
    Keeps store (store.append file text) := by
  intro name other vector bound
  have different : other ≠ file := by
    rintro rfl
    have hidden := p.apart name _ temporary bound
    rw [vector] at hidden
    cases hidden
  refine ⟨bound, ?_⟩
  rw [Directory.contents_append, if_neg different]

theorem append (p : Published store tests) {file : Nat} (temporary : store.Binds tmpVector file) (text : Str) :
    Published (store.append file text) tests :=
  p.of_keeps (p.append_keeps temporary text) (fun _ _ bound _ => bound) p.apart

theorem rename_keeps (p : Published store tests) {file : Nat} (temporary : store.Binds tmpVector file) :
    Keeps store (store.rename tmpVector (vectorName tests.length)) := by
  intro name other vector bound
  obtain ⟨k, inside, rfl⟩ := p.names name other bound vector
  have different : vectorName k ≠ vectorName tests.length := by
    intro same
    have same := vectorName_injective same
    omega
  rw [Directory.binds_rename temporary, if_neg different, Directory.contents_rename]
  exact ⟨⟨ne_tmpVector vector, bound⟩, rfl⟩

theorem rename (p : Published store tests) {file : Nat} (temporary : store.Binds tmpVector file) {lines : List Str}
    (complete : store.contents file = testText lines) :
    Published (store.rename tmpVector (vectorName tests.length)) (tests ++ [lines]) where
  files k others here := by
    by_cases last : k = tests.length
    · subst last
      rw [List.getElem?_concat_length, Option.some.injEq] at here
      refine ⟨file, ?_, ?_⟩
      · rw [Directory.binds_rename temporary, if_pos rfl]
      · rw [Directory.contents_rename, complete, here]
    · have inside : k < tests.length := by
        have bound := (List.getElem?_eq_some_iff.mp here).1
        rw [List.length_append, List.length_singleton] at bound
        omega
      rw [List.getElem?_append_left inside] at here
      obtain ⟨other, bound, content⟩ := p.files k others here
      obtain ⟨again, same⟩ := p.rename_keeps temporary _ other (isVectorFile_vectorName k) bound
      exact ⟨other, again, same.trans content⟩
  names name other bound vector := by
    rw [List.length_append, List.length_singleton]
    rw [Directory.binds_rename temporary] at bound
    split at bound
    · rename_i same
      exact ⟨tests.length, by omega, same⟩
    · obtain ⟨k, inside, same⟩ := p.names name other bound.2 vector
      exact ⟨k, by omega, same⟩
  apart name other gone _ := by
    have different := ne_tmpVector (isVectorFile_vectorName tests.length)
    rw [Directory.binds_rename temporary, if_neg different.symm] at gone
    exact absurd rfl gone.1

end Published

/-! ### The writer -/

/-- A line that a text file keeps as it is. -/
def Clean (line : Str) : Prop := line ≠ [] ∧ '\n' ∉ line ∧ '\r' ∉ line

theorem clean_row (c : InputCall) : Clean c.row := ⟨c.row_ne_nil, c.row_clean.2⟩

def Writer.At (w : Writer) (i : Issued) : Prop :=
  match w.point with
  | .ready => w.testRuns = i.tests.length
  | .printing file buffer left => w.testRuns = i.tests.length ∧ w.store.Binds tmpVector file ∧
      w.store.contents file ++ buffer ++ testText left = testText i.current
  | .closed => w.testRuns = i.tests.length ∧
      ∃ file, w.store.Binds tmpVector file ∧ w.store.contents file = testText i.current
  | .renamed => w.testRuns + 1 = i.tests.length
  | .killed => True

structure Writer.Sound (w : Writer) (i : Issued) : Prop where
  published : Published w.store i.tests
  current : ∀ line ∈ i.current, Clean line
  tests : ∀ lines ∈ i.tests, ∀ line ∈ lines, Clean line
  here : w.At i

theorem testText_cons (line : Str) (lines : List Str) : testText (line :: lines) = line ++ '\n' :: testText lines := by
  simp [testText]

namespace Writer.Sound
variable {w next : Writer} {i : Issued}

theorem create {calls : List InputCall} (sound : w.Sound i) (taken : w.step (.create calls) = some next) :
    next.Sound (i.observe (.writer (.create calls))) ∧ Keeps w.store next.store := by
  have here := sound.here
  simp only [Writer.step] at taken
  split at taken
  case h_2 => cases taken
  case h_1 ready =>
    rw [Writer.At, ready] at here
    obtain rfl := Option.some.inj taken
    refine ⟨⟨sound.published.openWrite, ?_, sound.tests, here, ?_, ?_⟩, sound.published.openWrite_keeps⟩
    · intro line member
      obtain ⟨c, _, rfl⟩ := List.mem_map.mp member
      exact clean_row c
    · rw [Directory.binds_openWrite, if_pos rfl]
    · change (w.store.openWrite tmpVector).1.contents (w.store.openWrite tmpVector).2 ++ [] ++ _ = _
      rw [Directory.contents_openWrite]
      rfl

theorem print (sound : w.Sound i) (taken : w.step .print = some next) :
    next.Sound i ∧ Keeps w.store next.store := by
  have here := sound.here
  simp only [Writer.step] at taken
  split at taken
  case h_2 => cases taken
  case h_1 file buffer line left printing =>
    rw [Writer.At, printing] at here
    obtain rfl := Option.some.inj taken
    refine ⟨{ sound with here := ⟨here.1, here.2.1, ?_⟩ }, fun _ _ _ bound => ⟨bound, rfl⟩⟩
    rw [← here.2.2, testText_cons]
    simp

theorem flush {count : Nat} (sound : w.Sound i) (taken : w.step (.flush count) = some next) :
    next.Sound i ∧ Keeps w.store next.store := by
  have here := sound.here
  simp only [Writer.step] at taken
  split at taken
  case h_2 => cases taken
  case h_1 file buffer left printing =>
    rw [Writer.At, printing] at here
    obtain ⟨runs, temporary, text⟩ := here
    obtain rfl := Option.some.inj taken
    refine ⟨{ sound with published := sound.published.append temporary _, here := ⟨runs, temporary, ?_⟩ },
      sound.published.append_keeps temporary _⟩
    rw [Directory.contents_append, if_pos rfl, List.append_assoc (w.store.contents file), List.take_append_drop]
    exact text

theorem close (sound : w.Sound i) (taken : w.step .close = some next) :
    next.Sound i ∧ Keeps w.store next.store := by
  have here := sound.here
  simp only [Writer.step] at taken
  split at taken
  case h_2 => cases taken
  case h_1 file buffer printing =>
    rw [Writer.At, printing] at here
    obtain ⟨runs, temporary, text⟩ := here
    obtain rfl := Option.some.inj taken
    refine ⟨{ sound with published := sound.published.append temporary _, here := ⟨runs, file, temporary, ?_⟩ },
      sound.published.append_keeps temporary _⟩
    rw [Directory.contents_append, if_pos rfl, ← text]
    exact (List.append_nil _).symm

theorem rename (sound : w.Sound i) (taken : w.step .rename = some next) :
    next.Sound (i.observe (.writer .rename)) ∧ Keeps w.store next.store := by
  have here := sound.here
  simp only [Writer.step] at taken
  split at taken
  case h_2 => cases taken
  case h_1 closed =>
    rw [Writer.At, closed] at here
    obtain ⟨runs, file, temporary, complete⟩ := here
    obtain rfl := Option.some.inj taken
    rw [runs]
    refine ⟨⟨sound.published.rename temporary complete, sound.current, ?_, ?_⟩, sound.published.rename_keeps temporary⟩
    · intro lines member
      rcases List.mem_append.mp member with member | member
      · exact sound.tests lines member
      · rw [List.mem_singleton.mp member]
        exact sound.current
    · change i.tests.length + 1 = (i.tests ++ [i.current]).length
      rw [List.length_append, List.length_singleton]

theorem count (sound : w.Sound i) (taken : w.step .count = some next) :
    next.Sound i ∧ Keeps w.store next.store := by
  have here := sound.here
  simp only [Writer.step] at taken
  split at taken
  case h_2 => cases taken
  case h_1 renamed =>
    rw [Writer.At, renamed] at here
    obtain rfl := Option.some.inj taken
    exact ⟨{ sound with here := here }, fun _ _ _ bound => ⟨bound, rfl⟩⟩

theorem step {m : WriterMove} (sound : w.Sound i) (taken : w.step m = some next) :
    next.Sound (i.observe (.writer m)) ∧ Keeps w.store next.store := by
  cases m with
  | create calls => exact sound.create taken
  | print => exact sound.print taken
  | flush count => exact sound.flush taken
  | close => exact sound.close taken
  | rename => exact sound.rename taken
  | count => exact sound.count taken
  | kill =>
    obtain rfl := Option.some.inj taken
    exact ⟨{ sound with here := trivial }, fun _ _ _ bound => ⟨bound, rfl⟩⟩

end Writer.Sound

/-! ### The reader -/

/-- The test case has all lines of the test it was written for. -/
def Whole (tests : List (List Str)) (tc : TestCase Str) : Prop :=
  ∃ k lines, tests[k]? = some lines ∧ tc.name = vectorName k ∧ tc.content = testText lines

/-- The names of the poll that are still to be read. -/
def ReaderPoint.pending : ReaderPoint → List Str
  | reading todo _ => todo
  | file name _ _ todo _ => name :: todo
  | _ => []

/-- The test cases that the poll has read. -/
def ReaderPoint.cases : ReaderPoint → List (TestCase Str)
  | reading _ tcs => tcs
  | file _ _ _ _ tcs => tcs
  | _ => []

namespace Reader

def gathered (r : Reader) : List (TestCase Str) := r.returned ++ r.point.cases

/-- The names that were returned, or that the poll under way is bound to return. -/
def known (r : Reader) : List Str :=
  match r.point with
  | .scanning seen => caseNames r.gathered ++ seen
  | _ => caseNames r.gathered ++ r.point.pending

structure Sound (r : Reader) (store : Store) (tests : List (List Str)) : Prop where
  whole : ∀ tc ∈ r.gathered, Whole tests tc
  distinct : (caseNames r.gathered ++ r.point.pending).Nodup
  present : ∀ name ∈ r.point.pending, isVectorFile name = true ∧ name ∈ store.names
  opened : ∀ name file text todo tcs, r.point = .file name file text todo tcs →
    store.Binds name file ∧ text <+: store.contents file
  alive : ∀ e, r.point ≠ .failed e

theorem Sound.later {r : Reader} {store next : Store} {tests more : List (List Str)} (sound : r.Sound store tests)
    (keeps : Keeps store next) : r.Sound next (tests ++ more) where
  whole tc member := by
    obtain ⟨k, lines, here, named, content⟩ := sound.whole tc member
    exact ⟨k, lines, List.getElem?_append_left (List.getElem?_eq_some_iff.mp here).1 ▸ here, named, content⟩
  distinct := sound.distinct
  present name member := by
    obtain ⟨vector, there⟩ := sound.present name member
    obtain ⟨file, bound⟩ := Directory.mem_names.mp there
    exact ⟨vector, Directory.mem_names.mpr ⟨file, (keeps name file vector bound).1⟩⟩
  opened name file text todo tcs here := by
    obtain ⟨bound, front⟩ := sound.opened name file text todo tcs here
    have vector : isVectorFile name = true :=
      (sound.present name (by rw [here]; exact List.mem_cons_self)).1
    obtain ⟨again, same⟩ := keeps name file vector bound
    exact ⟨again, same ▸ front⟩
  alive := sound.alive

variable {r next : Reader} {store : Store} {tests : List (List Str)} {directory : Str}

/-- A step that neither reads nor forgets: the same names are gathered or pending. -/
theorem Sound.same (sound : r.Sound store tests) (gathered : next.gathered = r.gathered)
    (pending : next.point.pending = r.point.pending)
    (opened : ∀ name file text todo tcs, next.point = .file name file text todo tcs →
      store.Binds name file ∧ text <+: store.contents file)
    (alive : ∀ e, next.point ≠ .failed e) : next.Sound store tests where
  whole := gathered ▸ sound.whole
  distinct := gathered ▸ pending ▸ sound.distinct
  present := pending ▸ sound.present
  opened := opened
  alive := alive

theorem Sound.glob (sound : r.Sound store tests) (published : Published store tests)
    (taken : r.step directory store .glob = some next) :
    next.Sound store tests ∧ r.known ⊆ next.known ∧ ∀ k < tests.length, vectorName k ∈ next.known := by
  simp only [Reader.step] at taken
  split at taken
  case h_2 => cases taken
  case h_1 idle =>
    obtain rfl := Option.some.inj taken
    have gathered : Reader.gathered ⟨.scanning (store.names.filter isVectorFile), r.returned⟩ = r.gathered := by
      simp only [Reader.gathered, idle, ReaderPoint.cases]
    refine ⟨sound.same gathered (by rw [idle]; rfl) nofun nofun, ?_, fun k inside => ?_⟩
    · intro name member
      simp only [Reader.known, idle, ReaderPoint.pending, List.append_nil] at member
      exact List.mem_append_left _ (gathered ▸ member)
    · obtain ⟨file, bound, _⟩ := published.files k _ (List.getElem?_eq_getElem inside)
      apply List.mem_append_right
      exact List.mem_filter.mpr ⟨Directory.mem_names.mpr ⟨file, bound⟩, isVectorFile_vectorName k⟩

theorem Sound.listed {found : List Str} (sound : r.Sound store tests)
    (taken : r.step directory store (.listed found) = some next) :
    next.Sound store tests ∧ r.known ⊆ next.known := by
  simp only [Reader.step] at taken
  split at taken
  case h_2 => cases taken
  case h_1 seen scanning =>
    obtain ⟨⟨nodup, atLeast, atMost⟩, taken⟩ := Option.ite_none_right_eq_some.mp taken
    obtain rfl := Option.some.inj taken
    have before : r.gathered = r.returned := by simp [Reader.gathered, scanning, ReaderPoint.cases]
    have distinct := sound.distinct
    simp only [before, scanning, ReaderPoint.pending, List.append_nil] at distinct
    have new : ∀ name ∈ found.filter fun name => !(caseNames r.returned).contains name,
        name ∈ found ∧ name ∉ caseNames r.returned := by
      intro name member
      simpa using List.mem_filter.mp member
    have after : ∀ todo, Reader.gathered ⟨.reading todo [], r.returned⟩ = r.returned := fun todo =>
      List.append_nil _
    refine ⟨⟨?_, ?_, ?_, nofun, nofun⟩, ?_⟩
    · rw [after, ← before]
      exact sound.whole
    · rw [after]
      refine List.nodup_append.mpr ⟨distinct, nodup.filter _, fun name old other member same => ?_⟩
      exact (new other member).2 (same ▸ old)
    · intro name member
      obtain ⟨there, vector⟩ := List.mem_filter.mp (atMost (new name member).1)
      exact ⟨vector, there⟩
    · intro name member
      simp only [Reader.known, scanning, before] at member
      simp only [Reader.known, after, ReaderPoint.pending]
      by_cases old : name ∈ caseNames r.returned
      · exact List.mem_append_left _ old
      · have there := (List.mem_append.mp member).resolve_left old
        apply List.mem_append_right
        exact List.mem_filter.mpr ⟨atLeast there, by simpa using old⟩

theorem Sound.open (sound : r.Sound store tests) (taken : r.step directory store .open = some next) :
    next.Sound store tests ∧ r.known ⊆ next.known := by
  simp only [Reader.step] at taken
  split at taken
  case h_2 => cases taken
  case h_1 name todo tcs reading =>
    split at taken
    · rename_i file found
      obtain rfl := Option.some.inj taken
      have gathered : Reader.gathered ⟨.file name file [] todo tcs, r.returned⟩ = r.gathered := by
        simp only [Reader.gathered, reading, ReaderPoint.cases]
      have pending : (ReaderPoint.file name file [] todo tcs).pending = r.point.pending := by
        rw [reading]
        rfl
      refine ⟨sound.same gathered pending ?_ nofun, ?_⟩
      · intro _ _ _ _ _ same
        cases same
        exact ⟨Directory.lookup_eq_some.mp found, List.nil_prefix⟩
      · simp only [Reader.known, reading, gathered]
        exact fun _ member => member
    · rename_i missing
      have there := (sound.present name (by rw [reading]; exact List.mem_cons_self)).2
      obtain ⟨file, bound⟩ := Directory.mem_names.mp there
      exact absurd bound (Directory.lookup_eq_none.mp missing file)

theorem return_not_mem_testText {lines : List Str} (clean : ∀ line ∈ lines, Clean line) : '\r' ∉ testText lines := by
  intro member
  obtain ⟨line, inLines, member⟩ := List.mem_flatMap.mp member
  rcases List.mem_append.mp member with member | member
  · exact (clean line inLines).2.2 member
  · revert member
    decide

theorem Sound.read {count : Nat} (sound : r.Sound store tests) (published : Published store tests)
    (clean : ∀ lines ∈ tests, ∀ line ∈ lines, Clean line)
    (taken : r.step directory store (.read count) = some next) :
    next.Sound store tests ∧ r.known ⊆ next.known := by
  simp only [Reader.step] at taken
  split at taken
  case h_2 => cases taken
  case h_1 name file text todo tcs reading =>
    obtain ⟨positive, taken⟩ := Option.ite_none_left_eq_some.mp taken
    obtain ⟨bound, ⟨left, whole⟩⟩ := sound.opened name file text todo tcs reading
    have remains : (store.contents file).drop text.length = left := by rw [← whole, List.drop_left]
    rw [remains] at taken
    have vector : isVectorFile name = true := (sound.present name (by rw [reading]; exact List.mem_cons_self)).1
    split at taken
    · rename_i atEnd
      obtain rfl := Option.some.inj taken
      have nothing : left = [] := (List.take_eq_nil_iff.mp atEnd).resolve_left positive
      rw [nothing, List.append_nil] at whole
      obtain ⟨k, lines, here, named, content⟩ := published.content bound vector
      have plain : '\r' ∉ text := by
        rw [whole, content]
        exact return_not_mem_testText (clean lines (List.mem_of_getElem? here))
      have names : caseNames (r.returned ++ (tcs ++ [⟨name, directory ++ '/' :: name, universalNewlines text⟩])) ++ todo =
          caseNames r.gathered ++ r.point.pending := by
        simp [Reader.gathered, reading, ReaderPoint.cases, ReaderPoint.pending, caseNames]
      refine ⟨⟨?_, ?_, ?_, ?_, fun _ same => (by cases same)⟩, ?_⟩
      · intro tc member
        rcases List.mem_append.mp member with member | member
        · exact sound.whole tc (List.mem_append_left _ member)
        · rcases List.mem_append.mp member with member | member
          · exact sound.whole tc (List.mem_append_right _ (by rwa [reading]))
          · rw [List.mem_singleton.mp member]
            exact ⟨k, lines, here, named, (universalNewlines_eq_self plain).trans (whole.trans content)⟩
      · exact names ▸ sound.distinct
      · intro other member
        exact sound.present other (by rw [reading]; exact List.mem_cons_of_mem _ member)
      · intro _ _ _ _ _ same
        cases same
      · intro other member
        simp only [Reader.known, reading] at member
        rw [reading] at names
        exact (congrArg (other ∈ ·) names).mpr member
    · obtain rfl := Option.some.inj taken
      have gathered : Reader.gathered ⟨.file name file (text ++ left.take count) todo tcs, r.returned⟩ = r.gathered := by
        simp only [Reader.gathered, reading, ReaderPoint.cases]
      refine ⟨sound.same gathered (by rw [reading]; rfl) ?_ (fun _ same => by cases same), ?_⟩
      · intro _ _ _ _ _ same
        cases same
        refine ⟨bound, ?_⟩
        rw [← whole]
        exact List.prefix_append_right_inj text |>.mpr (List.take_prefix _ _)
      · simp only [Reader.known, reading, gathered]
        exact fun _ member => member

theorem Sound.deliver (sound : r.Sound store tests) (taken : r.step directory store .deliver = some next) :
    next.Sound store tests ∧ r.known ⊆ next.known := by
  simp only [Reader.step] at taken
  split at taken
  case h_2 => cases taken
  case h_1 tcs reading =>
    obtain rfl := Option.some.inj taken
    have gathered : Reader.gathered ⟨.idle, r.returned ++ tcs⟩ = r.gathered := by
      simp [Reader.gathered, reading, ReaderPoint.cases]
    refine ⟨sound.same gathered (by rw [reading]; rfl) nofun nofun, ?_⟩
    simp only [Reader.known, reading, gathered]
    exact fun _ member => member

theorem Sound.step {m : ReaderMove} (sound : r.Sound store tests) (published : Published store tests)
    (clean : ∀ lines ∈ tests, ∀ line ∈ lines, Clean line) (taken : r.step directory store m = some next) :
    next.Sound store tests ∧ r.known ⊆ next.known := by
  cases m with
  | glob =>
    obtain ⟨later, known, _⟩ := sound.glob published taken
    exact ⟨later, known⟩
  | listed found => exact sound.listed taken
  | «open» => exact sound.open taken
  | read count => exact sound.read published clean taken
  | deliver => exact sound.deliver taken

end Reader

/-! ### Both together -/

theorem tests_observe (i : Issued) (m : Move) : ∃ more, (i.observe m).tests = i.tests ++ more := by
  unfold Issued.observe
  split
  · exact ⟨[], (List.append_nil _).symm⟩
  · exact ⟨_, rfl⟩
  · exact ⟨[], (List.append_nil _).symm⟩

theorem tests_unchanged {schedule : List Move} (noRename : .writer .rename ∉ schedule) (i : Issued) :
    (schedule.foldl Issued.observe i).tests = i.tests := by
  induction schedule generalizing i with
  | nil => rfl
  | cons m rest ih =>
    obtain ⟨other, later⟩ := not_or.mp (mt List.mem_cons.mpr noRename)
    rw [List.foldl_cons, ih later]
    unfold Issued.observe
    split
    · rfl
    · exact absurd rfl other
    · rfl

namespace Exchange

structure Sound (x : Exchange) (i : Issued) : Prop where
  writer : x.writer.Sound i
  reader : x.reader.Sound x.writer.store i.tests

theorem sound_start {store : Store} (fresh : ∀ name ∈ store.names, isVectorFile name = false) :
    (Exchange.start store).Sound ⟨[], []⟩ where
  writer := {
    published := {
      files := nofun
      names := fun name file bound vector => by
        have hidden := fresh name (Directory.mem_names.mpr ⟨file, bound⟩)
        rw [vector] at hidden
        cases hidden
      apart := fun name file _ bound => fresh name (Directory.mem_names.mpr ⟨file, bound⟩) }
    current := nofun
    tests := nofun
    here := rfl }
  reader := ⟨nofun, List.nodup_nil, nofun, nofun, nofun⟩

theorem Sound.step {x next : Exchange} {i : Issued} {m : Move} {directory : Str} (sound : x.Sound i)
    (taken : x.step directory m = some next) :
    next.Sound (i.observe m) ∧ x.reader.known ⊆ next.reader.known := by
  cases m with
  | writer m =>
    obtain ⟨writer, moved, rfl⟩ := Option.map_eq_some_iff.mp taken
    obtain ⟨later, keeps⟩ := sound.writer.step moved
    obtain ⟨more, tests⟩ := tests_observe i (.writer m)
    exact ⟨⟨later, tests ▸ sound.reader.later keeps⟩, fun _ member => member⟩
  | reader m =>
    obtain ⟨reader, moved, rfl⟩ := Option.map_eq_some_iff.mp taken
    obtain ⟨later, known⟩ := sound.reader.step sound.writer.published sound.writer.tests moved
    exact ⟨⟨sound.writer, later⟩, known⟩

variable {directory : Str} {x next : Exchange} {i : Issued} {schedule : List Move}

theorem Sound.run (sound : x.Sound i) (reached : Transition.run (Exchange.step directory) x schedule = some next) :
    next.Sound (schedule.foldl Issued.observe i) ∧ x.reader.known ⊆ next.reader.known :=
  Transition.run_observed Issued.observe (fun y i => y.Sound i ∧ x.reader.known ⊆ y.reader.known)
    (fun _ _ _ _ before taken =>
      have after := before.1.step taken
      ⟨after.1, List.Subset.trans before.2 after.2⟩)
    ⟨sound, fun _ member => member⟩ reached

/-- What was renamed when a poll began is returned as soon as the reader is idle again. -/
theorem Sound.polled (sound : x.Sound i)
    (reached : Transition.run (Exchange.step directory) x (.reader .glob :: schedule) = some next)
    (idle : next.reader.point = .idle) : ∀ k < i.tests.length, vectorName k ∈ caseNames next.reader.returned := by
  intro k inside
  obtain ⟨middle, first, reached⟩ := Transition.run_cons.mp reached
  obtain ⟨reader, moved, same⟩ := Option.map_eq_some_iff.mp first
  obtain ⟨_, _, seen⟩ := sound.reader.glob sound.writer.published moved
  have scanned : vectorName k ∈ middle.reader.known := same ▸ seen k inside
  have known := ((sound.step first).1.run reached).2 scanned
  simpa [Reader.known, Reader.gathered, idle, ReaderPoint.cases, ReaderPoint.pending] using known

end Exchange

/-- The lines that `get_test_vector` walks over. -/
def testInfo (tc : TestCase Str) : List Str := (tc.content.splitOn '\n').filter (· ≠ [])

theorem testInfo_whole {tc : TestCase Str} {lines : List Str} (clean : ∀ line ∈ lines, Clean line)
    (content : tc.content = testText lines) : testInfo tc = lines := by
  have solid : ∀ line ∈ lines, decide (line ≠ []) = true := fun line member => decide_eq_true (clean line member).1
  rw [testInfo, content, testText, Text.splitOn_flatMap_concat fun line member => (clean line member).2.1,
    List.filter_append, List.filter_eq_self.mpr solid]
  exact List.append_nil _

/-- However the two sides interleave: no file is missing when it is opened, what was returned is whole, no
name was returned twice, and a poll behind the last rename completes the set. -/
theorem exchange_whole (directory : Str) {store : Store} (fresh : ∀ name ∈ store.names, isVectorFile name = false)
    (schedule : List Move) {x : Exchange}
    (reached : Transition.run (Exchange.step directory) (.start store) schedule = some x) :
    (∀ e, x.reader.point ≠ .failed e) ∧
    (∀ tc ∈ x.reader.returned, ∃ k lines, (renamedTests schedule)[k]? = some lines ∧ tc.name = vectorName k ∧
      tc.content = testText lines ∧ testInfo tc = lines) ∧
    (caseNames x.reader.returned).Nodup ∧
    ∀ before after, schedule = before ++ .reader .glob :: after → .writer .rename ∉ after →
      x.reader.point = .idle → ∀ k < (renamedTests schedule).length, vectorName k ∈ caseNames x.reader.returned := by
  have start := Exchange.sound_start fresh
  obtain ⟨sound, _⟩ := start.run reached
  refine ⟨sound.reader.alive, fun tc member => ?_, ?_, ?_⟩
  · obtain ⟨k, lines, here, named, content⟩ := sound.reader.whole tc (List.mem_append_left _ member)
    have clean := sound.writer.tests lines (List.mem_of_getElem? here)
    exact ⟨k, lines, here, named, content, testInfo_whole clean content⟩
  · have distinct := (List.nodup_append.mp sound.reader.distinct).1
    rw [Reader.gathered, caseNames, List.map_append] at distinct
    exact (List.nodup_append.mp distinct).1
  · rintro before after rfl noRename idle k inside
    obtain ⟨middle, reached, later⟩ := Transition.run_append.mp reached
    apply (start.run reached).1.polled later idle
    have same : renamedTests (before ++ .reader .glob :: after) = renamedTests before := by
      rw [renamedTests, List.foldl_append, List.foldl_cons]
      exact tests_unchanged noRename _
    rwa [same] at inside

def emptyStore : Store := ⟨[], fun _ => [], 0, List.nodup_nil, nofun⟩

/-- The first poll begins before the rename and sees the test all the same; the writer is killed, and the
second poll finds nothing more. -/
def pollAround : List Move :=
  [.writer (.create [byteCall 7]), .writer .print, .writer (.flush 3), .reader .glob, .writer .close, .writer .rename,
    .reader (.listed [vectorName 0]), .reader .open, .reader (.read 10), .writer .kill, .reader (.read 100),
    .reader (.read 1), .reader .deliver, .reader .glob, .reader (.listed [vectorName 0]), .reader .deliver]

theorem exchange_pollAround : ∃ x, Transition.run (Exchange.step ['.']) (.start emptyStore) pollAround = some x ∧
    (caseNames x.reader.returned).Nodup ∧ vectorName 0 ∈ caseNames x.reader.returned := by
  obtain ⟨x, reached⟩ : ∃ x, Transition.run (Exchange.step ['.']) (.start emptyStore) pollAround = some x := ⟨_, rfl⟩
  have idle : (Transition.run (Exchange.step ['.']) (.start emptyStore) pollAround).map (·.reader.point) = some .idle := rfl
  rw [reached] at idle
  obtain ⟨_, _, distinct, complete⟩ := @exchange_whole ['.'] emptyStore nofun pollAround _ reached
  refine ⟨x, reached, distinct, ?_⟩
  exact complete (pollAround.take 13) (pollAround.drop 14) rfl (by simp [pollAround]) (Option.some.inj idle) 0 (by decide)

end Tbf.RandomTester
