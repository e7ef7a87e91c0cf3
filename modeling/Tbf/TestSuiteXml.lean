import Tbf.Tools.Converters

/-!
# The XML test suite

`write_testvector` hands the values of a vector to the `TestcaseBuilder` of `tfbuilder`, which stores
`str(value)` as the text of an element; a document is kept as its elements and their texts.
-/

namespace Tbf.TestSuiteXml
open Text InputSource ByteRepr

/-! ### `tfbuilder` -/

structure Input where
  value : Value
  inpVariable : Option Str
  inpType : Option Str

structure PendingTestCase where
  coversError : Bool
  inputs : List Input

structure TestcaseBuilder where
  currentTestCase : Option PendingTestCase

structure Tag where
  name : Str
  text : Str
  attributes : List (Str × Str)
  deriving DecidableEq, Repr

structure Testcase where
  attributes : List (Str × Str)
  children : List Tag
  deriving DecidableEq, Repr

def pyStr : Value → Str
  | .str text => text
  | .bytes data => bytesRepr data

def createTag (name : Str) (value : Value) (attributes : List (Str × Str)) : Tag := ⟨name, pyStr value, attributes⟩

/-- An attribute that is left out where there is no value, or an empty one, for it. -/
def inpAttrib (name : Str) (value : Option Str) : List (Str × Str) :=
  match value with
  | some value => if value = [] then [] else [(name, value)]
  | none => []

namespace TestcaseBuilder

def testCaseStart (b : TestcaseBuilder) (coversError : Bool) : Except Raised TestcaseBuilder :=
  match b.currentTestCase with
  | some _ => .error .attributeError
  | none => .ok ⟨some ⟨coversError, []⟩⟩

def inputVal (b : TestcaseBuilder) (value : Value) (inpVariable inpType : Option Str) : Except Raised TestcaseBuilder :=
  match b.currentTestCase with
  | none => .error .attributeError
  | some testCase => .ok ⟨some { testCase with inputs := testCase.inputs ++ [⟨value, inpVariable, inpType⟩] }⟩

def addInput (inp : Input) : Tag :=
  createTag "input".toList inp.value (inpAttrib "variable".toList inp.inpVariable ++ inpAttrib "type".toList inp.inpType)

def build (b : TestcaseBuilder) : Except Raised (Testcase × TestcaseBuilder) :=
  match b.currentTestCase with
  | none => .error .attributeError
  | some testCase =>
    let attributes := if testCase.coversError then [("coversError".toList, "true".toList)] else []
    .ok (⟨attributes, testCase.inputs.map addInput⟩, ⟨none⟩)

end TestcaseBuilder

/-! ### `write_testvector` -/

abbrev Files := Str → Option Testcase

def outputName (testVector : TestVector) : Str := testVector.name ++ ".xml".toList

def writeTestvector (files : Files) (testVector : TestVector) (forceWrite : Bool) : Except Raised Files := do
  let started ← TestcaseBuilder.testCaseStart ⟨none⟩ false
  let builder ← testVector.vector.foldlM (fun builder element => builder.inputVal element.value none none) started
  let (testcaseXml, _) ← builder.build
  if (files (outputName testVector)).isSome && !forceWrite then .error .valueError
  else return Function.update files (outputName testVector) (some testcaseXml)

/-- `XmlWritingTestConverter` writes every vector that its delegate returns. -/
def writeAll (files : Files) (vectors : List TestVector) : Except Raised Files :=
  vectors.foldlM (fun files v => writeTestvector files v true) files

theorem foldlM_inputVal (items : List TestInput) (pending : PendingTestCase) :
    items.foldlM (fun builder element => builder.inputVal element.value none none) (⟨some pending⟩ : TestcaseBuilder) =
      .ok ⟨some { pending with inputs := pending.inputs ++ items.map fun item => ⟨item.value, none, none⟩ }⟩ := by
  induction items generalizing pending with
  | nil => simp [pure, Except.pure]
  | cons item items ih =>
    rw [List.foldlM_cons]
    exact (ih _).trans (by simp)

/-- The document of a vector: one `input` for each entry, in order, and nothing else. -/
def testcaseXml (testVector : TestVector) : Testcase :=
  ⟨[], testVector.values.map fun value => ⟨"input".toList, pyStr value, []⟩⟩

theorem writeTestvector_force (files : Files) (testVector : TestVector) :
    writeTestvector files testVector true =
      .ok (Function.update files (outputName testVector) (some (testcaseXml testVector))) := by
  have inputs := foldlM_inputVal testVector.vector ⟨false, []⟩
  unfold writeTestvector
  simp only [TestcaseBuilder.testCaseStart, bind, Except.bind, inputs, TestcaseBuilder.build]
  simp [testcaseXml, TestVector.values, TestcaseBuilder.addInput, createTag, inpAttrib, Function.comp_def, pure, Except.pure]

theorem outputName_inj {tv tv' : TestVector} (same : outputName tv = outputName tv') : tv.name = tv'.name :=
  List.append_cancel_right same

/-- Vectors of different names do not overwrite each other: the file of each holds its own document. -/
theorem writeAll_distinct {vectors : List TestVector} (distinct : (vectors.map TestVector.name).Nodup) (files : Files) :
    ∃ written, writeAll files vectors = .ok written ∧
      (∀ tv ∈ vectors, written (outputName tv) = some (testcaseXml tv)) ∧
      ∀ name, (∀ tv ∈ vectors, outputName tv ≠ name) → written name = files name := by
  induction vectors generalizing files with
  | nil => exact ⟨files, rfl, by simp, fun _ _ => rfl⟩
  | cons tv vectors ih =>
    obtain ⟨fresh, later⟩ := List.nodup_cons.mp distinct
    obtain ⟨written, rest, documents, frame⟩ :=
      ih later (Function.update files (outputName tv) (some (testcaseXml tv)))
    have others : ∀ other ∈ vectors, outputName other ≠ outputName tv := by
      intro other member same
      exact fresh (outputName_inj same ▸ List.mem_map_of_mem member)
    refine ⟨written, ?_, ?_, ?_⟩
    · rw [writeAll, List.foldlM_cons, writeTestvector_force]
      exact rest
    · refine List.forall_mem_cons.mpr ⟨?_, documents⟩
      rw [frame _ others, Function.update_self]
    · intro name unused
      obtain ⟨here, unusedLater⟩ := List.forall_mem_cons.mp unused
      rw [frame name unusedLater, Function.update_of_ne (Ne.symm here)]

/-! ### Elements and lines -/

/-- The elements of the written document, as bytes, are the lines of the stdin of the program. -/
def Describes (tv : TestVector) : Prop :=
  ∀ files, ∃ written testcase input, writeTestvector files tv true = .ok written ∧
    written (outputName tv) = some testcase ∧ ExecutionRunner.getInputVector tv false = .ok input ∧
    testcase.children.length = tv.length ∧
    ∀ i < tv.length, ∃ tag, testcase.children[i]? = some tag ∧ tag.name = "input".toList ∧
      (input.toBytes.splitOn newline)[i]? = some (encode tag.text)

theorem length_le_encode (s : Str) : s.length ≤ (encode s).length := by
  induction s with
  | nil => simp
  | cons c s ih =>
    have positive := Char.utf8Size_pos c
    rw [← List.singleton_append, encode_append, List.length_append, List.length_append]
    simp [encode] at ih ⊢
    omega

theorem encode_bytesRepr_ne (data : Bytes) : encode (bytesRepr data) ≠ data := by
  intro same
  have longer : data.length + 3 ≤ (bytesRepr data).length := by
    have body : data.length ≤ (data.flatMap (reprByte (reprQuote data))).length := by
      have each : ∀ b, 1 ≤ (reprByte (reprQuote data) b).length := by
        intro b
        unfold reprByte
        dsimp only
        split_ifs <;> simp
      rw [List.length_flatMap]
      have sum := List.card_nsmul_le_sum (data.map fun b => (reprByte (reprQuote data) b).length) 1
        (by simpa using fun b _ => each b)
      simpa using sum
    simp only [bytesRepr, List.cons_append, List.length_cons, List.length_append, List.length_nil]
    omega
  have shorter := length_le_encode (bytesRepr data)
  rw [same] at shorter
  omega

theorem getElem?_splitOn_joinLines {lines : List Bytes} (oneLine : ∀ line ∈ lines, newline ∉ line) {i : Nat}
    (inside : i < lines.length) : ((joinLines lines).splitOn newline)[i]? = some lines[i] := by
  rw [joinLines, splitOn_flatMap_concat oneLine, List.getElem?_append_left inside, List.getElem?_eq_getElem inside]

theorem describes_iff_text {tv : TestVector} (single : tv.SingleTyped) (oneLine : tv.OneLine) :
    Describes tv ↔ ∀ v ∈ tv.values, v.isBytes = false := by
  have length : tv.values.length = tv.length := by simp [TestVector.values, TestVector.length]
  obtain ⟨input, joined, text, _⟩ := ExecutionRunner.getInputVector_ok single.joinable
  have lines : ∀ line ∈ tv.lines, newline ∉ line := by
    intro line member
    obtain ⟨v, here, rfl⟩ := List.mem_map.mp member
    exact oneLine v here
  have onLine : ∀ i (inside : i < tv.values.length), (input.toBytes.splitOn newline)[i]? = some tv.values[i].toBytes := by
    intro i inside
    rw [text, getElem?_splitOn_joinLines lines (by simpa [TestVector.lines] using inside)]
    simp [TestVector.lines]
  have element : ∀ i (inside : i < tv.values.length),
      (testcaseXml tv).children[i]? = some ⟨"input".toList, pyStr tv.values[i], []⟩ := by
    intro i inside
    simp [testcaseXml, inside]
  constructor
  · intro describes v member
    obtain ⟨written, testcase, input', wrote, document, joined', _, elements⟩ := describes fun _ => none
    obtain rfl := Except.ok.inj (joined.symm.trans joined')
    rw [writeTestvector_force] at wrote
    obtain rfl := Except.ok.inj wrote
    rw [Function.update_self] at document
    obtain rfl := Option.some.inj document
    obtain ⟨i, inside, rfl⟩ := List.getElem_of_mem member
    obtain ⟨tag, found, _, line⟩ := elements i (length ▸ inside)
    obtain rfl := Option.some.inj ((element i inside).symm.trans found)
    have same := Option.some.inj ((onLine i inside).symm.trans line)
    cases value : tv.values[i] with
    | str text => rfl
    | bytes data =>
      rw [value] at same
      exact absurd same.symm (encode_bytesRepr_ne data)
  · intro texts files
    refine ⟨_, testcaseXml tv, input, writeTestvector_force files tv, Function.update_self .., joined, ?_, ?_⟩
    · simp [testcaseXml, length]
    · intro i inside
      have inValues : i < tv.values.length := length ▸ inside
      refine ⟨_, element i inValues, rfl, ?_⟩
      rw [onLine i inValues]
      have kind := texts _ (List.getElem_mem inValues)
      cases value : tv.values[i] with
      | str text => rfl
      | bytes data =>
        rw [value] at kind
        cases kind

/-- The converters but that of AFL return strings; its vectors are byte strings, and never empty. -/
theorem textual_of_produces {tester : Tester} {tv : TestVector} (produced : tester.Produces tv)
    (other : tester ≠ .afl) : tv.Textual := by
  cases tester with
  | afl => exact absurd rfl other
  | crest =>
    obtain ⟨testCase, rfl⟩ := produced
    exact crest_textual testCase
  | cpatiger =>
    obtain ⟨testCase, converted⟩ := produced
    exact cpatiger_textual converted
  | fshell =>
    obtain ⟨_, _, _, _, testCases, read, testCase, member, rfl⟩ := produced
    exact fshell_textual (fshell_testCases_clean read testCase member)
  | klee =>
    obtain ⟨_, _, _, converted⟩ := produced
    exact klee_textual converted
  | prtest =>
    obtain ⟨testCase, converted⟩ := produced
    exact prtest_textual converted

/-- The XML test describes the executed one exactly for the converters that return strings. -/
theorem describes_iff_not_afl {tester : Tester} {tv : TestVector} (produced : tester.Produces tv) :
    Describes tv ↔ tester ≠ .afl := by
  by_cases afl : tester = .afl
  · subst afl
    obtain ⟨testCase, rfl⟩ := produced
    have single := Afl.getTestVector_singleTyped testCase
    have oneLine : (Afl.getTestVector testCase).OneLine := by
      intro v member
      rw [Afl.getTestVector_values] at member
      obtain ⟨line, inLines, rfl⟩ := List.mem_map.mp member
      exact (subset_of_mem_splitOn inLines).2
    rw [describes_iff_text single oneLine]
    obtain ⟨item, items, split⟩ := List.exists_cons_of_ne_nil (Afl.getTestVector_ne_nil testCase)
    have member : item.value ∈ (Afl.getTestVector testCase).values := by simp [TestVector.values, split]
    have bytes := Afl.getTestVector_isBytes testCase item.value member
    refine ⟨fun texts => ?_, fun other => absurd rfl other⟩
    rw [texts item.value member] at bytes
    cases bytes
  · have textual := textual_of_produces produced afl
    have texts : ∀ v ∈ tv.values, v.isBytes = false := by
      intro v member
      obtain ⟨text, rfl, _⟩ := textual v member
      rfl
    have oneLine : tv.OneLine := by
      intro v member
      obtain ⟨text, rfl, clean⟩ := textual v member
      exact fun inside => clean (newline_mem_encode.mp inside)
    exact iff_of_true ((describes_iff_text (Or.inl texts) oneLine).mpr texts) afl

def crestTest : TestCase Str := ⟨"input.1".toList, "input.1".toList, "3\n-1\n".toList⟩

theorem crestTest_described : Describes (Crest.getTestVector crestTest) :=
  (describes_iff_not_afl (show Tester.Produces .crest _ from ⟨crestTest, rfl⟩)).mpr (by decide)

def aflTest : TestCase Bytes := ⟨"id:000000".toList, "id:000000".toList, encode "3\n-1".toList⟩

theorem aflTest_not_described : Tester.Produces .afl (Afl.getTestVector aflTest) ∧ ¬ Describes (Afl.getTestVector aflTest) := by
  refine ⟨⟨aflTest, rfl⟩, fun describes => ?_⟩
  obtain ⟨written, testcase, input, wrote, document, joined, _, elements⟩ := describes fun _ => none
  rw [writeTestvector_force] at wrote
  obtain rfl := Except.ok.inj wrote
  rw [Function.update_self] at document
  obtain rfl := Option.some.inj document
  obtain ⟨tag, found, _, line⟩ := elements 0 (by decide)
  have first : (testcaseXml (Afl.getTestVector aflTest)).children[0]? = some ⟨"input".toList, "b'3'".toList, []⟩ := by
    decide
  obtain rfl := Option.some.inj (first.symm.trans found)
  have executed : ExecutionRunner.getInputVector (Afl.getTestVector aflTest) false =
      .ok (.bytes (encode "3\n-1\n".toList)) := by rfl
  obtain rfl := Except.ok.inj (executed.symm.trans joined)
  revert line
  decide

end Tbf.TestSuiteXml
