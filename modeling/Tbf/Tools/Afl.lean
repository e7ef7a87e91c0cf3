import Tbf.Execution

/-!
# AFL

AFL feeds a test file to its own instrumented program; TBF splits the file into a test vector and
feeds that to the generic harness. Both programs read their stdin with the same nondet methods.
-/

namespace Tbf.Afl
open Text InputSource Harness

def getTestVector (testCase : TestCase Bytes) : TestVector :=
  (testCase.content.splitOn newline).foldl (fun vector line => vector.add (.bytes line) none)
    (.new testCase.name testCase.origin)

/-- The method bodies that AFL's `Preprocessor` appends to the program. -/
def methodBody (method : NondetMethod) : List Stmt :=
  if method.isVoid then []
  else [.declareSize, .mallocBuffer, .fgetsStdin, .returnParsed method.type]

theorem methodBody_eq : methodBody = Harness.methodBody none := rfl

theorem getTestVector_values (testCase : TestCase Bytes) :
    (getTestVector testCase).values = (testCase.content.splitOn newline).map Value.bytes := by
  unfold getTestVector TestVector.values
  rw [TestVector.foldl_add_vector (fun line => Value.bytes line) (fun _ => none)]
  simp [TestVector.new, Function.comp_def]

theorem getTestVector_isBytes (testCase : TestCase Bytes) :
    ∀ v ∈ (getTestVector testCase).values, v.isBytes = true := by
  intro v member
  rw [getTestVector_values] at member
  obtain ⟨line, _, rfl⟩ := List.mem_map.mp member
  rfl

theorem getTestVector_singleTyped (testCase : TestCase Bytes) : (getTestVector testCase).SingleTyped :=
  Or.inr (getTestVector_isBytes testCase)

theorem getTestVector_ne_nil (testCase : TestCase Bytes) : (getTestVector testCase).vector ≠ [] := by
  intro empty
  have values := getTestVector_values testCase
  simp [TestVector.values, empty] at values

theorem joinLines_getTestVector (testCase : TestCase Bytes) :
    joinLines (getTestVector testCase).lines = testCase.content ++ [newline] := by
  rw [TestVector.lines, getTestVector_values, List.map_map]
  simpa [Function.comp_def, Value.toBytes] using joinLines_splitOn testCase.content

theorem getInputVector_getTestVector (testCase : TestCase Bytes) :
    ExecutionRunner.getInputVector (getTestVector testCase) false =
      .ok (.bytes (testCase.content ++ [newline])) := by
  obtain ⟨input, read, text, kind⟩ := ExecutionRunner.getInputVector_ok (getTestVector_singleTyped testCase).joinable
  have isBytes : input.isBytes = true := by
    obtain ⟨v, values, split⟩ := List.exists_cons_of_ne_nil (getTestVector_ne_nil testCase)
    have member : v.value ∈ (getTestVector testCase).values := by simp [TestVector.values, split]
    exact kind v.value member (getTestVector_isBytes testCase _ member)
  rw [joinLines_getTestVector] at text
  cases input with
  | str => cases isBytes
  | bytes data =>
    rw [read]
    exact congrArg (fun data => Except.ok (Value.bytes data)) text

/-! ### Two streams that differ in a final newline -/

theorem takeLine_append_newline (n : Nat) (stream : Bytes) :
    takeLine n (stream ++ [newline]) = takeLine n stream ∨
      (newline ∉ stream ∧ takeLine n stream = stream ∧ takeLine n (stream ++ [newline]) = stream ++ [newline]) := by
  induction n generalizing stream with
  | zero => exact Or.inl (by simp [takeLine])
  | succ n ih =>
    cases stream with
    | nil => exact Or.inr ⟨by simp, rfl, by simp [takeLine]⟩
    | cons b stream =>
      by_cases stop : b = newline
      · exact Or.inl (by simp [takeLine, stop])
      · rcases ih stream with same | ⟨oneLine, whole, longer⟩
        · exact Or.inl (by simp [takeLine, stop, same])
        · refine Or.inr ⟨?_, by simp [takeLine, stop, whole], by simp [takeLine, stop, longer]⟩
          simp only [List.mem_cons, not_or]
          exact ⟨fun same => stop same.symm, oneLine⟩

/-- The stream with its extra newline, or both streams read to their end. -/
def Behind (stream longer : Bytes) : Prop :=
  longer = stream ++ [newline] ∨ stream = [] ∧ longer = []

def SameText (left right : Option Bytes) : Prop :=
  ∀ line, left = some line → ∃ line', right = some line' ∧ chomp (cstr line) = chomp (cstr line')

theorem fgets_behind {size : Nat} (room : 1 < size) :
    Simulation (fgets size) (fgets size) Behind SameText := by
  intro stream longer related
  rcases related with rfl | ⟨rfl, rfl⟩
  · by_cases empty : stream = []
    · subst empty
      obtain ⟨n, rfl⟩ : ∃ n, size = n + 2 := ⟨size - 2, by omega⟩
      refine ⟨?_, Or.inr ⟨rfl, by simp [fgets, takeLine]⟩⟩
      intro line read
      cases read
    · have left : fgets size stream = (some (takeLine (size - 1) stream),
          stream.drop (takeLine (size - 1) stream).length) := if_neg empty
      have right : fgets size (stream ++ [newline]) = (some (takeLine (size - 1) (stream ++ [newline])),
          (stream ++ [newline]).drop (takeLine (size - 1) (stream ++ [newline])).length) :=
        if_neg (by simp)
      rw [left, right]
      rcases takeLine_append_newline (size - 1) stream with same | ⟨oneLine, whole, longer⟩
      · rw [same]
        have fits := (takeLine_front (size - 1) stream).length_le
        refine ⟨fun line read => ⟨_, rfl, by rw [Option.some.inj read]⟩, Or.inl ?_⟩
        exact List.drop_append_of_le_length fits
      · rw [whole, longer]
        refine ⟨fun line read => ⟨_, rfl, ?_⟩, Or.inr ⟨by simp, by simp⟩⟩
        obtain rfl := Option.some.inj read
        rw [chomp_cstr_line oneLine, chomp_of_not_mem (newline_not_mem_cstr oneLine)]
  · refine ⟨?_, Or.inr ⟨rfl, rfl⟩⟩
    intro line read
    cases read

/-- The joined vector is the test file and one newline, and the harness reads from it what the
instrumented program reads from the file, as long as that program has input left. -/
theorem replay_fidelity (testCase : TestCase Bytes) (inherited : Bytes) :
    ExecutionRunner.getInputVector (getTestVector testCase) false =
        .ok (.bytes (testCase.content ++ [newline])) ∧
      ∃ input, ExecutionRunner.stdin (getTestVector testCase) inherited = .ok input ∧
        ∀ (calls : List NondetMethod) (k : Nat) (line : Bytes),
          (handed methodBody ⟨testCase.content, 0⟩ calls)[k]? = some (some line) →
          ∃ line', (handed (Harness.methodBody none) ⟨input, 0⟩ calls)[k]? = some (some line') ∧
            chomp (cstr line) = chomp (cstr line') := by
  refine ⟨getInputVector_getTestVector testCase, testCase.content ++ [newline], ?_, ?_⟩
  · rw [ExecutionRunner.stdin_ok (getTestVector_singleTyped testCase).joinable,
      if_neg (getTestVector_ne_nil testCase), joinLines_getTestVector]
  · intro calls k line read
    rw [methodBody_eq] at read
    have made : k < (valueCalls calls).length := by
      obtain ⟨inside, _⟩ := List.getElem?_eq_some_iff.mp read
      rwa [length_handed] at inside
    rw [handed_eq_nth none _ _ made, nth_readInput_stdin] at read ⊢
    have room : 1 < INP_SIZE := by decide
    have same := nth_simulation (fgets_behind room)
      (Or.inl (Eq.refl (testCase.content ++ [newline]))) k
    obtain ⟨line', read', text⟩ := same line (Option.some.inj read)
    exact ⟨line', by rw [read'], text⟩

def sevenFile : TestCase Bytes := ⟨"id:000000".toList, "id:000000".toList, encode "7".toList⟩

theorem replay_fidelity_seven :
    ∃ input, ExecutionRunner.stdin (getTestVector sevenFile) [] = .ok input ∧
      ∃ line', (handed (Harness.methodBody none) ⟨input, 0⟩ [ExecutionRunner.intMethod])[0]? = some (some line') ∧
        chomp (cstr (encode "7".toList)) = chomp (cstr line') := by
  obtain ⟨_, input, wired, replayed⟩ := replay_fidelity sevenFile []
  exact ⟨input, wired, replayed [ExecutionRunner.intMethod] 0 (encode "7".toList) (by decide)⟩

end Tbf.Afl
