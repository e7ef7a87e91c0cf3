import Tbf.Harness

/-!
# Test execution

`ExecutionRunner` of `testcase_processing.py`: the input vector it writes to the stdin of the
compiled generic harness, and the result it reads off stderr.
-/

namespace Tbf
open Text InputSource Harness

def TestVector.SingleTyped (tv : TestVector) : Prop :=
  (∀ v ∈ tv.values, v.isBytes = false) ∨ (∀ v ∈ tv.values, v.isBytes = true)

/-- No `str` comes behind a `bytes`, which Python would refuse to add to it. -/
def TestVector.Joinable (tv : TestVector) : Prop :=
  tv.values.Pairwise fun v w => v.isBytes = true → w.isBytes = true

theorem TestVector.SingleTyped.joinable {tv : TestVector} (single : tv.SingleTyped) : tv.Joinable := by
  rcases single with typed | typed
  · exact List.pairwise_of_forall_mem_list fun v member w _ bytes => by simp [typed v member] at bytes
  · exact List.pairwise_of_forall_mem_list fun _ _ w member _ => typed w member

def TestVector.OneLine (tv : TestVector) : Prop := ∀ v ∈ tv.values, newline ∉ v.toBytes

namespace ExecutionRunner

/-! ### The input vector -/

def addItem (state : Value × Value) (item : TestInput) : Except Raised (Value × Value) := do
  let (newline, inputVector) :=
    if item.value.isBytes && !state.1.isBytes then (Value.bytes state.1.toBytes, Value.bytes state.2.toBytes)
    else state
  let line ← item.value.add newline
  let inputVector ← inputVector.add line
  return (newline, inputVector)

def getInputVector (testVector : TestVector) (escapeNewline : Bool) : Except Raised Value := do
  let newline := if escapeNewline then "\\n".toList else "\n".toList
  let (_, inputVector) ← testVector.vector.foldlM addItem (.str newline, .str [])
  return inputVector

def Ready (state : Value × Value) : Prop := state.1.toBytes = [newline] ∧ state.1.isBytes = state.2.isBytes

theorem add_toBytes {v w : Value} (same : v.isBytes = w.isBytes) :
    ∃ sum, v.add w = .ok sum ∧ sum.toBytes = v.toBytes ++ w.toBytes ∧ sum.isBytes = v.isBytes := by
  cases v <;> cases w
  · exact ⟨_, rfl, encode_append _ _, rfl⟩
  · cases same
  · cases same
  · exact ⟨_, rfl, rfl, rfl⟩

theorem addItem_ok {state : Value × Value} {item : TestInput} (ready : Ready state)
    (joins : state.1.isBytes = true → item.value.isBytes = true) :
    ∃ next, addItem state item = .ok next ∧ Ready next ∧ next.1.isBytes = item.value.isBytes ∧
      next.2.toBytes = state.2.toBytes ++ (item.value.toBytes ++ [newline]) := by
  obtain ⟨nl, sofar⟩ := state
  obtain ⟨bytes, same⟩ := ready
  -- The pair after the conversion has the type of the item.
  obtain ⟨pair, converted, kind, kind', lineEnd, text⟩ : ∃ pair : Value × Value,
      (if item.value.isBytes && !nl.isBytes then (Value.bytes nl.toBytes, Value.bytes sofar.toBytes)
        else (nl, sofar)) = pair ∧ pair.1.isBytes = item.value.isBytes ∧
        pair.2.isBytes = item.value.isBytes ∧ pair.1.toBytes = [newline] ∧
        pair.2.toBytes = sofar.toBytes := by
    cases wanted : item.value.isBytes with
    | true =>
      cases given : nl.isBytes with
      | true => exact ⟨_, rfl, given, same.symm.trans given, bytes, rfl⟩
      | false => exact ⟨_, rfl, rfl, rfl, bytes, rfl⟩
    | false =>
      have given : nl.isBytes = false := by
        by_contra other
        have := joins (by simpa using other)
        simp [wanted] at this
      exact ⟨_, rfl, given, same.symm.trans given, bytes, rfl⟩
  obtain ⟨line, added, lineBytes, lineKind⟩ := add_toBytes (v := item.value) (w := pair.1) kind.symm
  obtain ⟨sum, joined, sumBytes, sumKind⟩ := add_toBytes (v := pair.2) (w := line)
    (kind'.trans lineKind.symm)
  refine ⟨(pair.1, sum), ?_, ⟨lineEnd, ?_⟩, kind, ?_⟩
  · simp only [addItem, converted]
    simp [added, joined, bind, Except.bind, pure, Except.pure]
  · exact kind.trans (sumKind.trans kind').symm
  · rw [sumBytes, text, lineBytes, lineEnd]

theorem addItem_error {state : Value × Value} {item : TestInput} (bytes : state.1.isBytes = true)
    (text : item.value.isBytes = false) : addItem state item = .error .typeError := by
  obtain ⟨nl, sofar⟩ := state
  cases nl with
  | str => cases bytes
  | bytes data =>
    obtain ⟨value, name⟩ := item
    cases value with
    | str s => rfl
    | bytes => cases text

theorem foldlM_addItem {items : List TestInput} {state : Value × Value} (ready : Ready state)
    (joins : (state.1.isBytes :: items.map fun item => item.value.isBytes).Pairwise
      fun kind kind' => kind = true → kind' = true) :
    ∃ next, items.foldlM addItem state = .ok next ∧ Ready next ∧
      next.2.toBytes = state.2.toBytes ++ joinLines (items.map fun item => item.value.toBytes) ∧
      ∀ item ∈ items, item.value.isBytes = true → next.1.isBytes = true := by
  induction items generalizing state with
  | nil => exact ⟨state, rfl, ready, by simp [joinLines], by simp⟩
  | cons item items ih =>
    obtain ⟨fromState, later⟩ := List.pairwise_cons.mp joins
    obtain ⟨middle, first, ready', kind, text⟩ := addItem_ok ready (fromState item.value.isBytes (by simp))
    rw [List.map_cons, ← kind] at later
    obtain ⟨next, rest, ready'', text', kinds⟩ := ih ready' later
    refine ⟨next, ?_, ready'', ?_, ?_⟩
    · rw [List.foldlM_cons, first]
      exact rest
    · rw [text', text]
      simp [joinLines]
    · intro found member bytes
      rcases List.mem_cons.mp member with rfl | member
      · cases items with
        | nil =>
          obtain rfl := Except.ok.inj rest
          exact kind.trans bytes
        | cons after items =>
          have byteAfter := (List.pairwise_cons.mp later).1 _ (List.mem_cons_self) (kind.trans bytes)
          exact kinds after List.mem_cons_self byteAfter
      · exact kinds found member bytes

theorem foldlM_addItem_error {items : List TestInput} {state : Value × Value} (ready : Ready state)
    (breaks : ¬ (state.1.isBytes :: items.map fun item => item.value.isBytes).Pairwise
      fun kind kind' => kind = true → kind' = true) :
    items.foldlM addItem state = .error .typeError := by
  induction items generalizing state with
  | nil => simp at breaks
  | cons item items ih =>
    rw [List.foldlM_cons]
    by_cases joins : state.1.isBytes = true → item.value.isBytes = true
    · obtain ⟨middle, first, ready', kind, _⟩ := addItem_ok ready joins
      rw [first]
      refine ih ready' fun later => breaks ?_
      rw [kind] at later
      refine List.pairwise_cons.mpr ⟨?_, later⟩
      intro kind' member bytes
      rcases List.mem_cons.mp member with rfl | member
      · exact joins bytes
      · exact (List.pairwise_cons.mp later).1 kind' member (joins bytes)
    · obtain ⟨bytes, text⟩ := Classical.not_imp.mp joins
      rw [addItem_error bytes (by simpa using text)]
      rfl

theorem pairwise_joinable {tv : TestVector} : tv.Joinable ↔
    (false :: tv.vector.map fun item => item.value.isBytes).Pairwise fun kind kind' => kind = true → kind' = true := by
  simp [TestVector.Joinable, TestVector.values, List.pairwise_map]

theorem getInputVector_ok {tv : TestVector} (joinable : tv.Joinable) :
    ∃ input, getInputVector tv false = .ok input ∧ input.toBytes = joinLines tv.lines ∧
      ∀ v ∈ tv.values, v.isBytes = true → input.isBytes = true := by
  have start : Ready (.str "\n".toList, .str []) := ⟨rfl, rfl⟩
  obtain ⟨next, folded, ready, text, kinds⟩ := foldlM_addItem start (pairwise_joinable.mp joinable)
  refine ⟨next.2, ?_, ?_, ?_⟩
  · unfold getInputVector
    simp only [Bool.false_eq_true, if_false, folded]
    rfl
  · simpa [TestVector.lines, TestVector.values, Function.comp_def, Value.toBytes] using text
  · intro v member bytes
    obtain ⟨item, here, rfl⟩ := List.mem_map.mp member
    exact ready.2.symm.trans (kinds item here bytes)

theorem getInputVector_error {tv : TestVector} (mixed : ¬ tv.Joinable) :
    getInputVector tv false = .error .typeError := by
  have start : Ready (.str "\n".toList, .str []) := ⟨rfl, rfl⟩
  have folded := foldlM_addItem_error start (mixed ∘ pairwise_joinable.mpr)
  unfold getInputVector
  simp only [Bool.false_eq_true, if_false, folded]
  rfl

/-- The stdin of the harness, where `inherited` is the stdin of tbf itself. -/
def stdin (tv : TestVector) (inherited : Bytes) : Except Raised Bytes := do
  let inputVector ← getInputVector tv false
  return childStdin (some inputVector) inherited

theorem truthy_iff (v : Value) : v.truthy = true ↔ v.toBytes ≠ [] := by
  cases v with
  | str text =>
    cases text with
    | nil => simp [Value.truthy, Value.toBytes]
    | cons c text =>
      have : encode (c :: text) ≠ [] := by simp [encode]
      simp [Value.truthy, Value.toBytes, this]
  | bytes data => cases data <;> simp [Value.truthy, Value.toBytes]

/-- An empty vector is no input at all, so the child reads what tbf would read. -/
theorem stdin_ok {tv : TestVector} (joinable : tv.Joinable) (inherited : Bytes) :
    stdin tv inherited = .ok (if tv.vector = [] then inherited else joinLines tv.lines) := by
  obtain ⟨input, read, text, _⟩ := getInputVector_ok joinable
  have empty : joinLines tv.lines = [] ↔ tv.vector = [] := by
    simp [joinLines_eq_nil, TestVector.lines, TestVector.values]
  unfold stdin
  rw [read]
  refine congrArg Except.ok ?_
  rw [childStdin]
  by_cases none : tv.vector = []
  · rw [if_pos none, if_neg]
    rw [truthy_iff, text, not_not]
    exact empty.mpr none
  · rw [if_neg none, if_pos, text]
    rw [truthy_iff, text]
    exact fun h => none (empty.mp h)

theorem stdin_error {tv : TestVector} (mixed : ¬ tv.Joinable) (inherited : Bytes) :
    stdin tv inherited = .error .typeError := by
  unfold stdin
  rw [getInputVector_error mixed]
  rfl

/-! ### Framing -/

/-- The harness reads the vector: whatever methods it calls, call `k` reads value `k` and its newline,
and a call after the last value meets end of input. -/
def Framed (tv : TestVector) (inherited : Bytes) : Prop :=
  ∃ input, stdin tv inherited = .ok input ∧
    ∀ (calls : List NondetMethod) (k : Nat), k < (valueCalls calls).length →
      (handed (methodBody none) ⟨input, 0⟩ calls)[k]? = some (tv.values[k]?.map fun v => v.toBytes ++ [newline])

def intMethod : NondetMethod := ⟨"input".toList, "int".toList, []⟩

theorem length_valueCalls_replicate (n : Nat) : (valueCalls (List.replicate n intMethod)).length = n := by
  have value : (!intMethod.isVoid) = true := rfl
  simp [valueCalls, value]

theorem handed_stdin_iff (input : Bytes) (expected : Nat → Option Bytes) :
    (∀ (calls : List NondetMethod) (k : Nat), k < (valueCalls calls).length →
      (handed (methodBody none) ⟨input, 0⟩ calls)[k]? = some (expected k)) ↔
      ∀ k, nth (fgets INP_SIZE) k input = expected k := by
  constructor
  · intro all k
    have made : k < (valueCalls (List.replicate (k + 1) intMethod)).length := by
      rw [length_valueCalls_replicate]
      exact Nat.lt_succ_self k
    have here := all _ k made
    rw [handed_eq_nth none _ _ made, nth_readInput_stdin] at here
    exact Option.some.inj here
  · intro all calls k made
    rw [handed_eq_nth none _ _ made, nth_readInput_stdin, all k]

theorem framed_iff {tv : TestVector} (single : tv.SingleTyped) (oneLine : tv.OneLine) (inherited : Bytes) :
    Framed tv inherited ↔
      (tv.vector ≠ [] ∨ inherited = []) ∧ ∀ v ∈ tv.values, v.toBytes.length + 1 < INP_SIZE := by
  unfold Framed
  simp only [stdin_ok single.joinable, Except.ok.injEq, exists_eq_left', handed_stdin_iff]
  by_cases none : tv.vector = []
  · have values : tv.values = [] := by simp [TestVector.values, none]
    simp only [none, values, if_true, ne_eq, not_true_eq_false, false_or]
    constructor
    · intro all
      refine ⟨?_, by simp⟩
      by_contra left
      have first := all 0
      rw [nth, fgets, if_neg left] at first
      cases first
    · rintro ⟨rfl, _⟩ k
      exact nth_fgets_nil _ k
  · have lines : ∀ line ∈ tv.lines, newline ∉ line := by
      intro line member
      obtain ⟨v, here, rfl⟩ := List.mem_map.mp member
      exact oneLine v here
    have same : ∀ k : Nat, (tv.lines[k]?).map (· ++ [newline]) =
        tv.values[k]?.map fun v => v.toBytes ++ [newline] := by
      intro k
      simp [TestVector.lines, Function.comp_def]
    rw [if_neg none]
    simp only [← same, nth_fgets_joinLines_iff lines]
    simp [TestVector.lines, none]

def pairVector : TestVector :=
  (TestVector.new "vector0.test".toList "vector0.test".toList).add (.str "0x01".toList) none |>.add (.str []) none

theorem framed_pair : Framed pairVector (encode "7\n".toList) :=
  (framed_iff (Or.inl (by decide)) (by unfold TestVector.OneLine; decide) _).mpr
    ⟨Or.inl (by decide), by decide⟩

def emptyVector : TestVector := TestVector.new "vector0.test".toList "vector0.test".toList

theorem emptyVector_not_framed :
    emptyVector.SingleTyped ∧ emptyVector.OneLine ∧ ¬ Framed emptyVector (encode "7\n".toList) := by
  have single : emptyVector.SingleTyped := Or.inl (by decide)
  refine ⟨single, by unfold TestVector.OneLine; decide, ?_⟩
  rintro ⟨input, read, framed⟩
  rw [stdin_ok single.joinable] at read
  obtain rfl := Except.ok.inj read
  have first := framed [intMethod] 0 (by decide)
  revert first
  decide

end ExecutionRunner

end Tbf
