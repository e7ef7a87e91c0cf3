import Tbf.Execution
import Tbf.Tools.KtestFile

/-!
# KLEE's tests in the harness

From the file that KLEE writes to the values that the harness returns to the program.
-/

namespace Tbf.Ktest
open Text InputSource CNumber Numeral ByteRepr Harness

theorem mem_hexText_plain {data : Bytes} {b : UInt8} (member : b ∈ encode (hexText data)) : b ≠ newline ∧ b ≠ 0 := by
  have clean : ∀ c ∈ hexText data, c ≠ '\n' ∧ c ≠ Char.ofNat 0 := by
    intro c inside
    rcases mem_hexText inside with rfl | digit
    · decide
    · constructor <;> rintro rfl <;> revert digit <;> decide
  constructor
  · rintro rfl
    exact (clean _ (newline_mem_encode.mp member)).1 rfl
  · rintro rfl
    obtain ⟨c, inside, code⟩ := (mem_encode_ascii (by decide)).mp member
    exact (clean c inside).2 (Char.toNat_inj.mp code)

theorem length_encode_hexText (data : Bytes) : (encode (hexText data)).length = 2 + 2 * data.length := by
  have ascii : Ascii (hexText data) := by
    intro c member
    rcases mem_hexText member with rfl | digit
    · decide
    · have single : ∀ d ∈ [c], isHexDigit d = true := by simpa using digit
      exact ascii_of_isHexDigit single c List.mem_cons_self
  rw [encode_ascii ascii, List.length_map]
  simp only [hexText, List.length_cons, length_hexDigits]
  omega

/-- The bytes of a value in a cell that is wider. -/
def padded (size : Nat) (data : Bytes) : Bytes := data ++ List.replicate (size - data.length) 0

theorem littleEndian_padded (size : Nat) (data : Bytes) : littleEndian (padded size data) = littleEndian data := by
  have zeros : littleEndian (List.replicate (size - data.length) 0) = 0 :=
    littleEndian_eq_zero.mpr fun b member => List.eq_of_mem_replicate member
  unfold littleEndian at zeros ⊢
  rw [padded, List.map_append, Nat.ofDigits_append, zeros, Nat.mul_zero, Nat.add_zero]

theorem littleEndianBytes_padded {size : Nat} {data : Bytes} (within : data.length ≤ size) :
    littleEndianBytes size (littleEndian data) = padded size data := by
  have bytes := littleEndianBytes_littleEndian (padded size data)
  rw [littleEndian_padded] at bytes
  have length : (padded size data).length = size := by
    rw [padded, List.length_append, List.length_replicate]
    omega
  rwa [length] at bytes

/-- The hexadecimal text of a byte string is stored as the number of these bytes, as far as it is kept. -/
theorem convert_hexText (unit : CUnit) {data : Bytes} (nonempty : data ≠ []) (cell : data.length ≤ 8) :
    convert unit (encode (hexText data)) = .ok (littleEndianBytes 8 (unit.result .strtoull (littleEndian data))) := by
  have digits : hexDigits data ≠ [] := by
    have size := length_hexDigits data
    have positive := List.length_pos_of_ne_nil nonempty
    intro empty
    rw [empty, List.length_nil] at size
    omega
  have below := littleEndian_lt data
  have largest : 256 ^ data.length ≤ 256 ^ 8 := Nat.pow_le_pow_right (by decide) cell
  have fits : littleEndian data ≤ ULLONG_MAX := by
    unfold ULLONG_MAX
    omega
  unfold convert
  rw [hexText, strtoull_hex digits fun c => isHexDigit_of_mem_hexDigits, hexValue_hexDigits, Nat.min_eq_left fits]
  rfl

theorem take_kept {unit : CUnit} {size : Nat} {data : Bytes} (within : data.length ≤ size) (cell : size ≤ 8)
    (keeps : unit.Keeps size (littleEndian data)) :
    (littleEndianBytes 8 (unit.result .strtoull (littleEndian data))).take size = padded size data := by
  rw [take_littleEndianBytes cell, (unit.keeps_iff cell _).mpr keeps, littleEndianBytes_padded within]

/-- A line of hexadecimal digits reaches the parser as it is written. -/
theorem parseInp_hexText (unit : CUnit) {data : Bytes} (nonempty : data ≠ []) (cell : data.length ≤ 8) :
    parseInp unit (cstr (encode (hexText data) ++ [newline])) =
      .value (littleEndianBytes 8 (unit.result .strtoull (littleEndian data))) := by
  have noNul : 0 ∉ encode (hexText data) ++ [newline] := by
    intro member
    rcases List.mem_append.mp member with member | member
    · exact (mem_hexText_plain member).2 rfl
    · revert member
      decide
  have short : (encode (hexText data) ++ [newline]).length ≤ 2 ^ 32 := by
    have size := length_encode_hexText data
    rw [List.length_append, List.length_singleton]
    omega
  rw [cstr_of_not_mem noNul, parseInp_chomp unit (by simp) short, chomp_append_newline, convert_hexText unit nonempty cell]
  rfl

/-- The harness returns `inputs` to the program: whatever methods are called, call `k` gets the bytes of
input `k`, as many as its method has, and zeros for those that are missing. -/
def Delivers (unit : CUnit) (tv : TestVector) (inherited : Bytes) (sizes : List Nat) (inputs : List Bytes) : Prop :=
  ∃ input, ExecutionRunner.stdin tv inherited = .ok input ∧
    ∀ (calls : List NondetMethod) (k : Nat) (size : Nat) (data : Bytes), sizes[k]? = some size → inputs[k]? = some data →
      k < (valueCalls calls).length →
      ∃ buffer written, (handed (methodBody none) ⟨input, 0⟩ calls)[k]? = some (some buffer) ∧
        parseInp unit (cstr buffer) = .value written ∧
        ∀ junk, size ≤ (written ++ junk).length → readAs size written junk = padded size data

theorem delivers_vectorOf (unit : CUnit) (name origin : Str) (inherited : Bytes) {inputs : List (Str × Bytes)}
    {sizes : List Nat} (each : ∀ input ∈ inputs, input.2 ≠ [] ∧ input.2.length ≤ 8)
    (cell : ∀ (k size : Nat) (data : Bytes), sizes[k]? = some size → (inputs.map Prod.snd)[k]? = some data →
      data.length ≤ size ∧ size ≤ 8 ∧ unit.Keeps size (littleEndian data)) :
    Delivers unit (vectorOf name origin inputs) inherited sizes (inputs.map Prod.snd) := by
  have joinable : (vectorOf name origin inputs).Joinable := by
    refine TestVector.SingleTyped.joinable (Or.inl fun v member => ?_)
    simp only [vectorOf, TestVector.values, List.map_map, List.mem_map] at member
    obtain ⟨input, _, rfl⟩ := member
    rfl
  have lines : (vectorOf name origin inputs).lines = inputs.map fun input => encode (hexText input.2) := by
    simp [vectorOf, TestVector.lines, TestVector.values, Value.toBytes, Function.comp_def]
  have oneLine : ∀ line ∈ inputs.map fun input => encode (hexText input.2), newline ∉ line := by
    intro line member inside
    obtain ⟨input, _, rfl⟩ := List.mem_map.mp member
    exact (mem_hexText_plain inside).1 rfl
  have fits : ∀ line ∈ inputs.map fun input => encode (hexText input.2), line.length + 1 < INP_SIZE := by
    intro line member
    obtain ⟨input, present, rfl⟩ := List.mem_map.mp member
    have size := length_encode_hexText input.2
    have small := (each input present).2
    unfold INP_SIZE
    omega
  refine ⟨_, ExecutionRunner.stdin_ok joinable inherited, ?_⟩
  intro calls k size data sized given made
  obtain ⟨within, cellSize, keeps⟩ := cell k size data sized given
  rw [List.getElem?_map, Option.map_eq_some_iff] at given
  obtain ⟨input, here, rfl⟩ := given
  obtain ⟨nonempty, small⟩ := each input (List.mem_of_getElem? here)
  have filled : (vectorOf name origin inputs).vector ≠ [] := by
    intro none
    have empty : inputs = [] := List.map_eq_nil_iff.mp none
    rw [empty] at here
    cases here
  refine ⟨_, _, ?_, parseInp_hexText unit nonempty small, fun junk _ => ?_⟩
  swap
  · rw [readAs, List.take_append_of_le_length (by rw [length_littleEndianBytes]; exact cellSize)]
    exact take_kept within cellSize keeps
  rw [handed_eq_nth none _ _ made, nth_readInput_stdin, if_neg filled, lines,
    (nth_fgets_joinLines_iff oneLine).mpr fits, List.getElem?_map, here]
  rfl

/-- A test of KLEE that is still being written is delivered as far as it is there: all its inputs but the
last, and the last one with zeros for the high bytes that are missing. All numbers are kept where `strtoull` is declared. -/
theorem delivers_front (unit : CUnit) (r : TextRepr) (name origin : Str) (inherited : Bytes) {s : Stored}
    {inputs : List (CIdentifier × Bytes)} {front : Bytes} (holds : s.objects.map plain = inputs.map symbolic)
    (escaped : ∀ input ∈ inputs, ∀ b ∈ input.2, isEscaped b = true)
    (cell : ∀ input ∈ inputs, input.2 ≠ [] ∧ input.2.length ≤ 8) (cut : front <+: s.bytes)
    (begun : s.dataStart < front.length)
    (keeps : ∀ (k : Nat) (whole kept : CIdentifier × Bytes), inputs[k]? = some whole →
      (cutLast (front.length - s.dataStart) inputs)[k]? = some kept → unit.Keeps whole.2.length (littleEndian kept.2)) :
    ∃ tv, getTestVector r name origin (some front) = .ok tv ∧
      Delivers unit tv inherited (inputs.map fun input => input.2.length)
        ((cutLast (front.length - s.dataStart) inputs).map Prod.snd) := by
  refine ⟨_, getTestVector_long r name origin holds escaped cut (Nat.le_of_lt begun), ?_⟩
  have kept : ∀ (k : Nat) (input : CIdentifier × Bytes), (cutLast (front.length - s.dataStart) inputs)[k]? = some input →
      ∃ whole, inputs[k]? = some whole ∧ input.2 ≠ [] ∧ input.2.length ≤ whole.2.length ∧ whole.2.length ≤ 8 := by
    intro k input here
    obtain ⟨whole, present, rfl | rfl⟩ := getElem?_cutLast here
    · obtain ⟨nonempty, small⟩ := cell _ (List.mem_of_getElem? present)
      exact ⟨_, present, nonempty, Nat.le_refl _, small⟩
    · obtain ⟨nonempty, small⟩ := cell _ (List.mem_of_getElem? present)
      refine ⟨whole, present, ?_, List.length_take_le' _ _, small⟩
      simpa [List.take_eq_nil_iff, nonempty] using Nat.sub_ne_zero_of_lt begun
  have values : (cutLast (front.length - s.dataStart) inputs).map Prod.snd =
      ((cutLast (front.length - s.dataStart) inputs).map fun input => (input.1.name, input.2)).map Prod.snd := by
    simp [Function.comp_def]
  rw [values]
  refine delivers_vectorOf unit name origin inherited ?_ ?_
  · intro input member
    obtain ⟨entry, inside, rfl⟩ := List.mem_map.mp member
    obtain ⟨k, here⟩ := List.getElem?_of_mem inside
    obtain ⟨whole, _, nonempty, within, small⟩ := kept k entry here
    exact ⟨nonempty, Nat.le_trans within small⟩
  · intro k size data sized given
    rw [← values, List.getElem?_map, Option.map_eq_some_iff] at given
    rw [List.getElem?_map, Option.map_eq_some_iff] at sized
    obtain ⟨entry, here, rfl⟩ := given
    obtain ⟨other, there, rfl⟩ := sized
    obtain ⟨whole, present, _, within, small⟩ := kept k entry here
    obtain rfl := Option.some.inj (present.symm.trans there)
    exact ⟨within, small, keeps k _ _ present here⟩

theorem intFile_delivered : ∃ tv, getTestVector quoted "test000001".toList "klee-tests/test000001.ktest".toList
    (some (intFile.bytes.take 50)) = .ok tv ∧ Delivers bareUnit tv [] [4] [[5, 1]] :=
  @delivers_front bareUnit quoted _ _ [] intFile [intInput] _ (by decide) intInput_escaped (by decide) (List.take_prefix 50 _)
    (by decide) (fun k whole kept here _ => by
      have small : whole.2.length ≤ 4 := by
        obtain rfl := List.mem_singleton.mp (List.mem_of_getElem? here)
        decide
      exact bareUnit.keeps_of_small small _)

end Tbf.Ktest
