import Tbf.Execution

/-!
# PRTest

`input()` of `random_tester.c` prints the bytes it draws for a variable to a row of 99 characters;
`RandomTestConverter` reads the rows back, and the harness turns them into bytes again.
-/

namespace Tbf.RandomTester
open Text InputSource CNumber Harness

/-! ### The generator -/

/-- A call of `input()` for a method; `drawn` holds the results of `rand()`, at least one. -/
structure Draw where
  method : CIdentifier
  drawn : Bytes
  nonempty : drawn ≠ []

/-- C's `snprintf` to a buffer of `size` bytes. -/
def snprintf (size : Nat) (text : Str) : Str := text.take (size - 1)

namespace Draw

def varName (d : Draw) : Str := getSymVarName d.method.name

def newVal (d : Draw) : Bytes := d.drawn.reverse

def varSize (d : Draw) : Nat := d.newVal.length

def inputVal (d : Draw) : Str := d.drawn.flatMap fun b => snprintf 3 (Numeral.hexPair b)

def row (d : Draw) : Str := snprintf 99 (d.varName ++ ": 0x".toList ++ d.inputVal)

end Draw

/-- The test file: the rows up to the first empty one. -/
def writeTest (testVector : List Str) : Str := (testVector.takeWhile (· ≠ [])).flatMap (· ++ ['\n'])

/-! ### The converter -/

def getValue (line : Str) : Except Raised Str :=
  match (line.splitOn ':')[1]? with
  | some value => .ok (strip value)
  | none => .error .indexError

def getTestVector (testCase : TestCase Str) : Except Raised TestVector :=
  let testInfo := (testCase.content.splitOn '\n').filter (· ≠ [])
  testInfo.foldlM (fun vector line => do return vector.add (.str (← getValue line)) none)
    (.new testCase.name testCase.origin)

theorem foldlM_getValue {lines : List Str} {vector : TestVector} :
    lines.foldlM (fun vector line => do return vector.add (.str (← getValue line)) none) vector =
      match lines.mapM getValue with
      | .ok values => .ok { vector with vector := vector.vector ++ values.map fun value => ⟨.str value, none⟩ }
      | .error e => .error e := by
  induction lines generalizing vector with
  | nil => simp [pure, Except.pure]
  | cons line lines ih =>
    rw [List.foldlM_cons, List.mapM_cons]
    cases getValue line with
    | error e => rfl
    | ok value =>
      simp only [bind, Except.bind, pure, Except.pure] at ih ⊢
      rw [ih]
      cases lines.mapM getValue with
      | error e => rfl
      | ok values => simp [TestVector.add]

/-! ### The rows -/

theorem colon_not_mem_varName (d : Draw) : ':' ∉ d.varName ∧ '\n' ∉ d.varName :=
  ⟨fun member => absurd (mem_getSymVarName d.method member) (by decide),
    fun member => absurd (mem_getSymVarName d.method member) (by decide)⟩

theorem inputVal_eq (d : Draw) : d.inputVal = Numeral.hexDigits d.newVal := by
  have pair : ∀ b, snprintf 3 (Numeral.hexPair b) = Numeral.hexPair b := fun _ => rfl
  simp [Draw.inputVal, Draw.newVal, Numeral.hexDigits, pair]

theorem varSize_pos (d : Draw) : 0 < d.varSize := by
  simpa [Draw.varSize, Draw.newVal, List.length_pos_iff] using d.nonempty

def behindColon (d : Draw) : Str := (' ' :: Numeral.hexText d.newVal).take (97 - d.varName.length)

theorem row_eq (d : Draw) : d.row =
    if d.varName.length ≤ 97 then d.varName ++ ':' :: behindColon d else d.varName.take 98 := by
  have whole : d.varName ++ ": 0x".toList ++ d.inputVal = d.varName ++ ':' :: ' ' :: Numeral.hexText d.newVal := by
    rw [inputVal_eq, Numeral.hexText, List.append_assoc]
    rfl
  rw [Draw.row, snprintf, whole]
  split
  · rename_i fits
    rw [List.take_append, List.take_of_length_le (by omega),
      show 99 - 1 - d.varName.length = (97 - d.varName.length) + 1 by omega, List.take_succ_cons, behindColon]
  · rename_i long
    exact List.take_append_of_le_length (by omega)

theorem mem_behindColon {d : Draw} {c : Char} (member : c ∈ behindColon d) :
    c = ' ' ∨ c = 'x' ∨ Numeral.isHexDigit c = true := by
  rcases List.mem_cons.mp ((List.take_sublist _ _).subset member) with rfl | member
  · exact Or.inl rfl
  · exact Or.inr (Numeral.mem_hexText member)

theorem newline_not_mem_row (d : Draw) : '\n' ∉ d.row := by
  have clean := (colon_not_mem_varName d).2
  rw [row_eq]
  split
  · intro member
    rcases List.mem_append.mp member with member | member
    · exact clean member
    · rcases List.mem_cons.mp member with same | member
      · cases same
      · rcases mem_behindColon member with same | same | digit
        · cases same
        · cases same
        · revert digit
          decide
  · exact fun member => clean ((List.take_sublist _ _).subset member)

theorem snprintf_ne_nil {size : Nat} {text : Str} (room : 1 < size) (solid : text ≠ []) : snprintf size text ≠ [] := by
  unfold snprintf
  intro empty
  rcases List.take_eq_nil_iff.mp empty with full | empty
  · omega
  · exact solid empty

theorem row_ne_nil (d : Draw) : d.row ≠ [] := by
  apply snprintf_ne_nil (by omega)
  exact List.append_ne_nil_of_left_ne_nil (List.append_ne_nil_of_right_ne_nil _ (List.cons_ne_nil _ _)) _

theorem getValue_row (d : Draw) : getValue d.row =
    if d.varName.length ≤ 97 then .ok (strip (behindColon d)) else .error .indexError := by
  have clean := (colon_not_mem_varName d).1
  rw [row_eq]
  split
  · have noColon : ':' ∉ behindColon d := by
      intro member
      rcases mem_behindColon member with same | same | digit
      · cases same
      · cases same
      · revert digit
        decide
    rw [getValue, List.splitOn_append_cons_self_of_not_mem clean, List.splitOn_eq_singleton noColon]
    rfl
  · rw [getValue, List.splitOn_eq_singleton fun member => clean ((List.take_sublist _ _).subset member)]
    rfl

/-! ### The value of a row -/

/-- The stripped text of a row: what fits of the numeral, from nothing at all to all of its digits. -/
theorem strip_behindColon (d : Draw) : strip (behindColon d) =
    (Numeral.hexText d.newVal).take (96 - d.varName.length) := by
  unfold behindColon
  by_cases blank : d.varName.length ≤ 96
  · rw [show 97 - d.varName.length = (96 - d.varName.length) + 1 by omega, List.take_succ_cons,
      ← List.singleton_append]
    have solid : ∀ c ∈ (Numeral.hexText d.newVal).take (96 - d.varName.length), isSpace c = false := by
      intro c member
      have digits : ∀ n : Fin 16, isSpace n.val.digitChar = false := by decide
      rcases List.mem_cons.mp ((List.take_sublist _ _).subset member) with rfl | member
      · decide
      · rcases List.mem_cons.mp member with rfl | member
        · decide
        · obtain ⟨n, small, rfl⟩ :=
            Numeral.exists_digitChar_of_isHexDigit (Numeral.isHexDigit_of_mem_hexDigits member)
          exact digits ⟨n, small⟩
    exact strip_pad (forall_mem_of_all (by decide)) (fun c head => solid c (List.mem_of_head? head))
      (fun c last => solid c (List.mem_of_getLast? last))
  · rw [show 97 - d.varName.length = 0 by omega, show 96 - d.varName.length = 0 by omega]
    rfl

theorem convert_hex (unit : CUnit) {digits : Str} (nonempty : digits ≠ [])
    (hex : ∀ c ∈ digits, Numeral.isHexDigit c = true) : convert unit (encode ('0' :: 'x' :: digits)) =
      .ok (littleEndianBytes 8 (unit.result .strtoull (min (Numeral.hexValue digits) ULLONG_MAX))) := by
  unfold convert
  rw [strtoull_hex nonempty hex]
  rfl

/-- The draw comes back: its row is read, and the number in it is stored as the bytes drawn. -/
def Draw.Replays (unit : CUnit) (d : Draw) : Prop :=
  ∃ value, getValue d.row = .ok value ∧ ∃ written, convert unit (encode value) = .ok written ∧
    ∀ junk, d.varSize ≤ (written ++ junk).length → readAs d.varSize written junk = d.newVal

/-- The bytes fill at most the cell of an integer, and one of three holds. The row has all digits, and the number of
them is kept. Or there is nothing to lose: the value is zero and the cut leaves a numeral (or nothing, which is read
as zero). Or the digits that are left, all `f`, become the largest number of every type again. -/
def Draw.Fits (unit : CUnit) (d : Draw) : Prop :=
  d.varSize ≤ 8 ∧
    (d.method.name.length + 2 * d.varSize ≤ 88 ∧ unit.Keeps d.varSize (Numeral.littleEndian d.newVal) ∨
      (∀ b ∈ d.newVal, b = 0) ∧ d.method.name.length ≤ 91 ∧ d.method.name.length ≠ 88 ∨
      unit.declares .strtoull = false ∧ (∀ b ∈ d.newVal, b = 255) ∧ d.method.name.length ≤ 80)

theorem length_varName (d : Draw) : d.varName.length = 6 + d.method.name.length :=
  List.length_append

theorem stored_iff (unit : CUnit) (d : Draw) {value : Nat} (le : value ≤ Numeral.littleEndian d.newVal) :
    (∀ junk, d.varSize ≤ (littleEndianBytes 8 (unit.result .strtoull (min value ULLONG_MAX)) ++ junk).length →
        readAs d.varSize (littleEndianBytes 8 (unit.result .strtoull (min value ULLONG_MAX))) junk = d.newVal) ↔
      d.varSize ≤ 8 ∧ littleEndianBytes d.varSize (unit.result .strtoull value) = d.newVal := by
  rw [readAs_iff (show d.newVal.length = d.varSize from rfl), length_littleEndianBytes]
  refine and_congr_right fun small => ?_
  have below : Numeral.littleEndian d.newVal < 256 ^ d.newVal.length := Numeral.littleEndian_lt _
  have cell : 256 ^ d.newVal.length ≤ 256 ^ 8 := Nat.pow_le_pow_right (by decide) small
  have cellSize : 256 ^ 8 = ULLONG_MAX + 1 := rfl
  rw [take_littleEndianBytes small, Nat.min_eq_left (by omega)]

theorem kept_iff (unit : CUnit) (d : Draw) (cell : d.varSize ≤ 8) :
    littleEndianBytes d.varSize (unit.result .strtoull (Numeral.littleEndian d.newVal)) = d.newVal ↔
      unit.Keeps d.varSize (Numeral.littleEndian d.newVal) := by
  rw [← unit.keeps_iff cell]
  have whole : littleEndianBytes d.varSize (Numeral.littleEndian d.newVal) = d.newVal := littleEndianBytes_littleEndian _
  rw [whole]

/-- Where digits are missing, zero is read for zero only, and an `int` may read the largest number. -/
theorem cut_iff (unit : CUnit) (d : Draw) {k : Nat} (cell : d.varSize ≤ 8) (cut : k < 2 * d.varSize) :
    littleEndianBytes d.varSize (unit.result .strtoull (Numeral.hexValue ((Numeral.hexDigits d.newVal).take k))) = d.newVal ↔
      (∀ b ∈ d.newVal, b = 0) ∨ unit.declares .strtoull = false ∧ (∀ b ∈ d.newVal, b = 255) ∧ 8 ≤ k := by
  have bound : Numeral.littleEndian d.newVal < 256 ^ d.varSize := Numeral.littleEndian_lt _
  obtain ⟨lower, upper⟩ := Numeral.hexValue_take (s := Numeral.hexDigits d.newVal) (fun c => Numeral.isHexDigit_of_mem_hexDigits) k
  rw [Numeral.hexValue_hexDigits, Numeral.length_hexDigits] at lower upper
  have whole : littleEndianBytes d.varSize (Numeral.littleEndian d.newVal) = d.newVal := littleEndianBytes_littleEndian _
  have most : Numeral.littleEndian d.newVal = 256 ^ d.varSize - 1 ↔ ∀ b ∈ d.newVal, b = 255 := Numeral.littleEndian_eq_max
  rw [← Numeral.littleEndian_eq_zero, ← most]
  nth_rewrite 2 [← whole]
  rw [littleEndianBytes_eq_iff_mod, Nat.mod_eq_of_lt bound]
  unfold CUnit.result
  generalize Numeral.hexValue _ = value at lower upper ⊢
  cases declared : unit.declares .strtoull with
  | true =>
    have less : 16 * value ≤ Numeral.littleEndian d.newVal := by
      have factor : 16 ≤ 16 ^ (2 * d.newVal.length - k) := Nat.le_self_pow (Nat.sub_ne_zero_of_lt cut) 16
      have more := Nat.mul_le_mul_left value factor
      omega
    simp only [if_true, reduceCtorEq, false_and, or_false]
    rw [Nat.mod_eq_of_lt (by omega)]
    omega
  | false =>
    simp only [Bool.false_eq_true, if_false, true_and]
    exact signExtended_cut cell cut lower upper bound

theorem keeps_max (unit : CUnit) {d : Draw} (cell : d.varSize ≤ 8) (most : ∀ b ∈ d.newVal, b = 255) :
    unit.Keeps d.varSize (Numeral.littleEndian d.newVal) := by
  have value : Numeral.littleEndian d.newVal = 256 ^ d.varSize - 1 := Numeral.littleEndian_eq_max.mpr most
  right
  rw [value]
  generalize d.varSize = n at cell ⊢
  interval_cases n <;> decide

theorem keeps_zero (unit : CUnit) {d : Draw} (cell : d.varSize ≤ 8) (zero : ∀ b ∈ d.newVal, b = 0) :
    unit.Keeps d.varSize (Numeral.littleEndian d.newVal) := by
  right
  rw [Numeral.littleEndian_eq_zero.mpr zero]
  generalize d.varSize = n at cell ⊢
  interval_cases n <;> decide

theorem replays_iff_fits (unit : CUnit) (d : Draw) : d.Replays unit ↔ d.Fits unit := by
  have size := varSize_pos d
  have width := length_varName d
  have digits : (Numeral.hexDigits d.newVal).length = 2 * d.varSize := Numeral.length_hexDigits d.newVal
  have zero : Numeral.littleEndian d.newVal = 0 ↔ ∀ b ∈ d.newVal, b = 0 := Numeral.littleEndian_eq_zero
  have nonempty : d.newVal ≠ [] := List.ne_nil_of_length_pos size
  unfold Draw.Replays Draw.Fits
  rw [getValue_row, strip_behindColon, Numeral.hexText]
  by_cases long : d.varName.length ≤ 97
  · simp only [if_pos long, Except.ok.injEq, exists_eq_left']
    have nothing : ∀ text, convert unit text = .ok (littleEndianBytes 8 0) →
        ((∃ written, convert unit text = .ok written ∧ ∀ junk, d.varSize ≤ (written ++ junk).length →
          readAs d.varSize written junk = d.newVal) ↔ d.varSize ≤ 8 ∧ ∀ b ∈ d.newVal, b = 0) := by
      intro text read
      have none : unit.result .strtoull 0 = 0 := by
        unfold CUnit.result
        split <;> rfl
      have stored := stored_iff unit d (Nat.zero_le _)
      have same : littleEndianBytes d.varSize 0 = d.newVal ↔ 0 = Numeral.littleEndian d.newVal :=
        littleEndianBytes_eq_iff (Nat.pow_pos (by decide))
      rw [Nat.zero_min, none, same] at stored
      simp only [read, Except.ok.injEq, exists_eq_left', stored, eq_comm (a := 0), zero]
    -- Where digits are missing, zero is read or the largest number.
    have cutShort : ¬ d.method.name.length + 2 * d.varSize ≤ 88 → d.method.name.length ≤ 91 ∧ d.method.name.length ≠ 88 →
        80 < d.method.name.length → ((∀ b ∈ d.newVal, b = 0) ↔
          d.method.name.length + 2 * d.varSize ≤ 88 ∧ unit.Keeps d.varSize (Numeral.littleEndian d.newVal) ∨
          (∀ b ∈ d.newVal, b = 0) ∧ d.method.name.length ≤ 91 ∧ d.method.name.length ≠ 88 ∨
          unit.declares .strtoull = false ∧ (∀ b ∈ d.newVal, b = 255) ∧ d.method.name.length ≤ 80) := by
      intro missing named few
      simp only [missing, named, Nat.not_le_of_lt few, false_and, and_false, or_false, false_or, not_false_eq_true,
        ne_eq, and_true]
    -- The numeral can be cut to nothing, to "0", to "0x", and behind one of its digits.
    rcases kept : 96 - d.varName.length with _ | _ | _ | m
    · have read : convert unit (encode ([] : Str)) = .ok (littleEndianBytes 8 (unit.result .strtoull 0)) := rfl
      rw [List.take_zero, nothing _ (by rw [read]; unfold CUnit.result; split <;> rfl)]
      exact and_congr_right fun _ => cutShort (by omega) (by omega) (by omega)
    · have read : convert unit (encode ['0']) = .ok (littleEndianBytes 8 (unit.result .strtoull 0)) := rfl
      rw [List.take_succ_cons, List.take_zero, nothing _ (by rw [read]; unfold CUnit.result; split <;> rfl)]
      exact and_congr_right fun _ => cutShort (by omega) (by omega) (by omega)
    · have rejected : ∃ message, convert unit (encode ['0', 'x']) = .error message := ⟨_, rfl⟩
      obtain ⟨message, rejected⟩ := rejected
      simp only [List.take_succ_cons, List.take_zero, rejected, reduceCtorEq, false_and, exists_false, false_iff]
      omega
    · have taken : (Numeral.hexDigits d.newVal).take (m + 1) ≠ [] := by
        rw [← List.length_pos_iff, List.length_take]
        omega
      have hex : ∀ c ∈ (Numeral.hexDigits d.newVal).take (m + 1), Numeral.isHexDigit c = true :=
        fun c member => Numeral.isHexDigit_of_mem_hexDigits ((List.take_sublist _ _).subset member)
      simp only [List.take_succ_cons, convert_hex unit taken hex, Except.ok.injEq, exists_eq_left']
      by_cases whole : 2 * d.varSize ≤ m + 1
      · rw [List.take_of_length_le (by omega), Numeral.hexValue_hexDigits, stored_iff unit d (Nat.le_refl _)]
        refine and_congr_right fun cell => ?_
        rw [kept_iff unit d cell]
        constructor
        · exact fun keeps => Or.inl ⟨by omega, keeps⟩
        · rintro (⟨_, keeps⟩ | ⟨none, _⟩ | ⟨_, most, _⟩)
          · exact keeps
          · exact keeps_zero unit cell none
          · exact keeps_max unit cell most
      · obtain ⟨lower, -⟩ := Numeral.hexValue_take (s := Numeral.hexDigits d.newVal)
          (fun c => Numeral.isHexDigit_of_mem_hexDigits) (m + 1)
        rw [Numeral.hexValue_hexDigits] at lower
        have le := Nat.le_trans (Nat.le_mul_of_pos_right _ (Nat.pow_pos (show 0 < 16 by decide))) lower
        rw [stored_iff unit d le]
        refine and_congr_right fun cell => ?_
        rw [cut_iff unit d cell (by omega)]
        constructor
        · rintro (none | ⟨bare, most, eight⟩)
          · exact Or.inr (Or.inl ⟨none, by omega⟩)
          · exact Or.inr (Or.inr ⟨bare, most, by omega⟩)
        · rintro (⟨fits, _⟩ | ⟨none, _⟩ | ⟨bare, most, few⟩)
          · omega
          · exact Or.inl none
          · exact Or.inr ⟨bare, most, by omega⟩
  · simp only [if_neg long, reduceCtorEq, false_and, exists_false, false_iff]
    omega

/-! ### The test file -/

theorem takeWhile_rows (draws : List Draw) : (draws.map Draw.row).takeWhile (· ≠ []) = draws.map Draw.row := by
  rw [List.takeWhile_eq_self_iff]
  intro row member
  obtain ⟨d, _, rfl⟩ := List.mem_map.mp member
  simpa using row_ne_nil d

theorem writeTest_rows (draws : List Draw) :
    ((writeTest (draws.map Draw.row)).splitOn '\n').filter (· ≠ []) = draws.map Draw.row := by
  have clean : ∀ row ∈ draws.map Draw.row, '\n' ∉ row := by
    intro row member
    obtain ⟨d, _, rfl⟩ := List.mem_map.mp member
    exact newline_not_mem_row d
  rw [writeTest, takeWhile_rows, splitOn_flatMap_concat clean, List.filter_append]
  simp [List.filter_map, Function.comp_def, row_ne_nil]

theorem getTestVector_writeTest (name origin : Str) (draws : List Draw) (tv : TestVector) :
    getTestVector ⟨name, origin, writeTest (draws.map Draw.row)⟩ = .ok tv ↔
      ∃ values, List.Forall₂ (fun d value => getValue d.row = .ok value) draws values ∧
        tv = ⟨name, origin, values.map fun value => ⟨.str value, none⟩⟩ := by
  have read : ∀ values, List.Forall₂ (fun d value => getValue d.row = .ok value) draws values ↔
      (draws.map Draw.row).mapM getValue = .ok values := fun values => by
    rw [mapM_ok_iff, List.forall₂_map_left_iff]
  unfold getTestVector
  simp only [writeTest_rows, foldlM_getValue, read]
  cases (draws.map Draw.row).mapM getValue with
  | error e => simp
  | ok values => simp [TestVector.new, eq_comm]

theorem mem_getValue {d : Draw} {value : Str} (read : getValue d.row = .ok value) {c : Char}
    (member : c ∈ value) : c = 'x' ∨ Numeral.isHexDigit c = true := by
  rw [getValue_row] at read
  split at read
  · obtain rfl := Except.ok.inj read
    rw [strip_behindColon] at member
    rcases List.mem_cons.mp ((List.take_sublist _ _).subset member) with rfl | member
    · exact Or.inr (by decide)
    · rcases List.mem_cons.mp member with rfl | member
      · exact Or.inl rfl
      · exact Or.inr (Numeral.isHexDigit_of_mem_hexDigits member)
  · cases read

theorem ascii_getValue {d : Draw} {value : Str} (read : getValue d.row = .ok value) : Ascii value := by
  intro c member
  rcases mem_getValue read member with rfl | digit
  · decide
  · have single : ∀ c' ∈ [c], Numeral.isHexDigit c' = true := by simpa using digit
    exact ascii_of_isHexDigit single c List.mem_cons_self

theorem not_mem_encode_getValue {d : Draw} {value : Str} (read : getValue d.row = .ok value) {b : UInt8}
    (control : b.toNat < 32) : b ∉ encode value := by
  intro member
  obtain ⟨c, inValue, code⟩ := (mem_encode_ascii (by omega)).mp member
  rcases mem_getValue read inValue with rfl | digit
  · have : 'x'.toNat = 120 := rfl
    omega
  · obtain ⟨n, small, rfl⟩ := Numeral.exists_digitChar_of_isHexDigit digit
    rw [Numeral.toNat_digitChar small] at code
    split at code <;> omega

theorem length_getValue {d : Draw} {value : Str} (read : getValue d.row = .ok value) :
    (encode value).length < 97 := by
  rw [encode_ascii (ascii_getValue read), List.length_map]
  rw [getValue_row] at read
  split at read
  · obtain rfl := Except.ok.inj read
    rw [strip_behindColon, List.length_take]
    omega
  · cases read

/-- All draws of a test come back: the file is read, the vector fed to the harness, and for every sequence
of calls, call `k` parses value `k` and returns the bytes of draw `k`, whatever `malloc` left behind them. -/
def Consistent (unit : CUnit) (name origin : Str) (draws : List Draw) (inherited : Bytes) : Prop :=
  ∃ tv input, getTestVector ⟨name, origin, writeTest (draws.map Draw.row)⟩ = .ok tv ∧
    ExecutionRunner.stdin tv inherited = .ok input ∧
    ∀ (calls : List NondetMethod) (k : Nat) (d : Draw), draws[k]? = some d → k < (valueCalls calls).length →
      ∃ buffer written, (handed (methodBody none) ⟨input, 0⟩ calls)[k]? = some (some buffer) ∧
        parseInp unit (cstr buffer) = .value written ∧
        ∀ junk, d.varSize ≤ (written ++ junk).length → readAs d.varSize written junk = d.newVal

theorem parseInp_line (unit : CUnit) {d : Draw} {value : Str} (read : getValue d.row = .ok value) :
    parseInp unit (cstr (encode value ++ [newline])) = .of (convert unit (encode value)) := by
  have noNul : 0 ∉ encode value ++ [newline] := by
    intro member
    rcases List.mem_append.mp member with member | member
    · exact not_mem_encode_getValue read (by decide) member
    · revert member
      decide
  have short : (encode value ++ [newline]).length ≤ 2 ^ 32 := by
    have := length_getValue read
    rw [List.length_append, List.length_singleton]
    omega
  have parsed := parseInp_chomp unit (by simp) short
  rw [chomp_append_newline] at parsed
  rw [cstr_of_not_mem noNul]
  exact parsed

theorem handed_row {draws : List Draw} {values : List Str}
    (read : List.Forall₂ (fun d value => getValue d.row = .ok value) draws values) {name origin : Str}
    {inherited input : Bytes}
    (wired : ExecutionRunner.stdin ⟨name, origin, values.map fun value => ⟨.str value, none⟩⟩ inherited = .ok input)
    {calls : List NondetMethod} {k : Nat} {d : Draw} (drawn : draws[k]? = some d) (made : k < (valueCalls calls).length) :
    ∃ value, getValue d.row = .ok value ∧
      (handed (methodBody none) ⟨input, 0⟩ calls)[k]? = some (some (encode value ++ [newline])) := by
  obtain ⟨inside, rfl⟩ := List.getElem?_eq_some_iff.mp drawn
  have inValues : k < values.length := read.length_eq ▸ inside
  have reads : ∀ value ∈ values, ∃ d : Draw, getValue d.row = .ok value := by
    intro value member
    obtain ⟨j, there, rfl⟩ := List.getElem_of_mem member
    exact ⟨_, read.get (read.length_eq ▸ there) there⟩
  have joinable : TestVector.Joinable ⟨name, origin, values.map fun value => ⟨.str value, none⟩⟩ := by
    refine TestVector.SingleTyped.joinable (Or.inl ?_)
    simp [TestVector.values, Value.isBytes]
  have lines : TestVector.lines ⟨name, origin, values.map fun value => ⟨.str value, none⟩⟩ = values.map encode := by
    simp [TestVector.lines, TestVector.values, Value.toBytes, Function.comp_def]
  have nonempty : values ≠ [] := List.ne_nil_of_length_pos (Nat.zero_lt_of_lt inValues)
  rw [ExecutionRunner.stdin_ok joinable, if_neg (by simpa using nonempty), lines] at wired
  obtain rfl := Except.ok.inj wired
  refine ⟨values[k], read.get inside inValues, ?_⟩
  have oneLine : ∀ line ∈ values.map encode, newline ∉ line := by
    intro line member
    obtain ⟨value, here, rfl⟩ := List.mem_map.mp member
    obtain ⟨d, rowRead⟩ := reads value here
    exact not_mem_encode_getValue rowRead (by decide)
  have fits : ∀ line ∈ values.map encode, line.length + 1 < INP_SIZE := by
    intro line member
    obtain ⟨value, here, rfl⟩ := List.mem_map.mp member
    obtain ⟨d, rowRead⟩ := reads value here
    have short := length_getValue rowRead
    unfold INP_SIZE
    omega
  rw [handed_eq_nth none _ _ made, nth_readInput_stdin, (nth_fgets_joinLines_iff oneLine).mpr fits]
  simp [inValues]

/-- The draws of a test come back exactly when each of them fits. -/
theorem consistent_iff_fits (unit : CUnit) (name origin : Str) (draws : List Draw) (inherited : Bytes) :
    Consistent unit name origin draws inherited ↔ ∀ d ∈ draws, d.Fits unit := by
  simp only [← replays_iff_fits unit]
  unfold Consistent
  constructor
  · rintro ⟨tv, input, converted, wired, returned⟩ d member
    obtain ⟨values, read, rfl⟩ := (getTestVector_writeTest name origin draws tv).mp converted
    obtain ⟨k, inside, rfl⟩ := List.getElem_of_mem member
    have made : k < (valueCalls (List.replicate (k + 1) ExecutionRunner.intMethod)).length := by
      rw [ExecutionRunner.length_valueCalls_replicate]
      exact Nat.lt_succ_self k
    have drawn := List.getElem?_eq_getElem inside
    obtain ⟨value, rowRead, line⟩ := handed_row read wired drawn made
    obtain ⟨buffer, written, handedHere, parsed, stored⟩ := returned _ k _ drawn made
    obtain rfl := Option.some.inj (Option.some.inj (line.symm.trans handedHere))
    rw [parseInp_line unit rowRead] at parsed
    exact ⟨value, rowRead, written, Parsed.of_eq_value.mp parsed, stored⟩
  · intro replays
    have readable : ∃ values, List.Forall₂ (fun d value => getValue d.row = .ok value) draws values := by
      induction draws with
      | nil => exact ⟨[], List.Forall₂.nil⟩
      | cons d draws ih =>
        obtain ⟨here, later⟩ := List.forall_mem_cons.mp replays
        obtain ⟨value, read, _⟩ := here
        obtain ⟨values, rest⟩ := ih later
        exact ⟨value :: values, List.Forall₂.cons read rest⟩
    obtain ⟨values, read⟩ := readable
    have joinable : TestVector.Joinable ⟨name, origin, values.map fun value => ⟨.str value, none⟩⟩ := by
      refine TestVector.SingleTyped.joinable (Or.inl ?_)
      simp [TestVector.values, Value.isBytes]
    refine ⟨_, _, (getTestVector_writeTest name origin draws _).mpr ⟨values, read, rfl⟩,
      ExecutionRunner.stdin_ok joinable inherited, ?_⟩
    intro calls k d drawn made
    obtain ⟨value, rowRead, line⟩ := handed_row read (ExecutionRunner.stdin_ok joinable inherited) drawn made
    obtain ⟨value', rowRead', written, parsed, stored⟩ := replays d (List.mem_of_getElem? drawn)
    obtain rfl := Except.ok.inj (rowRead.symm.trans rowRead')
    refine ⟨_, written, line, ?_, stored⟩
    rw [parseInp_line unit rowRead, parsed]
    rfl

/-- A name of 81 characters leaves room for seven of the eight digits of an `int`. -/
def longMethod : CIdentifier := .of (List.replicate 81 'x') (by decide)

def cutDraw : Draw := ⟨longMethod, [0, 0, 0, 16], by decide⟩

theorem cutDraw_not_consistent :
    ¬ Consistent bareUnit "vector0.test".toList "vector0.test".toList [cutDraw] [] := by
  rintro ⟨tv, input, converted, wired, returned⟩
  obtain ⟨values, read, rfl⟩ := (getTestVector_writeTest _ _ _ _).mp converted
  obtain ⟨buffer, written, handedHere, parsed, stored⟩ := returned [ExecutionRunner.intMethod] 0 cutDraw rfl (by decide)
  have made : 0 < (valueCalls [ExecutionRunner.intMethod]).length := by decide
  obtain ⟨value, rowRead, line⟩ := handed_row read wired (show [cutDraw][0]? = some cutDraw from rfl) made
  obtain rfl := Option.some.inj (Option.some.inj (line.symm.trans handedHere))
  have cut : value = "0x0000001".toList := Except.ok.inj (rowRead.symm.trans (by decide))
  subst cut
  have one : parseInp bareUnit (cstr (encode "0x0000001".toList ++ [newline])) =
      .value [1, 0, 0, 0, 0, 0, 0, 0] := by decide
  rw [one] at parsed
  obtain rfl := Parsed.value.inj parsed
  have bytes := stored [] (by decide)
  revert bytes
  decide

end Tbf.RandomTester
