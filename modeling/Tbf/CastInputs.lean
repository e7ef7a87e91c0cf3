import Tbf.ParseInp
import Tbf.Reproduction

/-!
# Inputs that are cast

For CREST and CPATiger an input is a number, and the stub casts it to the type of the method. The harness takes the
bytes of that type from the front of the number instead, or of what an `int` has kept of it.
-/

namespace Tbf.CastInputs
open Text Numeral InputSource CNumber CInteger Harness Interaction ErrorSearch Reproduction

variable {methods : List NondetMethod}

/-- A type of at most eight bytes that numbers are cast to, by its size and the bytes that a number becomes. -/
structure Target where
  size : Nat
  size_le : size ≤ 8
  cast : Int → Bytes
  length_cast : ∀ v, (cast v).length = size

/-- An integer type, or a pointer as an integer of its size: the number is taken modulo `2 ^ bits`. -/
def integer (t : IntType) : Target where
  size := t.size
  size_le := t.size_le
  cast := t.bytes
  length_cast v := length_littleEndianBytes t.size (t.word v)

/-- `_Bool`: every number but zero becomes one. -/
def bool : Target where
  size := 1
  size_le := by decide
  cast v := [if v = 0 then 0 else 1]
  length_cast _ := rfl

/-- The stub stores `(T) v` for the next number `v`. -/
def casting (target : NondetMethod → Target) (inputs : List Int) : Oracle {method // method ∈ methods} Bytes Shortage Nat :=
  stored (fun method v => some ((target method).cast v)) inputs

def longLong : IntType := ⟨.w64, true⟩

/-- The cell that `parse_inp` fills for a number. -/
def cell (unit : CUnit) (v : Int) : Bytes := littleEndianBytes 8 (unit.result .strtoull (longLong.word v))

/-- The cast has the bytes that the harness reads. -/
def Agrees (unit : CUnit) (target : Target) (v : Int) : Prop := (cell unit v).take target.size = target.cast v

/-- The types have the sizes that they have in the unit. -/
def Sized (methods : List NondetMethod) (unit : CUnit) (target : NondetMethod → Target) : Prop :=
  ∀ method ∈ methods, method.isVoid = false → (target method).size = unit.sizeOf method.type

/-- Every run of the tool that came to its end is repeated by the harness on the vector. -/
def Reproduces (methods : List NondetMethod) (unit : CUnit) (target : NondetMethod → Target) (inputs : List Int)
    (tv : TestVector) : Prop :=
  ∀ (program : Tested methods) (fuel : Nat) (ending : Ending Shortage),
    exec program (casting target inputs) fuel program.start 0 = some ending → (∀ reason, ending ≠ .cut reason) →
      ∀ inherited result, Returns unit program tv inherited result ↔
        result = .ok [if ending = .failed then .FALSE else .UNKNOWN]

/-! ### Casts -/

/-- The first bytes of a number are the number modulo a smaller power. -/
theorem agrees_integer_iff_keeps (unit : CUnit) (t : IntType) (v : Int) :
    Agrees unit (integer t) v ↔ unit.Keeps t.size (longLong.word v) := by
  have divides : (2 : Int) ^ t.bits ∣ 2 ^ longLong.bits := by
    apply pow_dvd_pow
    have size := t.size_le
    have whole : longLong.bits = 64 := rfl
    unfold IntType.bits at whole ⊢
    omega
  have front : littleEndianBytes t.size (t.word v) = littleEndianBytes t.size (longLong.word v) := by
    apply t.littleEndianBytes_congr
    rw [t.word_emod, ← Int.emod_emod_of_dvd (longLong.word v : Int) divides, longLong.word_emod,
      Int.emod_emod_of_dvd _ divides]
  change (littleEndianBytes 8 _).take t.size = littleEndianBytes t.size (t.word v) ↔ _
  rw [take_littleEndianBytes t.size_le, front, unit.keeps_iff t.size_le]

/-- A number is cast to the bytes that the harness reads unless the type has eight bytes and the number went through
an `int` that does not have it. -/
theorem agrees_integer_iff (unit : CUnit) (t : IntType) {v : Int} (lower : longLong.min ≤ v) (upper : v ≤ longLong.max) :
    Agrees unit (integer t) v ↔
      unit.declares .strtoull = true ∨ t.width ≠ .w64 ∨ (-2 ^ 31 ≤ v ∧ v < 2 ^ 31) := by
  rw [agrees_integer_iff_keeps]
  by_cases wide : t.width = .w64
  · have size : t.size = longLong.size := by rw [IntType.size, wide]; rfl
    have word := keeps_word_iff unit (t := longLong) ⟨v, lower, upper⟩
    have small : ¬ 2 ^ 64 - 2 ^ 31 ≤ v := Int.not_le.mpr (Int.lt_of_le_of_lt upper (by decide))
    rw [size, word]
    simp only [wide, small, longLong, ne_eq, not_true_eq_false, false_or, or_false]
  · exact iff_of_true (unit.keeps_of_small (IntType.size_le_of_ne wide) _) (Or.inr (Or.inl wide))

/-- The harness takes the lowest byte of a number for a `_Bool`. -/
theorem agrees_bool (unit : CUnit) (v : Int) : Agrees unit bool v ↔ v % 256 = if v = 0 then 0 else 1 := by
  have low := (agrees_integer_iff_keeps unit ⟨.w8, false⟩ v).mpr (unit.keeps_of_small (by decide) _)
  have taken : (cell unit v).take 1 = IntType.bytes ⟨.w8, false⟩ v := low
  have word : IntType.word ⟨.w8, false⟩ v = (v % 256).toNat := rfl
  have bound := Int.emod_lt_of_pos v (show (0 : Int) < 256 by decide)
  have nonneg := Int.emod_nonneg v (show (256 : Int) ≠ 0 by decide)
  change (cell unit v).take 1 = [if v = 0 then 0 else 1] ↔ _
  rw [taken, IntType.bytes, word]
  change [UInt8.ofNat ((v % 256).toNat % 256)] = [if v = 0 then 0 else 1] ↔ _
  rw [List.cons.injEq, eq_self_iff_true, and_true, ← UInt8.toNat_inj, UInt8.toNat_ofNat']
  split <;> simp <;> omega

/-! ### Runs on numbers -/

theorem length_cell (unit : CUnit) (v : Int) : (cell unit v).length = 8 := length_littleEndianBytes _ _

/-- What the harness reads for a number. -/
def front (unit : CUnit) (target : NondetMethod → Target) (method : NondetMethod) (v : Int) : Bytes :=
  (cell unit v).take (target method).size

theorem fronts_cells {unit : CUnit} {target : NondetMethod → Target} (sized : Sized methods unit target) (inputs : List Int) :
    Fronts methods unit (fun method v => some (front unit target method v)) inputs (inputs.map (cell unit)) := by
  intro method member value k v here data put
  obtain rfl := Option.some.inj put
  rw [← sized method member value]
  refine ⟨cell unit v, ?_, ?_, rfl⟩
  · rw [List.getElem?_map, here]
    rfl
  · rw [length_cell]
    exact (target method).size_le

/-- The program that calls the method until the given call, and fails if that one returns the data. -/
def probe (method : {method // method ∈ methods}) (last : Nat) (data : Bytes) : Tested methods where
  State := Nat ⊕ Bool
  start := .inl last
  next
    | .inl (k + 1) => .ask method fun _ => .inl k
    | .inl 0 => .ask method fun written => .inr (written == data)
    | .inr true => .fail
    | .inr false => .exit

section
variable {ι : Type} {store : NondetMethod → ι → Option Bytes} {inputs : List ι} {method : {method // method ∈ methods}}
  {given : ι → Bytes}

theorem stored_ok (value : method.1.isVoid = false) (stores : ∀ input, store method.1 input = some (given input))
    {k : Nat} {input : ι} (here : inputs[k]? = some input) : stored store inputs method k = (.ok (given input), k + 1) := by
  simp only [stored, value, Bool.false_eq_true, if_false, here, stores]

/-- The probe comes to the last call on every list that is long enough, and its ending tells what is given there. -/
theorem exec_probe (value : method.1.isVoid = false) (stores : ∀ input, store method.1 input = some (given input))
    {k last : Nat} {input : ι} (here : inputs[k + last]? = some input) (calls : Nat) (data : Bytes) :
    exec (probe method calls data) (stored store inputs) (last + 2) (.inl last) k =
      some (if given input = data then .failed else .exited) := by
  induction last generalizing k with
  | zero =>
    rw [Nat.add_zero] at here
    have answer := stored_ok value stores here
    rw [exec_ask (show (probe method calls data).next (.inl 0) = .ask method _ from rfl) answer 1]
    by_cases same : given input = data
    · rw [if_pos same, beq_iff_eq.mpr same]
      rfl
    · rw [if_neg same, beq_eq_false_iff_ne.mpr same]
      rfl
  | succ last ih =>
    obtain ⟨inside, -⟩ := List.getElem?_eq_some_iff.mp here
    have answer := stored_ok value stores (List.getElem?_eq_getElem (Nat.lt_of_le_of_lt (Nat.le_add_right k _) inside))
    have rest := ih (k := k + 1) (by rw [← here, Nat.add_assoc, Nat.add_comm 1])
    rw [exec_ask (show (probe method calls data).next (.inl (last + 1)) = .ask method _ from rfl) answer (last + 2)]
    exact rest

end

/-- The tool's findings are reproduced, whatever the program is, if and only if no method that has a value gets a
number that its type casts to other bytes than the harness reads for it. -/
theorem reproduces_iff_agrees {unit : CUnit} {target : NondetMethod → Target} {inputs : List Int} {tv : TestVector}
    (sized : Sized methods unit target) (carries : Carries unit tv (inputs.map (cell unit))) :
    Reproduces methods unit target inputs tv ↔
      ∀ method ∈ methods, method.isVoid = false → ∀ v ∈ inputs, Agrees unit (target method) v := by
  constructor
  · intro reproduces method member value v inside
    by_contra differs
    obtain ⟨k, here⟩ := List.getElem?_of_mem inside
    have there : inputs[0 + k]? = some v := by rwa [Nat.zero_add]
    have failed : exec (probe ⟨method, member⟩ k ((target method).cast v)) (casting target inputs) (k + 2) (.inl k) 0 =
        some .failed := by
      rw [casting, exec_probe value (fun _ => rfl) there, if_pos rfl]
    have exited : exec (probe ⟨method, member⟩ k ((target method).cast v))
        (stored (fun method v => some (front unit target method v)) inputs) (k + 2) (.inl k) 0 = some (.exited : Ending Shortage) := by
      rw [exec_probe value (fun _ => rfl) there]
      exact congrArg some (if_neg differs)
    have same := (reproduces _ _ _ failed (by simp) [] (.ok [.UNKNOWN])).mp
      ((stored_reproduced carries (fronts_cells sized inputs) exited (by simp) [] _).mpr rfl)
    cases same
  · intro agree program fuel ending ran whole
    refine stored_reproduced carries ?_ ran whole
    intro method member value k v here data put
    obtain rfl := Option.some.inj put
    have same := agree method member value v (List.mem_of_getElem? here)
    exact fronts_cells sized inputs method member value k v here _ (congrArg some same)

/-! ### The vectors of numerals -/

def numerals (inputs : List Int) : List Value := inputs.map fun v => .str (integerText v)

theorem plain_integerText {v : Int} {c : Char} (member : c ∈ integerText v) :
    c.toNat < 128 ∧ c ≠ '\n' ∧ c ≠ Char.ofNat 0 ∧ c ≠ ',' ∧ isSpace c = false := by
  rcases mem_integerText member with rfl | digit
  · decide
  · have hex : isHexDigit c = true := by rw [isHexDigit, digit, Bool.true_or]
    obtain ⟨n, small, rfl⟩ := exists_digitChar_of_isHexDigit hex
    have all : ∀ n : Fin 16, n.val.digitChar.toNat < 128 ∧ n.val.digitChar ≠ '\n' ∧ n.val.digitChar ≠ Char.ofNat 0 ∧
        n.val.digitChar ≠ ',' ∧ isSpace n.val.digitChar = false := by decide
    exact all ⟨n, small⟩

theorem mem_encode_integerText {v : Int} {b : UInt8} (member : b ∈ encode (integerText v)) : b ≠ newline ∧ b ≠ 0 := by
  constructor
  · rintro rfl
    exact (plain_integerText (newline_mem_encode.mp member)).2.1 rfl
  · rintro rfl
    obtain ⟨c, inside, code⟩ := (mem_encode_ascii (by decide)).mp member
    exact (plain_integerText inside).2.2.1 (Char.toNat_inj.mp code)

theorem length_encode_integerText (v : longLong.Val) : (encode (integerText v.int)).length ≤ 21 := by
  rw [encode_ascii fun c inside => (plain_integerText inside).1, List.length_map]
  exact length_spelling v .decimal

/-- Words that are equal as `long long` are so when an `int` has kept their low halves. -/
theorem result_congr {unit : CUnit} {word other : Nat} (same : (word : Int) % 2 ^ longLong.bits = other % 2 ^ longLong.bits) :
    littleEndianBytes 8 (unit.result .strtoull word) = littleEndianBytes 8 (unit.result .strtoull other) := by
  have whole : word % 2 ^ 64 = other % 2 ^ 64 := by exact_mod_cast same
  rw [littleEndianBytes_eq_iff_mod]
  unfold CUnit.result
  cases unit.declares .strtoull with
  | true => exact whole
  | false =>
    have low : word % 2 ^ 32 = other % 2 ^ 32 := by omega
    simp only [Bool.false_eq_true, if_false, signExtended, low]

/-- The numbers are all in the range of `long long`. -/
def Fitting (inputs : List Int) : Prop := ∀ v ∈ inputs, longLong.min ≤ v ∧ v ≤ longLong.max

theorem carries_numerals (unit : CUnit) {tv : TestVector} {inputs : List Int} (fitting : Fitting inputs)
    (values : tv.values = numerals inputs) : Carries unit tv (inputs.map (cell unit)) := by
  have lines : tv.lines = inputs.map fun v => encode (integerText v) := by
    rw [TestVector.lines, values, numerals, List.map_map]
    rfl
  refine ⟨TestVector.SingleTyped.joinable (Or.inl ?_), ?_, ?_⟩
  · rw [values]
    intro value member
    obtain ⟨v, -, rfl⟩ := List.mem_map.mp member
    rfl
  · intro line member
    rw [lines] at member
    obtain ⟨v, inside, rfl⟩ := List.mem_map.mp member
    obtain ⟨lower, upper⟩ := fitting v inside
    have short : (encode (integerText v)).length ≤ 21 := length_encode_integerText ⟨v, lower, upper⟩
    refine ⟨fun newline => (mem_encode_integerText newline).1 rfl, ?_⟩
    unfold INP_SIZE
    omega
  · intro k value here
    rw [List.getElem?_map, Option.map_eq_some_iff] at here
    obtain ⟨v, here, rfl⟩ := here
    obtain ⟨lower, upper⟩ := fitting v (List.mem_of_getElem? here)
    obtain ⟨word, converted, same⟩ := convert_spelling unit (t := longLong) ⟨v, lower, upper⟩ .decimal
    have clean : 0 ∉ encode (integerText v) := fun inside => (mem_encode_integerText inside).2 rfl
    refine ⟨encode (integerText v), ?_, fun first => clean (List.mem_of_head? first),
      littleEndianBytes 8 (unit.result .strtoull word), ?_, ?_⟩
    · rw [lines, List.getElem?_map, here]
      rfl
    · rw [cstr_of_not_mem clean]
      exact converted
    · rw [length_cell, List.take_of_length_le (Nat.le_of_eq (length_littleEndianBytes 8 _))]
      apply result_congr
      rw [longLong.word_emod]
      exact same

/-- CREST's test file: one number a line. -/
def numberLines (inputs : List Int) : Str := (inputs.map integerText).flatMap (· ++ ['\n'])

theorem strip_integerText (v : Int) : strip (integerText v) = integerText v := by
  have stripped := @strip_solid [] _ (by simp) (integerText_ne_nil v)
    (fun c inside => (plain_integerText inside).2.2.2.2) []
  simpa using stripped

theorem crest_values (name origin : Str) (inputs : List Int) :
    (Crest.getTestVector ⟨name, origin, numberLines inputs⟩).values = numerals inputs := by
  have clean : ∀ line ∈ inputs.map integerText, '\n' ∉ line := by
    intro line member inside
    obtain ⟨v, -, rfl⟩ := List.mem_map.mp member
    exact (plain_integerText inside).2.1 rfl
  have kept : ((inputs.map integerText).map strip).filter (· ≠ []) = inputs.map integerText := by
    have stripped : (inputs.map integerText).map strip = inputs.map integerText := by
      rw [List.map_map]
      exact List.map_congr_left fun v _ => strip_integerText v
    rw [stripped, List.filter_eq_self]
    intro line member
    obtain ⟨v, -, rfl⟩ := List.mem_map.mp member
    simpa using integerText_ne_nil v
  have last : ([[]].map strip).filter (· ≠ []) = [] := by decide
  have lines : (((numberLines inputs).splitOn '\n').map strip).filter (· ≠ []) = inputs.map integerText := by
    rw [numberLines, splitOn_flatMap_concat clean, List.map_append, List.filter_append, kept, last, List.append_nil]
  have vector := TestVector.foldl_add_vector Value.str (fun _ => none) (inputs.map integerText) (.new name origin)
  rw [TestVector.values, Crest.getTestVector]
  dsimp only
  rw [lines, vector]
  simp [numerals, TestVector.new, Function.comp_def]

/-- CREST's findings on the numbers of a test file are those of the harness, whatever the program is, if and only if
each number that a method can get has the bytes of its cast in front of its cell. -/
theorem crest_reproduced_iff (unit : CUnit) (name origin : Str) {target : NondetMethod → Target} {inputs : List Int}
    (sized : Sized methods unit target) (fitting : Fitting inputs) :
    Reproduces methods unit target inputs (Crest.getTestVector ⟨name, origin, numberLines inputs⟩) ↔
      ∀ method ∈ methods, method.isVoid = false → ∀ v ∈ inputs, Agrees unit (target method) v :=
  reproduces_iff_agrees sized (carries_numerals unit fitting (crest_values name origin inputs))

theorem negativeLine_reproduced : Reproduces [ExecutionRunner.intMethod] bareUnit (fun _ => integer ⟨.w32, true⟩) [-7]
    (Crest.getTestVector ⟨"input.1".toList, "./input.1".toList, numberLines [-7]⟩) ↔
      ∀ method ∈ [ExecutionRunner.intMethod], method.isVoid = false → ∀ v ∈ [(-7 : Int)],
        Agrees bareUnit (integer ⟨.w32, true⟩) v :=
  crest_reproduced_iff bareUnit _ _ (fun _ _ _ => rfl) (by unfold Fitting; decide)

/-! ### CPATiger -/

theorem splitSub_numerals {inputs : List Int} (nonempty : inputs ≠ []) :
    splitSub ", ".toList (", ".toList.intercalate (inputs.map integerText)) = inputs.map integerText := by
  refine splitSub_intercalate (by simpa using nonempty) ?_
  intro part member comma
  obtain ⟨v, -, rfl⟩ := List.mem_map.mp member
  exact (plain_integerText comma).2.2.2.1 rfl

/-- A rendered list is carried by its vector. The empty list has one empty line there, which no run reads. -/
theorem cpaTiger_carries (unit : CUnit) (name origin : Str) {inputs : List Int} (fitting : Fitting inputs) :
    ∃ tv, CpaTiger.getTestVector ⟨name, origin, CpaTiger.render inputs⟩ = .ok tv ∧ Carries unit tv (inputs.map (cell unit)) := by
  refine ⟨_, CpaTiger.getTestVector_render name origin inputs, ?_⟩
  by_cases empty : inputs = []
  · subst empty
    refine ⟨TestVector.SingleTyped.joinable (Or.inl ?_), ?_, ?_⟩
    · intro value member
      obtain rfl : value = .str [] := List.mem_singleton.mp member
      rfl
    · intro line member
      obtain rfl : line = [] := List.mem_singleton.mp member
      exact ⟨List.not_mem_nil, by decide⟩
    · intro k value here
      cases here
  · apply carries_numerals unit fitting
    have vector := TestVector.foldl_add_vector Value.str (fun _ => none) (inputs.map integerText) (.new name origin)
    rw [splitSub_numerals empty, TestVector.values, vector]
    simp [numerals, TestVector.new, Function.comp_def]

/-- The program has integer types and `_Bool` only. -/
def IntegerTyped (methods : List NondetMethod) (target : NondetMethod → Target) : Prop :=
  ∀ method ∈ methods, method.isVoid = false → (∃ t, target method = integer t) ∨ target method = bool

/-- CPATiger's findings on a list of inputs are those of the harness, whatever the program is, if and only if, where
there is a `_Bool` method, the lowest byte of each number says whether the number is zero, and where there is one of a
type of eight bytes, the program declares `strtoull` or each number is one of an `int`. -/
theorem cpaTiger_reproduced_iff (unit : CUnit) (name origin : Str) {target : NondetMethod → Target} {inputs : List Int}
    (sized : Sized methods unit target) (fitting : Fitting inputs) (integers : IntegerTyped methods target) :
    ∃ tv, CpaTiger.getTestVector ⟨name, origin, CpaTiger.render inputs⟩ = .ok tv ∧
      (Reproduces methods unit target inputs tv ↔
        ((∃ method ∈ methods, method.isVoid = false ∧ target method = bool) →
          ∀ v ∈ inputs, v % 256 = if v = 0 then 0 else 1) ∧
        ((∃ method ∈ methods, method.isVoid = false ∧ (target method).size = 8) →
          unit.declares .strtoull = true ∨ ∀ v ∈ inputs, -2 ^ 31 ≤ v ∧ v < 2 ^ 31)) := by
  obtain ⟨tv, made, carries⟩ := cpaTiger_carries unit name origin fitting
  refine ⟨tv, made, (reproduces_iff_agrees sized carries).trans ?_⟩
  constructor
  · intro agree
    refine ⟨?_, ?_⟩
    · rintro ⟨method, member, value, isBool⟩ v inside
      have same := agree method member value v inside
      rw [isBool] at same
      exact (agrees_bool unit v).mp same
    · rintro ⟨method, member, value, wide⟩
      by_contra lost
      rw [not_or, not_forall] at lost
      obtain ⟨undeclared, v, lost⟩ := lost
      rw [Classical.not_imp] at lost
      obtain ⟨inside, beyond⟩ := lost
      have same := agree method member value v inside
      rcases integers method member value with ⟨t, isInteger⟩ | isBool
      · rw [isInteger] at same wide
        rcases (agrees_integer_iff unit t (fitting v inside).1 (fitting v inside).2).mp same with declared | narrow | number
        · exact undeclared declared
        · have small : t.size ≤ 4 := IntType.size_le_of_ne narrow
          have eight : t.size = 8 := wide
          omega
        · exact beyond number
      · rw [isBool] at wide
        cases wide
  · rintro ⟨low, kept⟩ method member value v inside
    rcases integers method member value with ⟨t, isInteger⟩ | isBool
    · rw [isInteger]
      refine (agrees_integer_iff unit t (fitting v inside).1 (fitting v inside).2).mpr ?_
      by_cases wide : t.width = .w64
      · have size : (target method).size = 8 := by
          rw [isInteger]
          exact congrArg Width.size wide
        exact (kept ⟨method, member, value, size⟩).imp_right fun all => Or.inr (all v inside)
      · exact Or.inr (Or.inl wide)
    · rw [isBool]
      exact (agrees_bool unit v).mpr (low ⟨method, member, value, isBool⟩ v inside)

/-- A unit whose methods return `_Bool`. -/
def boolUnit : CUnit := { bareUnit with sizeOf := fun _ => 1 }

theorem twoAsBool_reproduced : ∃ tv, CpaTiger.getTestVector ⟨['0'], "output/testsuite.txt".toList, CpaTiger.render [2]⟩ = .ok tv ∧
    (Reproduces [ExecutionRunner.intMethod] boolUnit (fun _ => bool) [2] tv ↔
      ((∃ method ∈ [ExecutionRunner.intMethod], method.isVoid = false ∧ bool = bool) →
        ∀ v ∈ [(2 : Int)], v % 256 = if v = 0 then 0 else 1) ∧
      ((∃ method ∈ [ExecutionRunner.intMethod], method.isVoid = false ∧ bool.size = 8) →
        boolUnit.declares .strtoull = true ∨ ∀ v ∈ [(2 : Int)], -2 ^ 31 ≤ v ∧ v < 2 ^ 31)) :=
  cpaTiger_reproduced_iff boolUnit _ _ (fun _ _ _ => rfl) (by unfold Fitting; decide) (fun _ _ _ => Or.inr rfl)

end Tbf.CastInputs
