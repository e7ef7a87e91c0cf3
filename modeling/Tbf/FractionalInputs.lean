import Tbf.Library.DecimalFraction
import Tbf.Library.FloatFormat
import Tbf.ParseInp

/-!
# Fractional values

`parse_inp` stores a decimal fraction as a `long double`, and the nondet method reads the first bytes of it
as its own type.
-/

namespace Tbf.Harness
open Text CNumber DecimalFraction FloatFormat

inductive FloatType where
  | float | double
  deriving DecidableEq, Repr

def FloatType.format : FloatType → Ieee
  | float => binary32
  | double => binary64

def datum (d : Decimal) : Datum := ⟨d.negative, d.value⟩

/-- The first bytes of the indefinite value, which an x87 stack gives that is full. -/
def indefinite : Bytes := [0, 0, 0, 0, 0, 0, 0, 0xC0, 0xFF, 0xFF]

/-- What an undeclared `strtold` can leave: the `long double` that is made of an `int`, or the indefinite value, since no
call takes its result off the x87 stack. -/
def Stray (data : Bytes) : Prop :=
  (data.length = X87.size ∧ data.take 10 = indefinite) ∨
    ∃ x, X87.decode data = some x ∧ ∃ n : Int, x.value = n ∧ -2 ^ 31 ≤ n ∧ n < 2 ^ 31

/-- What `parse_inp` does if an undeclared `strtold` leaves these bytes. -/
def leaving (data : Bytes) : Parsed → Parsed
  | .stray => .value data
  | parsed => parsed

/-- `*((T *) parse_inp(inp))` satisfies `good`, whatever `malloc` left in the buffer and an undeclared `strtold` leaves. -/
def DeliversAny (unit : CUnit) (type : FloatType) (inp : Bytes) (good : Datum → Prop) : Prop :=
  ∀ data, Stray data → ∃ written y, leaving data (parseInp unit inp) = .value written ∧
    (∀ junk, type.format.decode (readAs type.format.size written junk) = some y) ∧ good y

def Delivers (unit : CUnit) (type : FloatType) (inp : Bytes) (x : Datum) : Prop := DeliversAny unit type inp (· = x)

/-- Neither integer scan takes the whole numeral, so it is stored as a `long double`. -/
theorem parseInp_decimal (unit : CUnit) (d : Decimal) : parseInp unit (encode d.text) =
    if unit.declares .strtold then .value (unit.strtold (encode d.text)) else .stray := by
  have there : point ∈ encode d.text := by
    rw [Decimal.text, encode_append, encode_body]
    simp
  have oneLine : newline ∉ encode d.text := by
    rw [newline_mem_encode]
    exact (x_not_mem_text d).2.2
  have chomped := parseInp_oneLine unit (List.ne_nil_of_mem there) oneLine
  have unsigned := strtoull_stops there
  have signed := strtoll_stops there
  rw [chomped]
  unfold convert
  generalize strtoull (encode d.text) = first at unsigned
  generalize strtoll (encode d.text) = second at signed
  obtain ⟨intVal, parseEnd⟩ := first
  obtain ⟨sintVal, parseEnd'⟩ := second
  dsimp only
  rw [if_pos unsigned, if_pos signed, strtoldRest_text, if_neg (by simp)]
  split <;> rfl

theorem size_le_of_length {type : FloatType} {data : Bytes} (size : data.length = X87.size) :
    type.format.size ≤ data.length := by
  rw [size]
  cases type <;> decide

theorem delivers_of_written {unit : CUnit} {type : FloatType} {d : Decimal} {data written : Bytes}
    (made : leaving data (parseInp unit (encode d.text)) = .value written) (size : written.length = X87.size)
    {good : Datum → Prop} :
    (∃ written y, leaving data (parseInp unit (encode d.text)) = .value written ∧
        (∀ junk, type.format.decode (readAs type.format.size written junk) = some y) ∧ good y) ↔
      ∃ y, type.format.decode (written.take type.format.size) = some y ∧ good y := by
  have read : ∀ junk, readAs type.format.size written junk = written.take type.format.size :=
    fun junk => List.take_append_of_le_length (size_le_of_length size)
  constructor
  · rintro ⟨_, y, same, all, fine⟩
    obtain rfl := Parsed.value.inj (made.symm.trans same)
    exact ⟨y, read [] ▸ all [], fine⟩
  · rintro ⟨y, decoded, fine⟩
    exact ⟨written, y, made, fun junk => (read junk).symm ▸ decoded, fine⟩

/-! ### What is left where nothing is declared -/

theorem length_stray {data : Bytes} (stray : Stray data) : data.length = X87.size := by
  rcases stray with ⟨size, _⟩ | ⟨_, decoded, _⟩
  · exact size
  · exact (X87.decode_eq_some decoded).1

theorem stray_float {data : Bytes} (stray : Stray data) : binary32.decode (data.take binary32.size) = some ⟨false, 0⟩ := by
  have long : 8 ≤ data.length := by
    rw [length_stray stray]
    decide
  have low : Numeral.littleEndian (data.take 4) = 0 := by
    rcases stray with ⟨_, front⟩ | ⟨x, decoded, n, value, lower, upper⟩
    · have taken : data.take 4 = indefinite.take 4 := by rw [← front, List.take_take, Nat.min_eq_left (by decide)]
      rw [taken]
      decide
    · rw [littleEndian_take (show 4 ≤ 8 by decide) long]
      exact X87.significand_of_int decoded value (by omega)
  have size : (data.take binary32.size).length = binary32.size := by
    rw [List.length_take]
    exact Nat.min_eq_left (Nat.le_trans (by decide) long)
  rw [Ieee.decode, if_pos size, show binary32.size = 4 from rfl, low]
  exact congrArg some (Datum.of_zero _)

def zeroBytes : Bytes := List.replicate 16 0

def indefiniteBytes : Bytes := indefinite ++ List.replicate 6 0

theorem stray_zeroBytes : Stray zeroBytes := by
  have significand : X87.significand zeroBytes = 0 := by decide
  refine Or.inr ⟨⟨false, 0⟩, ?_, 0, by simp, by decide, by decide⟩
  rw [X87.decode, if_pos (by decide), significand]
  exact congrArg some (Datum.of_zero _)

theorem stray_indefiniteBytes : Stray indefiniteBytes := Or.inl (by decide)

theorem decode_zeroBytes : binary64.decode (zeroBytes.take 8) = some ⟨false, 0⟩ := by
  have word : Numeral.littleEndian (zeroBytes.take 8) = 0 := by decide
  rw [Ieee.decode, if_pos (by decide), word]
  exact congrArg some (Datum.of_zero _)

theorem decode_indefiniteBytes : binary64.decode (indefiniteBytes.take 8) = some ⟨true, -2⟩ := by
  have word : Numeral.littleEndian (indefiniteBytes.take 8) = 0xC000000000000000 := by decide
  have exponent : binary64.exponent 0xC000000000000000 = 1024 := by decide
  have significand : binary64.significand 0xC000000000000000 = 2 ^ 52 := by decide
  have power : binary64.power 0xC000000000000000 = -51 := by decide
  rw [Ieee.decode, if_pos (by decide), word, Ieee.decodeWord, if_neg (by rw [exponent]; decide), significand, power,
    decide_eq_true (by decide), Datum.of]
  norm_num

/-- A `float` is read from the low half of a significand, where nothing of an `int` is; a `double` can be anything. -/
theorem deliversAny_bare {unit : CUnit} (bare : unit.declares .strtold = false) (type : FloatType) (d : Decimal)
    {good : Datum → Prop} (apart : ¬ (good ⟨false, 0⟩ ∧ good ⟨true, -2⟩)) :
    DeliversAny unit type (encode d.text) good ↔ good ⟨false, 0⟩ ∧ type = .float := by
  have made : ∀ data, leaving data (parseInp unit (encode d.text)) = .value data := by
    intro data
    rw [parseInp_decimal, if_neg (by simp [bare])]
    rfl
  have each : DeliversAny unit type (encode d.text) good ↔
      ∀ data, Stray data → ∃ y, type.format.decode (data.take type.format.size) = some y ∧ good y :=
    forall_congr' fun data => imp_congr_right fun stray => delivers_of_written (made data) (length_stray stray)
  rw [each]
  cases type with
  | float =>
    constructor
    · intro all
      obtain ⟨y, decoded, fine⟩ := all _ stray_zeroBytes
      obtain rfl := Option.some.inj ((stray_float stray_zeroBytes).symm.trans decoded)
      exact ⟨fine, rfl⟩
    · rintro ⟨fine, _⟩ data stray
      exact ⟨_, stray_float stray, fine⟩
  | double =>
    refine iff_of_false (fun all => apart ?_) (by simp)
    obtain ⟨y, decoded, fine⟩ := all _ stray_zeroBytes
    obtain ⟨z, decoded', fine'⟩ := all _ stray_indefiniteBytes
    obtain rfl := Option.some.inj (decode_zeroBytes.symm.trans decoded)
    obtain rfl := Option.some.inj (decode_indefiniteBytes.symm.trans decoded')
    exact ⟨fine, fine'⟩

theorem deliversAny_declared {unit : CUnit} (declared : unit.declares .strtold = true) {type : FloatType} {d : Decimal}
    (exact : X87.decode (unit.strtold (encode d.text)) = some (datum d)) {good : Datum → Prop} :
    DeliversAny unit type (encode d.text) good ↔
      ∃ y, type.format.decode ((unit.strtold (encode d.text)).take type.format.size) = some y ∧ good y := by
  have made : ∀ data, leaving data (parseInp unit (encode d.text)) = .value (unit.strtold (encode d.text)) := by
    intro data
    rw [parseInp_decimal, if_pos declared]
    rfl
  have size := (X87.decode_eq_some exact).1
  constructor
  · intro all
    exact (delivers_of_written (made zeroBytes) size).mp (all _ stray_zeroBytes)
  · intro decoded data _
    exact (delivers_of_written (made data) size).mpr decoded

/-- Of the decimal fractions only the zeros come out as the number they denote, and a negative zero comes out as the
positive one: for a `double` where the program declares `strtold`, for a `float` in every program. -/
theorem delivers_fraction_iff (unit : CUnit) (type : FloatType) (d : Decimal)
    (exact : X87.decode (unit.strtold (encode d.text)) = some (datum d)) :
    (Delivers unit type (encode d.text) (datum d) ↔
        (d.value = 0 ∧ d.negative = false) ∧ (unit.declares .strtold = true ∨ type = .float)) ∧
      (DeliversAny unit type (encode d.text) (fun y => y.value = d.value) ↔
        d.value = 0 ∧ (unit.declares .strtold = true ∨ type = .float)) := by
  have positive : (⟨false, 0⟩ : Datum) = datum d ↔ d.value = 0 ∧ d.negative = false := by
    rw [datum, Datum.mk.injEq, and_comm, eq_comm, @eq_comm _ false]
  cases declared : unit.declares .strtold with
  | false =>
    simp only [Bool.false_eq_true, false_or]
    constructor
    · rw [← positive, Delivers, deliversAny_bare declared type d]
      rintro ⟨same, same'⟩
      have signs := congrArg Datum.negative (same.trans same'.symm)
      cases signs
    · rw [deliversAny_bare declared type d, @eq_comm _ _ d.value]
      rintro ⟨same, same'⟩
      have values := same.trans same'.symm
      norm_num at values
  | true =>
    have format : type.format = binary32 ∨ type.format = binary64 := by
      cases type
      · exact Or.inl rfl
      · exact Or.inr rfl
    obtain ⟨zero, nonzero⟩ := decode_take_x87 format exact
    have isZero : ∀ {y}, type.format.decode ((unit.strtold (encode d.text)).take type.format.size) = some y →
        y.value = d.value → d.value = 0 := by
      intro y decoded same
      by_contra other
      exact nonzero other y decoded same
    simp only [true_or, and_true]
    rw [Delivers, deliversAny_declared declared exact, deliversAny_declared declared exact]
    constructor
    · rw [← positive]
      constructor
      · rintro ⟨y, decoded, rfl⟩
        exact Option.some.inj ((zero (isZero decoded rfl)).symm.trans decoded)
      · intro same
        exact ⟨_, zero (positive.mp same).1, same⟩
    · constructor
      · rintro ⟨y, decoded, same⟩
        exact isZero decoded same
      · intro none
        exact ⟨_, zero none, none.symm⟩

/-- `0.5`, whose significand in the x87 format is its leading bit alone. -/
def half : Decimal where
  sign := none
  whole := .of ['0'] (by decide)
  fraction := .of ['5'] (by decide)
  exponent := none
  nonempty := by simp [DigitText.of]

def halfBytes : Bytes := [0, 0, 0, 0, 0, 0, 0, 0x80, 0xFE, 0x3F, 0, 0, 0, 0, 0, 0]

theorem half_value : half.value = 1 / 2 := by
  have digits : Nat.ofDigitChars 10 ['0', '5'] 0 = 5 := rfl
  norm_num [Decimal.value, Decimal.negative, Decimal.magnitude, half, DigitText.of, digits]

theorem decode_halfBytes : X87.decode halfBytes = some (datum half) := by
  have significand : X87.significand halfBytes = 2 ^ 63 := by decide
  have power : X87.power halfBytes = -64 := by decide
  have sign : ¬ 2 ^ 15 ≤ Numeral.littleEndian ((halfBytes.drop 8).take 2) := by decide
  rw [X87.decode, if_pos ⟨rfl, by decide, by decide⟩, significand, power, Datum.of, decide_eq_false sign, datum,
    half_value]
  norm_num [half, Decimal.negative]

/-- A program that declares all of the parsers, with a `strtold` that knows this one numeral. -/
def halfUnit : CUnit := ⟨fun _ => true, fun _ => halfBytes, fun _ => 8⟩

theorem delivers_fraction_iff_half :
    (Delivers halfUnit .double (encode half.text) (datum half) ↔
        (half.value = 0 ∧ half.negative = false) ∧ (halfUnit.declares .strtold = true ∨ FloatType.double = .float)) ∧
      (DeliversAny halfUnit .double (encode half.text) (fun y => y.value = half.value) ↔
        half.value = 0 ∧ (halfUnit.declares .strtold = true ∨ FloatType.double = .float)) :=
  delivers_fraction_iff halfUnit .double half decode_halfBytes

/-- `0.5` is a double and exact as a `long double`, and yet a nondet method of type double returns `-0.0`. -/
theorem half_not_delivered :
    X87.decode halfBytes = some (datum half) ∧
      binary64.decode [0, 0, 0, 0, 0, 0, 0xE0, 0x3F] = some (datum half) ∧
      Delivers halfUnit .double (encode half.text) ⟨true, 0⟩ ∧
      ¬ Delivers halfUnit .double (encode half.text) (datum half) := by
  have negativeZero : binary64.decode (halfBytes.take 8) = some ⟨true, 0⟩ := by
    have word : Numeral.littleEndian (halfBytes.take 8) = 2 ^ 63 := by decide
    rw [Ieee.decode, if_pos (by decide), word]
    show some (Datum.of true 0 _) = _
    simp [Datum.of]
  have delivered : ∀ x, Delivers halfUnit .double (encode half.text) x ↔ (⟨true, 0⟩ : Datum) = x := by
    intro x
    rw [Delivers, deliversAny_declared rfl decode_halfBytes]
    constructor
    · rintro ⟨y, decoded, rfl⟩
      exact Option.some.inj (negativeZero.symm.trans decoded)
    · rintro rfl
      exact ⟨_, negativeZero, rfl⟩
  refine ⟨decode_halfBytes, ?_, (delivered _).mpr rfl, ?_⟩
  · have word : Numeral.littleEndian [0, 0, 0, 0, 0, 0, 0xE0, 0x3F] = 0x3FE0000000000000 := by decide
    rw [Ieee.decode, if_pos (by decide), word]
    show some (Datum.of false (2 ^ 52) (-53)) = _
    rw [datum, half_value, Datum.of]
    norm_num [half, Decimal.negative]
  · rw [delivered]
    intro same
    have sign := congrArg Datum.negative same
    cases sign

end Tbf.Harness
