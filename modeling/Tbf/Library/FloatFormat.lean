import Mathlib.Algebra.Order.Field.Power
import Mathlib.Algebra.Order.Field.Rat
import Mathlib.Data.Nat.Prime.Basic
import Mathlib.Tactic.Positivity
import Tbf.Library.CNumber

/-!
# Binary floating-point formats

The finite data of the IEEE interchange formats and of the x87 extended format, little-endian. The x87
format keeps the leading bit of its significand, the others leave it out.
-/

namespace FloatFormat
open Text CNumber

/-- A finite datum. Its sign tells the two zeros apart. -/
structure Datum where
  negative : Bool
  value : ℚ
  deriving DecidableEq

/-- The datum `± significand * 2 ^ power`. -/
def Datum.of (negative : Bool) (significand : Nat) (power : Int) : Datum :=
  ⟨negative, if negative then -(significand * 2 ^ power) else significand * 2 ^ power⟩

structure Ieee where
  exponentBits : Nat
  fractionBits : Nat
  deriving DecidableEq, Repr

def binary32 : Ieee := ⟨8, 23⟩

def binary64 : Ieee := ⟨11, 52⟩

namespace Ieee

def size (f : Ieee) : Nat := (1 + f.exponentBits + f.fractionBits) / 8

def bias (f : Ieee) : Nat := 2 ^ (f.exponentBits - 1) - 1

def fraction (f : Ieee) (word : Nat) : Nat := word % 2 ^ f.fractionBits

def exponent (f : Ieee) (word : Nat) : Nat := word / 2 ^ f.fractionBits % 2 ^ f.exponentBits

def significand (f : Ieee) (word : Nat) : Nat :=
  if f.exponent word = 0 then f.fraction word else 2 ^ f.fractionBits + f.fraction word

def power (f : Ieee) (word : Nat) : Int := max (f.exponent word) 1 - f.bias - f.fractionBits

def decodeWord (f : Ieee) (word : Nat) : Option Datum :=
  if f.exponent word = 2 ^ f.exponentBits - 1 then none
  else some (.of (2 ^ (f.exponentBits + f.fractionBits) ≤ word) (f.significand word) (f.power word))

/-- The finite datum that some bytes encode; infinities and NaNs are none. -/
def decode (f : Ieee) (data : Bytes) : Option Datum :=
  if data.length = f.size then f.decodeWord (Numeral.littleEndian data) else none

end Ieee

/-! ### The x87 format -/

namespace X87

def size : Nat := 16

def significand (data : Bytes) : Nat := Numeral.littleEndian (data.take 8)

def exponent (data : Bytes) : Nat := Numeral.littleEndian ((data.drop 8).take 2) % 2 ^ 15

def power (data : Bytes) : Int := max (exponent data) 1 - 16383 - 63

/-- The leading bit of the significand is set unless the exponent is the least one. -/
def decode (data : Bytes) : Option Datum :=
  if data.length = size ∧ exponent data ≠ 2 ^ 15 - 1 ∧ (exponent data ≠ 0 ↔ 2 ^ 63 ≤ significand data) then
    some (.of (2 ^ 15 ≤ Numeral.littleEndian ((data.drop 8).take 2)) (significand data) (power data))
  else none

end X87

/-! ### Equal values -/

theorem abs_value_of (negative : Bool) (significand : Nat) (power : Int) :
    |(Datum.of negative significand power).value| = significand * 2 ^ power := by
  have nonneg : (0 : ℚ) ≤ significand * 2 ^ power := by positivity
  unfold Datum.of
  dsimp only
  split
  · rw [abs_neg, abs_of_nonneg nonneg]
  · exact abs_of_nonneg nonneg

theorem value_of_eq_zero {negative : Bool} {significand : Nat} {power : Int} :
    (Datum.of negative significand power).value = 0 ↔ significand = 0 := by
  have unit : (2 : ℚ) ^ power ≠ 0 := by positivity
  rw [← abs_eq_zero, abs_value_of, mul_eq_zero, or_iff_left unit, Nat.cast_eq_zero]

theorem Datum.of_zero (power : Int) : Datum.of false 0 power = ⟨false, 0⟩ := by
  simp [Datum.of]

/-- Of two equal values the significand with the smaller power is the other one, shifted. -/
theorem significand_of_value_eq {m n : Nat} {p q : Int} (same : (m : ℚ) * 2 ^ p = n * 2 ^ q) (le : p ≤ q) :
    m = n * 2 ^ (q - p).toNat := by
  have unit : (2 : ℚ) ^ p ≠ 0 := by positivity
  have split : (2 : ℚ) ^ q = 2 ^ (q - p).toNat * 2 ^ p := by
    rw [← zpow_natCast, ← zpow_add₀ (by norm_num)]
    congr 1
    omega
  rw [split, ← mul_assoc] at same
  exact_mod_cast mul_right_cancel₀ unit same

theorem Ieee.significand_lt (f : Ieee) (word : Nat) : f.significand word < 2 ^ (f.fractionBits + 1) := by
  have below : f.fraction word < 2 ^ f.fractionBits := Nat.mod_lt _ (by positivity)
  unfold significand
  rw [Nat.pow_succ]
  split <;> omega

theorem X87.decode_eq_some {data : Bytes} {x : Datum} (decoded : X87.decode data = some x) :
    data.length = X87.size ∧ (X87.exponent data ≠ 0 ↔ 2 ^ 63 ≤ X87.significand data) ∧
      |x.value| = X87.significand data * 2 ^ X87.power data := by
  obtain ⟨⟨size, _, normal⟩, made⟩ := Option.ite_none_right_eq_some.mp decoded
  rw [← Option.some.inj made]
  exact ⟨size, normal, abs_value_of _ _ _⟩

theorem Ieee.decodeWord_eq_some {f : Ieee} {word : Nat} {x : Datum} (decoded : f.decodeWord word = some x) :
    |x.value| = f.significand word * 2 ^ f.power word ∧ f.exponent word ≠ 2 ^ f.exponentBits - 1 := by
  obtain ⟨finite, made⟩ := Option.ite_none_left_eq_some.mp decoded
  rw [← Option.some.inj made]
  exact ⟨abs_value_of _ _ _, finite⟩

/-- A value of a narrower format is normal in the x87 format, where its significand is shifted to the top. -/
theorem X87.significand_shifted {f : Ieee} (narrow : f.fractionBits ≤ 52) (range : f.bias + f.fractionBits ≤ 1075)
    {data : Bytes} {word : Nat} {x y : Datum} (wide : X87.decode data = some x) (decoded : f.decodeWord word = some y)
    (same : x.value = y.value) (nonzero : x.value ≠ 0) :
    2 ^ 63 ≤ X87.significand data ∧ ∃ j, X87.significand data = f.significand word * 2 ^ j := by
  obtain ⟨_, normal, wideValue⟩ := X87.decode_eq_some wide
  have value := (Ieee.decodeWord_eq_some decoded).1
  rw [← same, wideValue] at value
  have least : (-16445 : Int) ≤ X87.power data ∧ (X87.exponent data = 0 → X87.power data = -16445) := by
    unfold X87.power
    omega
  have power : (-1074 : Int) ≤ f.power word := by
    unfold Ieee.power
    omega
  have small : f.significand word < 2 ^ 63 :=
    Nat.lt_of_lt_of_le (f.significand_lt word) (Nat.pow_le_pow_right (by decide) (by omega))
  have positive : 0 < f.significand word := by
    apply Nat.pos_of_ne_zero
    intro zero
    rw [zero, Nat.cast_zero, zero_mul, ← wideValue, abs_eq_zero] at value
    exact nonzero value
  have order : X87.power data ≤ f.power word := by
    by_contra above
    have shifted := significand_of_value_eq value.symm (le_of_not_ge above)
    have larger : X87.significand data ≤ f.significand word :=
      shifted ▸ Nat.le_mul_of_pos_right _ (by positivity)
    have subnormal : X87.exponent data = 0 := by
      by_contra exponent
      have top := normal.mp exponent
      omega
    have := least.2 subnormal
    omega
  have shifted := significand_of_value_eq value order
  refine ⟨?_, _, shifted⟩
  by_contra low
  have subnormal : X87.exponent data = 0 := not_not.mp fun exponent => low (normal.mp exponent)
  have far := least.2 subnormal
  have top : 2 ^ 63 ≤ 2 ^ (f.power word - X87.power data).toNat := Nat.pow_le_pow_right (by decide) (by omega)
  have := Nat.le_mul_of_pos_left (2 ^ (f.power word - X87.power data).toNat) positive
  omega

/-! ### The low bytes of an x87 datum -/

theorem littleEndian_take {data : Bytes} {m n : Nat} (fewer : m ≤ n) (long : n ≤ data.length) :
    Numeral.littleEndian (data.take m) = Numeral.littleEndian (data.take n) % 256 ^ m := by
  have size : (data.take n).length = n := by simpa using long
  have bytes := littleEndianBytes_littleEndian (data.take n)
  rw [size] at bytes
  have low := take_littleEndianBytes fewer (Numeral.littleEndian (data.take n))
  rw [bytes, List.take_take, Nat.min_eq_left fewer] at low
  rw [low, littleEndian_littleEndianBytes]

/-- The low half of a significand of at most 24 bits is empty. -/
theorem binary32_low {data : Bytes} {x y : Datum} (wide : X87.decode data = some x) (nonzero : x.value ≠ 0)
    (decoded : binary32.decodeWord (X87.significand data % 2 ^ 32) = some y) : y.value ≠ x.value := by
  intro same
  obtain ⟨top, j, shifted⟩ := X87.significand_shifted (by decide) (by decide) wide decoded same.symm nonzero
  have small : binary32.significand (X87.significand data % 2 ^ 32) < 2 ^ 24 := Ieee.significand_lt _ _
  have far : 32 ≤ j := by
    by_contra near
    have power : 2 ^ j ≤ 2 ^ 31 := Nat.pow_le_pow_right (by decide) (by omega)
    have product := Nat.mul_le_mul (Nat.le_of_lt small) power
    omega
  have divides : 2 ^ 32 ∣ X87.significand data := by
    rw [shifted]
    exact Dvd.dvd.mul_left (Nat.pow_dvd_pow 2 far) _
  rw [Nat.mod_eq_zero_of_dvd divides] at decoded
  have zero : y.value = 0 := by
    rw [← Option.some.inj decoded]
    exact value_of_eq_zero.mpr rfl
  exact nonzero (same.symm.trans zero)

/-- The leading bit of the significand is taken for the sign, and the rest cannot be exponent and fraction
of the same number. -/
theorem binary64_low {data : Bytes} {x y : Datum} (wide : X87.decode data = some x) (nonzero : x.value ≠ 0)
    (bounded : X87.significand data < 2 ^ 64)
    (decoded : binary64.decodeWord (X87.significand data) = some y) : y.value ≠ x.value := by
  intro same
  obtain ⟨top, j, shifted⟩ := X87.significand_shifted (by decide) (by decide) wide decoded same.symm nonzero
  have finite := (Ieee.decodeWord_eq_some decoded).2
  generalize X87.significand data = word at *
  have fields : word = 2 ^ 63 + binary64.exponent word * 2 ^ 52 + binary64.fraction word := by
    simp only [Ieee.exponent, Ieee.fraction, binary64]
    omega
  have fraction : binary64.fraction word < 2 ^ 52 := Nat.mod_lt _ (by decide)
  have exponent : binary64.exponent word < 2 ^ 11 := Nat.mod_lt _ (by decide)
  have small : binary64.significand word < 2 ^ 53 := Ieee.significand_lt _ _
  have shift : 11 ≤ j := by
    by_contra near
    have power : 2 ^ j ≤ 2 ^ 10 := Nat.pow_le_pow_right (by decide) (by omega)
    have product := Nat.mul_le_mul (Nat.le_sub_one_of_lt small) power
    omega
  by_cases subnormal : binary64.exponent word = 0
  · -- The fraction would divide `2 ^ 63`, so it is a power of two below `2 ^ 52`.
    have whole : binary64.significand word = binary64.fraction word := if_pos subnormal
    rw [whole] at shifted
    rw [subnormal] at fields
    have sum : binary64.fraction word * 2 ^ j = 2 ^ 63 + binary64.fraction word := by omega
    have divides : binary64.fraction word ∣ 2 ^ 63 :=
      (Nat.dvd_add_left (dvd_refl _)).mp (sum ▸ Dvd.intro _ rfl)
    obtain ⟨a, _, power⟩ := (Nat.dvd_prime_pow Nat.prime_two).mp divides
    rw [power, ← Nat.pow_add] at sum
    rw [power] at fraction
    rcases Nat.lt_or_ge 63 (a + j) with above | below
    · have := Nat.pow_le_pow_right (show 0 < 2 by decide) above
      omega
    · have := Nat.pow_le_pow_right (show 0 < 2 by decide) below
      have := Nat.pow_pos (n := a) (show 0 < 2 by decide)
      omega
  · have whole : binary64.significand word = 2 ^ 52 + binary64.fraction word := if_neg subnormal
    have top : j < 12 := by
      by_contra far
      have power : 2 ^ 12 ≤ 2 ^ j := Nat.pow_le_pow_right (by decide) (by omega)
      have product := Nat.mul_le_mul (show 2 ^ 52 ≤ binary64.significand word by omega) power
      omega
    obtain rfl : j = 11 := by omega
    have notLast : binary64.exponent word ≠ 2047 := finite
    omega

/-- The first bytes of an x87 datum, read in an interchange format, are positive zero for a zero, and for
every other value they are not this value. -/
theorem decode_take_x87 {f : Ieee} (format : f = binary32 ∨ f = binary64) {data : Bytes} {x : Datum}
    (wide : X87.decode data = some x) :
    (x.value = 0 → f.decode (data.take f.size) = some ⟨false, 0⟩) ∧
      (x.value ≠ 0 → ∀ y, f.decode (data.take f.size) = some y → y.value ≠ x.value) := by
  obtain ⟨size, _, value⟩ := X87.decode_eq_some wide
  have long : 8 ≤ data.length := by
    rw [size]
    decide
  have bounded : X87.significand data < 2 ^ 64 := by
    have below := Numeral.littleEndian_lt (data.take 8)
    rwa [List.length_take, Nat.min_eq_left long] at below
  have decoded : f.decode (data.take f.size) = f.decodeWord (X87.significand data % 256 ^ f.size) := by
    have fits : f.size ≤ 8 := by rcases format with rfl | rfl <;> decide
    rw [Ieee.decode, if_pos (by simp; omega), littleEndian_take fits long]
    rfl
  rw [decoded]
  constructor
  · intro zero
    rw [zero, abs_zero, eq_comm, mul_eq_zero, Nat.cast_eq_zero] at value
    have significand : X87.significand data = 0 := value.resolve_right (by positivity)
    rw [significand, Nat.zero_mod]
    rcases format with rfl | rfl
    · exact congrArg some (Datum.of_zero (binary32.power 0))
    · exact congrArg some (Datum.of_zero (binary64.power 0))
  · intro nonzero y read
    rcases format with rfl | rfl
    · exact binary32_low wide nonzero read
    · rw [Nat.mod_eq_of_lt (show X87.significand data < 256 ^ binary64.size from bounded)] at read
      exact binary64_low wide nonzero bounded read

/-! ### Integers -/

/-- An integer of 32 bits stands at the top of the significand, so the low half is empty. -/
theorem X87.significand_of_int {data : Bytes} {x : Datum} {n : Int} (wide : X87.decode data = some x) (value : x.value = n)
    (small : n.natAbs ≤ 2 ^ 31) : X87.significand data % 2 ^ 32 = 0 := by
  obtain ⟨_, normal, magnitude⟩ := X87.decode_eq_some wide
  have integer : (X87.significand data : ℚ) * 2 ^ X87.power data = (n.natAbs : ℚ) * 2 ^ (0 : Int) := by
    rw [← magnitude, value, zpow_zero, mul_one]
    exact_mod_cast (Nat.cast_natAbs n).symm
  have least : X87.exponent data = 0 → X87.power data = -16445 := by
    unfold X87.power
    omega
  by_cases zero : n.natAbs = 0
  · rw [zero, Nat.cast_zero, zero_mul, mul_eq_zero, Nat.cast_eq_zero] at integer
    rw [integer.resolve_right (by positivity), Nat.zero_mod]
  · have below : X87.power data ≤ 0 := by
      by_contra above
      have shifted := significand_of_value_eq integer.symm (le_of_not_ge above)
      have larger : X87.significand data ≤ n.natAbs := shifted ▸ Nat.le_mul_of_pos_right _ (by positivity)
      have subnormal : X87.exponent data = 0 := by
        by_contra exponent
        have top := normal.mp exponent
        omega
      have := least subnormal
      omega
    have shifted := significand_of_value_eq integer below
    have far : 32 ≤ (0 - X87.power data).toNat := by
      by_contra near
      have power : 2 ^ (0 - X87.power data).toNat ≤ 2 ^ 31 := Nat.pow_le_pow_right (by decide) (by omega)
      have product := Nat.mul_le_mul small power
      have subnormal : X87.exponent data = 0 := by
        by_contra exponent
        have top := normal.mp exponent
        omega
      have := least subnormal
      omega
    rw [shifted]
    exact Nat.mod_eq_zero_of_dvd (Dvd.dvd.mul_left (Nat.pow_dvd_pow 2 far) _)

end FloatFormat
