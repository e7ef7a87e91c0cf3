import Tbf.Library.CNumber

/-!
# Integer types

The integer types of C by their width and sign, and the little-endian bytes of their values in two's
complement.
-/

namespace CInteger
open Text CNumber

inductive Width where
  | w8 | w16 | w32 | w64
  deriving DecidableEq, Repr

def Width.size : Width → Nat
  | w8 => 1
  | w16 => 2
  | w32 => 4
  | w64 => 8

structure IntType where
  width : Width
  signed : Bool
  deriving DecidableEq, Repr

namespace IntType

def size (t : IntType) : Nat := t.width.size

def bits (t : IntType) : Nat := 8 * t.size

def min (t : IntType) : Int := if t.signed then -2 ^ (t.bits - 1) else 0

def max (t : IntType) : Int := if t.signed then 2 ^ (t.bits - 1) - 1 else 2 ^ t.bits - 1

structure Val (t : IntType) where
  int : Int
  lower : t.min ≤ int
  upper : int ≤ t.max

/-- The word that stands for an integer, which is its residue modulo `2 ^ bits`. -/
def word (t : IntType) (v : Int) : Nat := (v % 2 ^ t.bits).toNat

def bytes (t : IntType) (v : Int) : Bytes := littleEndianBytes t.size (t.word v)

def decode (t : IntType) (data : Bytes) : Int :=
  let word := Numeral.littleEndian data
  if t.signed ∧ 2 ^ (t.bits - 1) ≤ word then word - 2 ^ t.bits else word

theorem size_le (t : IntType) : t.size ≤ 8 := by
  unfold size Width.size
  split <;> omega

theorem size_pos (t : IntType) : 0 < t.size := by
  unfold size Width.size
  split <;> omega

theorem size_le_of_ne {t : IntType} (narrow : t.width ≠ .w64) : t.size ≤ 4 := by
  unfold size
  cases width : t.width with
  | w64 => exact absurd width narrow
  | w8 | w16 | w32 => decide

theorem two_pow_bits (t : IntType) : 2 ^ t.bits = 256 ^ t.size := by
  rw [bits, Nat.pow_mul]

/-- The two powers that bound a type, with the half as the common unit. -/
theorem two_pow_half (t : IntType) : 2 ^ t.bits = 2 * 2 ^ (t.bits - 1) := by
  have positive := t.size_pos
  rw [← Nat.pow_succ']
  congr 1
  unfold bits
  omega

theorem word_lt (t : IntType) (v : Int) : t.word v < 256 ^ t.size := by
  have positive : (0 : Int) < 2 ^ t.bits := by positivity
  have below := Int.emod_lt_of_pos v positive
  have nonneg := Int.emod_nonneg v (Int.ne_of_gt positive)
  rw [← two_pow_bits, word]
  zify
  omega

theorem littleEndian_bytes (t : IntType) (v : Int) : Numeral.littleEndian (t.bytes v) = t.word v := by
  rw [bytes, littleEndian_littleEndianBytes, Nat.mod_eq_of_lt (t.word_lt v)]

/-- The residue of a value is the value, or it is one modulus above a negative value. -/
theorem Val.emod {t : IntType} (v : t.Val) :
    v.int % 2 ^ t.bits = if v.int < 0 then v.int + 2 ^ t.bits else v.int := by
  have half : (2 : Int) ^ t.bits = 2 * 2 ^ (t.bits - 1) := by exact_mod_cast t.two_pow_half
  have positive : (0 : Int) < 2 ^ (t.bits - 1) := by positivity
  have lower := v.lower
  have upper := v.upper
  unfold min at lower
  unfold max at upper
  split
  · rename_i negative
    rw [← Int.add_emod_right]
    apply Int.emod_eq_of_lt
    · split at lower <;> omega
    · omega
  · rename_i nonneg
    apply Int.emod_eq_of_lt
    · omega
    · split at upper <;> omega

/-- The low bytes of any word that agrees with a value modulo `2 ^ bits` are read as this value. -/
theorem decode_littleEndianBytes {t : IntType} (v : t.Val) {word : Nat}
    (same : (word : Int) % 2 ^ t.bits = v.int % 2 ^ t.bits) :
    t.decode (littleEndianBytes t.size word) = v.int := by
  have half : (2 : Int) ^ t.bits = 2 * 2 ^ (t.bits - 1) := by exact_mod_cast t.two_pow_half
  have low : ((Numeral.littleEndian (littleEndianBytes t.size word) : Nat) : Int) =
      if v.int < 0 then v.int + 2 ^ t.bits else v.int := by
    rw [littleEndian_littleEndianBytes, ← two_pow_bits, ← v.emod, ← same]
    norm_cast
  have lower := v.lower
  have upper := v.upper
  unfold min at lower
  unfold max at upper
  unfold decode
  dsimp only
  generalize Numeral.littleEndian (littleEndianBytes t.size word) = w at low ⊢
  obtain ⟨h, unit⟩ : ∃ h : Nat, 2 ^ (t.bits - 1) = h := ⟨_, rfl⟩
  have intUnit : (2 : Int) ^ (t.bits - 1) = h := by exact_mod_cast unit
  rw [intUnit] at half lower upper
  rw [half] at low upper ⊢
  rw [unit]
  cases signed : t.signed with
  | true =>
    simp only [signed, if_true] at lower upper
    split at low
    · rw [if_pos ⟨rfl, by omega⟩]
      omega
    · rw [if_neg (by omega)]
      exact low
  | false =>
    simp only [signed, Bool.false_eq_true, if_false] at lower upper
    rw [if_neg (by simp)]
    split at low
    · omega
    · exact low

theorem decode_emod (t : IntType) (data : Bytes) :
    t.decode data % 2 ^ t.bits = (Numeral.littleEndian data : Int) % 2 ^ t.bits := by
  unfold decode
  dsimp only
  split
  · exact Int.sub_emod_right _ _
  · rfl

/-- The low bytes of a word are read as a value exactly if both agree modulo `2 ^ bits`. -/
theorem decode_eq_iff {t : IntType} (v : t.Val) (word : Nat) :
    t.decode (littleEndianBytes t.size word) = v.int ↔ (word : Int) % 2 ^ t.bits = v.int % 2 ^ t.bits := by
  refine ⟨fun read => ?_, decode_littleEndianBytes v⟩
  rw [← read, t.decode_emod, littleEndian_littleEndianBytes, ← t.two_pow_bits]
  push_cast
  rw [Int.emod_emod]

theorem littleEndianBytes_congr (t : IntType) {value other : Nat}
    (same : (value : Int) % 2 ^ t.bits = (other : Int) % 2 ^ t.bits) :
    littleEndianBytes t.size value = littleEndianBytes t.size other := by
  have equal : value % 256 ^ t.size = other % 256 ^ t.size := by
    rw [← t.two_pow_bits]
    exact_mod_cast same
  rw [← littleEndianBytes_mod, equal, littleEndianBytes_mod]

theorem word_emod (t : IntType) (v : Int) : (t.word v : Int) % 2 ^ t.bits = v % 2 ^ t.bits := by
  have nonneg := Int.emod_nonneg v (show (2 : Int) ^ t.bits ≠ 0 by positivity)
  rw [word, Int.toNat_of_nonneg nonneg, Int.emod_emod]

/-- The largest type bounds the value of every type. -/
theorem Val.bounds {t : IntType} (v : t.Val) : -2 ^ 63 ≤ v.int ∧ v.int < 2 ^ 64 := by
  obtain ⟨int, lower, upper⟩ := v
  obtain ⟨width, signed⟩ := t
  change -2 ^ 63 ≤ int ∧ int < 2 ^ 64
  cases width <;> cases signed <;> simp [min, max, bits, size, Width.size] at lower upper <;> omega

/-! ### Texts of a value -/

/-- `0x` and the bytes of the value in two hexadecimal digits each, the most significant first. -/
def hexText (t : IntType) (v : Int) : Str := Numeral.hexText (t.bytes v)

/-- `strtoull` reads a decimal numeral as a word that agrees with the value modulo `2 ^ 64`. -/
theorem strtoull_integerText {v : Int} (lower : -2 ^ 63 ≤ v) (upper : v < 2 ^ 64) :
    ∃ word : Nat, strtoull (encode (Numeral.integerText v)) = (word, []) ∧ (word : Int) % 2 ^ 64 = v % 2 ^ 64 := by
  refine ⟨_, strtoull_decimal (by omega) _, ?_⟩
  by_cases negative : v < 0
  · simp only [negative, decide_true, if_true]
    omega
  · simp only [negative, decide_false, Bool.false_eq_true, if_false]
    omega

theorem strtoull_hexText (t : IntType) (v : Int) :
    strtoull (encode (t.hexText v)) = (t.word v, []) := by
  have nonempty : Numeral.hexDigits (t.bytes v) ≠ [] := by
    have size := Numeral.length_hexDigits (t.bytes v)
    rw [bytes, length_littleEndianBytes] at size
    have positive := t.size_pos
    intro empty
    rw [← bytes, empty, List.length_nil] at size
    omega
  have fits : t.word v ≤ ULLONG_MAX := by
    have below := t.word_lt v
    have largest : 256 ^ t.size ≤ 256 ^ 8 := Nat.pow_le_pow_right (by decide) t.size_le
    unfold ULLONG_MAX
    omega
  rw [hexText, Numeral.hexText, strtoull_hex nonempty fun c => Numeral.isHexDigit_of_mem_hexDigits,
    Numeral.hexValue_hexDigits, littleEndian_bytes, Nat.min_eq_left fits]

end IntType

end CInteger
