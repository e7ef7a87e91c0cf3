import Mathlib.Data.Nat.Digits.Defs
import Mathlib.Tactic.Ring
import Tbf.Library.Text

/-!
# Numerals

Decimal numerals, and the hexadecimal text that stands for a little-endian byte string.
-/

namespace Numeral
open Text

/-- The canonical decimal numeral, Python's `str(n)`. -/
def decimal (n : Nat) : Str := Nat.toDigits 10 n

theorem decimal_injective : Function.Injective decimal := by
  intro m n same
  have value := congrArg (fun s => Nat.ofDigitChars 10 s 0) same
  simpa only [decimal, Nat.ofDigitChars_ten_toDigits] using value

theorem decimal_ne_nil (n : Nat) : decimal n ≠ [] := Nat.toDigits_ne_nil

theorem isDigit_of_mem_decimal {n : Nat} {c : Char} (member : c ∈ decimal n) : c.isDigit = true :=
  Nat.isDigit_of_mem_toDigits (by decide) (by decide) member

theorem decimal_head {n : Nat} (positive : 0 < n) : (decimal n).head? ≠ some '0' := by
  induction n using Nat.strong_induction_on with
  | _ n ih =>
    by_cases single : n < 10
    · have all : ∀ d : Fin 10, 0 < d.val → [d.val.digitChar].head? ≠ some '0' := by decide
      rw [decimal, Nat.toDigits_of_lt_base single]
      exact all ⟨n, single⟩ positive
    · have longer : decimal n = decimal (n / 10) ++ [(n % 10).digitChar] :=
        Nat.toDigits_of_base_le (by decide) (Nat.le_of_not_lt single)
      rw [longer, List.head?_append_of_ne_nil _ (decimal_ne_nil _)]
      exact ih (n / 10) (by omega) (by omega)

def signText (negative : Bool) : Str := if negative then ['-'] else []

/-- Python's `str(v)` for an integer. -/
def integerText (v : Int) : Str := signText (v < 0) ++ decimal v.natAbs

theorem mem_integerText {v : Int} {c : Char} (member : c ∈ integerText v) : c = '-' ∨ c.isDigit = true := by
  rcases List.mem_append.mp member with sign | digit
  · unfold signText at sign
    split at sign
    · exact Or.inl (List.mem_singleton.mp sign)
    · cases sign
  · exact Or.inr (isDigit_of_mem_decimal digit)

theorem integerText_ne_nil (v : Int) : integerText v ≠ [] :=
  List.append_ne_nil_of_right_ne_nil _ (decimal_ne_nil _)

def hexPair (b : UInt8) : Str := [(b.toNat / 16).digitChar, (b.toNat % 16).digitChar]

def isHexDigit (c : Char) : Bool := c.isDigit || (97 ≤ c.toNat && c.toNat ≤ 102)

theorem isHexDigit_digitChar {n : Nat} (small : n < 16) : isHexDigit n.digitChar = true := by
  have all : ∀ n : Fin 16, isHexDigit n.val.digitChar = true := by decide
  exact all ⟨n, small⟩

theorem toNat_digitChar {n : Nat} (small : n < 16) :
    n.digitChar.toNat = if n < 10 then 48 + n else 87 + n := by
  have all : ∀ n : Fin 16, n.val.digitChar.toNat = if n.val < 10 then 48 + n.val else 87 + n.val := by decide
  exact all ⟨n, small⟩

theorem exists_digitChar_of_isHexDigit {c : Char} (digit : isHexDigit c = true) :
    ∃ n < 16, c = n.digitChar := by
  have zero : '0'.toNat = 48 := rfl
  have nine : '9'.toNat = 57 := rfl
  simp only [isHexDigit, Char.isDigit_iff_toNat, Bool.or_eq_true, Bool.and_eq_true, decide_eq_true_eq,
    zero, nine] at digit
  rcases digit with ⟨low, high⟩ | ⟨low, high⟩
  · refine ⟨c.toNat - 48, by omega, Char.toNat_inj.mp ?_⟩
    rw [toNat_digitChar (by omega), if_pos (by omega)]
    omega
  · refine ⟨c.toNat - 87, by omega, Char.toNat_inj.mp ?_⟩
    rw [toNat_digitChar (by omega), if_neg (by omega)]
    omega

theorem isHexDigit_of_mem_hexPair {b : UInt8} {c : Char} (member : c ∈ hexPair b) : isHexDigit c = true := by
  have bound := b.toNat_lt
  simp only [hexPair, List.mem_cons, List.not_mem_nil, or_false] at member
  rcases member with rfl | rfl
  · exact isHexDigit_digitChar (by omega)
  · exact isHexDigit_digitChar (by omega)

/-- The number a byte string stands for, its first byte the least significant. -/
def littleEndian (data : Bytes) : Nat := Nat.ofDigits 256 (data.map UInt8.toNat)

def hexDigits (data : Bytes) : Str := data.reverse.flatMap hexPair

def hexText (data : Bytes) : Str := '0' :: 'x' :: hexDigits data

theorem isHexDigit_of_mem_hexDigits {data : Bytes} {c : Char} (member : c ∈ hexDigits data) :
    isHexDigit c = true := by
  obtain ⟨b, _, inPair⟩ := List.mem_flatMap.mp member
  exact isHexDigit_of_mem_hexPair inPair

theorem mem_hexText {data : Bytes} {c : Char} (member : c ∈ hexText data) : c = 'x' ∨ isHexDigit c = true := by
  rcases List.mem_cons.mp member with rfl | member
  · exact Or.inr (by decide)
  · rcases List.mem_cons.mp member with rfl | member
    · exact Or.inl rfl
    · exact Or.inr (isHexDigit_of_mem_hexDigits member)

theorem length_hexDigits (data : Bytes) : (hexDigits data).length = 2 * data.length := by
  simp [hexDigits, hexPair, List.length_flatMap, Nat.mul_comm]

def digitValue (c : Char) : Nat := if c.isDigit then c.toNat - 48 else c.toNat - 87

theorem digitValue_digitChar {n : Nat} (small : n < 16) : digitValue n.digitChar = n := by
  have all : ∀ n : Fin 16, digitValue n.val.digitChar = n.val := by decide
  exact all ⟨n, small⟩

def hexValue (s : Str) : Nat := s.foldl (fun acc c => 16 * acc + digitValue c) 0

theorem hexValue_append_hexPair (s : Str) (b : UInt8) :
    hexValue (s ++ hexPair b) = 256 * hexValue s + b.toNat := by
  have bound := b.toNat_lt
  simp only [hexValue, hexPair, List.foldl_append, List.foldl_cons, List.foldl_nil]
  rw [digitValue_digitChar (by omega), digitValue_digitChar (by omega)]
  omega

theorem hexValue_hexDigits (data : Bytes) : hexValue (hexDigits data) = littleEndian data := by
  induction data with
  | nil => rfl
  | cons b data ih =>
    rw [hexDigits, List.reverse_cons, List.flatMap_append, List.flatMap_singleton,
      hexValue_append_hexPair, ← hexDigits, ih]
    simp only [littleEndian, List.map_cons, Nat.ofDigits_cons]
    omega

theorem hexValue_append (s t : Str) : hexValue (s ++ t) = 16 ^ t.length * hexValue s + hexValue t := by
  have folded : ∀ (t : Str) (start : Nat), t.foldl (fun acc c => 16 * acc + digitValue c) start =
      16 ^ t.length * start + hexValue t := by
    intro t
    induction t with
    | nil => simp [hexValue]
    | cons c t ih =>
      intro start
      rw [hexValue, List.foldl_cons, List.foldl_cons, ih, ih]
      simp only [List.length_cons, Nat.pow_succ]
      ring
  rw [hexValue, List.foldl_append, folded t]
  rfl

theorem hexValue_lt {s : Str} (hex : ∀ c ∈ s, isHexDigit c = true) : hexValue s < 16 ^ s.length := by
  induction s using List.reverseRecOn with
  | nil => simp [hexValue]
  | append_singleton s c ih =>
    obtain ⟨n, small, rfl⟩ := exists_digitChar_of_isHexDigit (hex c (by simp))
    have before := ih fun c member => hex c (List.mem_append_left _ member)
    have value : hexValue (s ++ [n.digitChar]) = 16 * hexValue s + n := by
      simp [hexValue, digitValue_digitChar small]
    rw [value, List.length_append, List.length_singleton, Nat.pow_succ]
    omega

/-- The front of a numeral is its value without the last digits. -/
theorem hexValue_take {s : Str} (hex : ∀ c ∈ s, isHexDigit c = true) (n : Nat) :
    hexValue (s.take n) * 16 ^ (s.length - n) ≤ hexValue s ∧
      hexValue s < (hexValue (s.take n) + 1) * 16 ^ (s.length - n) := by
  have split := hexValue_append (s.take n) (s.drop n)
  have below := hexValue_lt fun c member => hex c ((List.drop_sublist n s).subset member)
  rw [List.take_append_drop] at split
  rw [List.length_drop] at split below
  rw [split, Nat.add_mul, Nat.one_mul, Nat.mul_comm]
  exact ⟨Nat.le_add_right _ _, Nat.add_lt_add_left below _⟩

theorem littleEndian_eq_zero {data : Bytes} : littleEndian data = 0 ↔ ∀ b ∈ data, b = 0 := by
  induction data with
  | nil => simp [littleEndian]
  | cons b data ih =>
    have value : littleEndian (b :: data) = b.toNat + 256 * littleEndian data := by
      simp [littleEndian, Nat.ofDigits_cons]
    have zero : b.toNat = 0 ↔ b = 0 := UInt8.toNat_inj (b := 0)
    rw [List.forall_mem_cons, ← ih, value, ← zero]
    omega

theorem littleEndian_lt (data : Bytes) : littleEndian data < 256 ^ data.length := by
  have bounded := Nat.ofDigits_lt_base_pow_length (b := 256) (l := data.map UInt8.toNat) (by decide)
    (by simpa using fun b _ => b.toNat_lt)
  simpa [littleEndian] using bounded

theorem littleEndian_eq_max {data : Bytes} : littleEndian data = 256 ^ data.length - 1 ↔ ∀ b ∈ data, b = 255 := by
  induction data with
  | nil => simp [littleEndian]
  | cons b data ih =>
    have value : littleEndian (b :: data) = b.toNat + 256 * littleEndian data := by
      simp [littleEndian, Nat.ofDigits_cons]
    have most : b.toNat = 255 ↔ b = 255 := UInt8.toNat_inj (b := 255)
    have below := littleEndian_lt data
    have byte := b.toNat_lt
    rw [List.forall_mem_cons, ← ih, value, ← most, List.length_cons, Nat.pow_succ]
    omega

end Numeral
