import Mathlib.Tactic.IntervalCases
import Tbf.Library.Numeral

/-!
# C number scanning

What `strtoull`, `strtoll` (both with base 0) and `strtold` accept, as in the C standard
and in the "C" locale. Each returns the part of the text at which the scan stopped.
-/

namespace CNumber
open Text

def isSpace (b : UInt8) : Bool := b == 32 || (9 ≤ b.toNat && b.toNat ≤ 13)

/-- The value of a digit or letter; a digit of base `n` has a value below `n`. -/
def digitVal (b : UInt8) : Nat :=
  let n := b.toNat
  if 48 ≤ n ∧ n ≤ 57 then n - 48
  else if 97 ≤ n ∧ n ≤ 122 then n - 87
  else if 65 ≤ n ∧ n ≤ 90 then n - 55
  else 36

def isDigitOf (base : Nat) (b : UInt8) : Bool := digitVal b < base

def digitsValue (base : Nat) (digits : Bytes) : Nat :=
  digits.foldl (fun acc b => base * acc + digitVal b) 0

def scanSign : Bytes → Bool × Bytes
  | 45 :: rest => (true, rest)
  | 43 :: rest => (false, rest)
  | text => (false, text)

def hexPrefix : Bytes → Bool
  | 48 :: x :: d :: _ => (x == 120 || x == 88) && isDigitOf 16 d
  | _ => false

/-- The base that the start of a numeral selects, and the numeral without a hexadecimal prefix. -/
def scanBase (text : Bytes) : Nat × Bytes :=
  if hexPrefix text then (16, text.drop 2)
  else if text.head? = some 48 then (8, text)
  else (10, text)

structure IntScan where
  negative : Bool
  magnitude : Nat
  rest : Bytes
  deriving DecidableEq, Repr

/-- The longest integer at the start of the text, `none` where there is none. -/
def scanInt (text : Bytes) : Option IntScan :=
  let (negative, body) := scanSign (text.dropWhile isSpace)
  let (base, numeral) := scanBase body
  let digits := numeral.takeWhile (isDigitOf base)
  if digits = [] then none
  else some ⟨negative, digitsValue base digits, numeral.dropWhile (isDigitOf base)⟩

def ULLONG_MAX : Nat := 2 ^ 64 - 1

/-- The value and the rest of the text; a value out of range saturates, a minus negates modulo `2^64`. -/
def strtoull (text : Bytes) : Nat × Bytes :=
  match scanInt text with
  | none => (0, text)
  | some scan =>
    if scan.magnitude > ULLONG_MAX then (ULLONG_MAX, scan.rest)
    else if scan.negative then ((2 ^ 64 - scan.magnitude) % 2 ^ 64, scan.rest)
    else (scan.magnitude, scan.rest)

/-- The value in two's complement and the rest of the text. -/
def strtoll (text : Bytes) : Nat × Bytes :=
  match scanInt text with
  | none => (0, text)
  | some scan =>
    if scan.negative then ((2 ^ 64 - min scan.magnitude (2 ^ 63)) % 2 ^ 64, scan.rest)
    else (min scan.magnitude (2 ^ 63 - 1), scan.rest)

def scanMantissa (base : Nat) (text : Bytes) : Option Bytes :=
  let digits := text.takeWhile (isDigitOf base)
  match text.dropWhile (isDigitOf base) with
  | 46 :: fraction =>
    if digits = [] ∧ fraction.takeWhile (isDigitOf base) = [] then none
    else some (fraction.dropWhile (isDigitOf base))
  | rest => if digits = [] then none else some rest

def scanExponent (mark : UInt8) (text : Bytes) : Bytes :=
  match text with
  | [] => []
  | b :: rest =>
    if b = mark ∨ b + 32 = mark then
      let power := (scanSign rest).2
      if power.takeWhile (isDigitOf 10) = [] then text else power.dropWhile (isDigitOf 10)
    else text

def dropWord (word : Str) (text : Bytes) : Option Bytes :=
  let front := text.take word.length
  if front.map (fun b => if 65 ≤ b.toNat ∧ b.toNat ≤ 90 then b + 32 else b) = encode word
  then some (text.drop word.length) else none

def scanSpecial (text : Bytes) : Option Bytes :=
  match dropWord "infinity".toList text with
  | some rest => some rest
  | none => match dropWord "inf".toList text with
    | some rest => some rest
    | none => match dropWord "nan".toList text with
      | some (40 :: chars) =>
        match chars.dropWhile fun b => isDigitOf 36 b || b == 95 with
        | 41 :: rest => some rest
        | _ => some (40 :: chars)
      | other => other

def strtoldRest (text : Bytes) : Bytes :=
  let body := (scanSign (text.dropWhile isSpace)).2
  let hex := if dropWord "0x".toList body = none then none else scanMantissa 16 (body.drop 2)
  match hex with
  | some rest => scanExponent 112 rest
  | none => match scanMantissa 10 body with
    | some rest => scanExponent 101 rest
    | none => (scanSpecial body).getD text

def littleEndianBytes : Nat → Nat → Bytes
  | 0, _ => []
  | n + 1, value => UInt8.ofNat (value % 256) :: littleEndianBytes n (value / 256)

/-- The word of which an `int` has kept the low half, extended by its sign. -/
def signExtended (word : Nat) : Nat :=
  let low := word % 2 ^ 32
  if low < 2 ^ 31 then low else low + (2 ^ 64 - 2 ^ 32)

example : strtoull (encode "-0x10 ".toList) = (2 ^ 64 - 16, encode " ".toList) := by decide

example : strtoldRest (encode " -0x.8p-1inf".toList) = encode "inf".toList := by decide

example : strtoldRest (encode "1e+".toList) = encode "e+".toList := by decide

/-! ### Where a scan stops -/

/-- The scan got from the text to the rest over ASCII bytes. -/
def Scanned (text rest : Bytes) : Prop := ∃ front, text = front ++ rest ∧ ∀ b ∈ front, b.toNat < 128

theorem Scanned.refl (text : Bytes) : Scanned text text := ⟨[], rfl, by simp⟩

theorem Scanned.trans {text middle rest : Bytes} (first : Scanned text middle) (second : Scanned middle rest) :
    Scanned text rest := by
  obtain ⟨front, rfl, ascii⟩ := first
  obtain ⟨front', rfl, ascii'⟩ := second
  refine ⟨front ++ front', by simp, fun b member => ?_⟩
  rcases List.mem_append.mp member with member | member
  · exact ascii b member
  · exact ascii' b member

theorem Scanned.cons {b : UInt8} (ascii : b.toNat < 128) (rest : Bytes) : Scanned (b :: rest) rest :=
  ⟨[b], rfl, by simpa using ascii⟩

theorem scanned_dropWhile {p : UInt8 → Bool} (ascii : ∀ b, p b = true → b.toNat < 128) (text : Bytes) :
    Scanned text (text.dropWhile p) :=
  ⟨text.takeWhile p, List.takeWhile_append_dropWhile.symm, fun b member => ascii b (List.mem_takeWhile_imp member)⟩

theorem isSpace_ascii (b : UInt8) (space : isSpace b = true) : b.toNat < 128 := by
  simp only [isSpace, Bool.or_eq_true, beq_iff_eq, Bool.and_eq_true, decide_eq_true_eq] at space
  rcases space with rfl | ⟨_, high⟩
  · decide
  · omega

theorem isDigitOf_ascii {base : Nat} (small : base ≤ 36) (b : UInt8) (digit : isDigitOf base b = true) :
    b.toNat < 128 := by
  have below : digitVal b < base := of_decide_eq_true digit
  unfold digitVal at below
  dsimp only at below
  split_ifs at below <;> omega

theorem scanned_scanSign (text : Bytes) : Scanned text (scanSign text).2 := by
  unfold scanSign
  split
  · exact Scanned.cons (by decide) _
  · exact Scanned.cons (by decide) _
  · exact Scanned.refl _

theorem scanned_scanMantissa {base : Nat} (small : base ≤ 36) {text rest : Bytes}
    (scanned : scanMantissa base text = some rest) : Scanned text rest := by
  have digits := scanned_dropWhile (isDigitOf_ascii small) text
  unfold scanMantissa at scanned
  dsimp only at scanned
  split at scanned
  · rename_i fraction point
    split at scanned
    · cases scanned
    · obtain rfl := Option.some.inj scanned
      rw [point] at digits
      exact digits.trans ((Scanned.cons (by decide) fraction).trans
        (scanned_dropWhile (isDigitOf_ascii small) fraction))
  · split at scanned
    · cases scanned
    · exact Option.some.inj scanned ▸ digits

theorem scanned_scanExponent {mark : UInt8} (letter : 32 ≤ mark.toNat ∧ mark.toNat < 128) (text : Bytes) :
    Scanned text (scanExponent mark text) := by
  cases text with
  | nil => exact Scanned.refl _
  | cons b rest =>
    unfold scanExponent
    dsimp only
    split
    · rename_i marked
      split
      · exact Scanned.refl _
      · have ascii : b.toNat < 128 := by
          rcases marked with rfl | rfl
          · exact letter.2
          · simp only [UInt8.toNat_add, UInt8.reduceToNat] at letter
            have := b.toNat_lt
            omega
        exact (Scanned.cons ascii rest).trans ((scanned_scanSign rest).trans
          (scanned_dropWhile (isDigitOf_ascii (by decide)) _))
    · exact Scanned.refl _

theorem scanned_dropWord {word : Str} (ascii : Ascii word) {text rest : Bytes}
    (dropped : dropWord word text = some rest) : Scanned text rest := by
  unfold dropWord at dropped
  dsimp only at dropped
  split at dropped
  · rename_i same
    obtain rfl := Option.some.inj dropped
    refine ⟨text.take word.length, (List.take_append_drop _ _).symm, fun b member => ?_⟩
    have lower := same ▸ List.mem_map_of_mem (f := fun b : UInt8 =>
      if 65 ≤ b.toNat ∧ b.toNat ≤ 90 then b + 32 else b) member
    rw [encode_ascii ascii] at lower
    obtain ⟨c, inWord, code⟩ := List.mem_map.mp lower
    have small := ascii c inWord
    split_ifs at code with upper
    · omega
    · rw [← code, UInt8.toNat_ofNat']
      omega
  · cases dropped

theorem scanned_scanSpecial {text rest : Bytes} (special : scanSpecial text = some rest) : Scanned text rest := by
  have infinity : Ascii "infinity".toList := forall_mem_of_all (by decide)
  have inf : Ascii "inf".toList := forall_mem_of_all (by decide)
  have nan : Ascii "nan".toList := forall_mem_of_all (by decide)
  unfold scanSpecial at special
  split at special
  · rename_i dropped
    exact Option.some.inj special ▸ scanned_dropWord infinity dropped
  · split at special
    · rename_i dropped
      exact Option.some.inj special ▸ scanned_dropWord inf dropped
    · split at special
      · rename_i chars dropped
        have front := scanned_dropWord nan dropped
        split at special
        · rename_i closed
          have payload : ∀ b : UInt8, (isDigitOf 36 b || b == 95) = true → b.toNat < 128 := by
            intro b member
            rcases Bool.or_eq_true _ _ ▸ member with digit | underscore
            · exact isDigitOf_ascii (by decide) b digit
            · simp at underscore
              simp [underscore]
          have inside := scanned_dropWhile payload chars
          rw [closed] at inside
          obtain rfl := Option.some.inj special
          exact front.trans ((Scanned.cons (by decide) chars).trans (inside.trans (Scanned.cons (by decide) _)))
        · exact Option.some.inj special ▸ front
      · exact scanned_dropWord nan special

theorem scanned_strtoldRest (text : Bytes) : Scanned text (strtoldRest text) := by
  have zeroX : Ascii "0x".toList := forall_mem_of_all (by decide)
  have start : Scanned text (scanSign (text.dropWhile isSpace)).2 :=
    (scanned_dropWhile isSpace_ascii text).trans (scanned_scanSign _)
  unfold strtoldRest
  dsimp only
  generalize (scanSign (text.dropWhile isSpace)).2 = body at start ⊢
  split
  · rename_i rest hex
    split at hex
    · cases hex
    · rename_i found
      obtain ⟨after, dropped⟩ := Option.ne_none_iff_exists'.mp found
      have two : after = body.drop 2 := by
        unfold dropWord at dropped
        dsimp only at dropped
        split at dropped
        · exact (Option.some.inj dropped).symm
        · cases dropped
      have hexFront : Scanned body (body.drop 2) := two ▸ scanned_dropWord zeroX dropped
      exact start.trans (hexFront.trans ((scanned_scanMantissa (by decide) hex).trans
        (scanned_scanExponent (by decide) rest)))
  · split
    · rename_i rest decimal
      exact start.trans ((scanned_scanMantissa (by decide) decimal).trans
        (scanned_scanExponent (by decide) rest))
    · cases special : scanSpecial body with
      | none => exact Scanned.refl text
      | some rest => exact start.trans (scanned_scanSpecial special)

/-! ### Hexadecimal texts -/

def byteOf (c : Char) : UInt8 := UInt8.ofNat c.toNat

theorem digitVal_hexDigit {c : Char} (digit : Numeral.isHexDigit c = true) :
    digitVal (byteOf c) = Numeral.digitValue c ∧ digitVal (byteOf c) < 16 := by
  obtain ⟨n, small, rfl⟩ := Numeral.exists_digitChar_of_isHexDigit digit
  have all : ∀ n : Fin 16, digitVal (byteOf n.val.digitChar) = n.val := by decide
  have value : digitVal (byteOf n.digitChar) = n := all ⟨n, small⟩
  rw [Numeral.digitValue_digitChar small, value]
  exact ⟨rfl, small⟩

theorem digitsValue_hexDigits {digits : Str} (hex : ∀ c ∈ digits, Numeral.isHexDigit c = true) :
    digitsValue 16 (digits.map byteOf) = Numeral.hexValue digits := by
  have folded : ∀ start, (digits.map byteOf).foldl (fun acc b => 16 * acc + digitVal b) start =
      digits.foldl (fun acc c => 16 * acc + Numeral.digitValue c) start := by
    induction digits with
    | nil => exact fun _ => rfl
    | cons c digits ih =>
      intro start
      rw [List.map_cons, List.foldl_cons, List.foldl_cons, (digitVal_hexDigit (hex c List.mem_cons_self)).1]
      exact ih (fun d member => hex d (List.mem_cons_of_mem _ member)) _
  exact folded 0

theorem ascii_of_isHexDigit {digits : Str} (hex : ∀ c ∈ digits, Numeral.isHexDigit c = true) : Ascii digits := by
  intro c member
  obtain ⟨n, small, rfl⟩ := Numeral.exists_digitChar_of_isHexDigit (hex c member)
  rw [Numeral.toNat_digitChar small]
  split <;> omega

/-- A text that is a sign and digits of the selected base is scanned to its end. -/
theorem scanInt_of_scanBase {text body numeral : Bytes} {negative : Bool} {base : Nat}
    (sign : scanSign (text.dropWhile isSpace) = (negative, body)) (selected : scanBase body = (base, numeral))
    (nonempty : numeral ≠ []) (digits : ∀ b ∈ numeral, isDigitOf base b = true) :
    scanInt text = some ⟨negative, digitsValue base numeral, []⟩ := by
  have whole := List.takeWhile_eq_self_iff.mpr digits
  have none_left := List.dropWhile_eq_nil_iff.mpr digits
  unfold scanInt
  rw [sign]
  dsimp only
  rw [selected]
  dsimp only
  rw [whole, none_left, if_neg nonempty]

theorem strtoull_hex {digits : Str} (nonempty : digits ≠ [])
    (hex : ∀ c ∈ digits, Numeral.isHexDigit c = true) :
    strtoull (encode ('0' :: 'x' :: digits)) = (min (Numeral.hexValue digits) ULLONG_MAX, []) := by
  have bytes : encode ('0' :: 'x' :: digits) = 48 :: 120 :: digits.map byteOf := by
    have ascii : Ascii ('0' :: 'x' :: digits) := by
      intro c member
      rcases List.mem_cons.mp member with rfl | member
      · decide
      · rcases List.mem_cons.mp member with rfl | member
        · decide
        · exact ascii_of_isHexDigit hex c member
    rw [encode_ascii ascii]
    rfl
  have allDigits : ∀ b ∈ digits.map byteOf, isDigitOf 16 b = true := by
    intro b member
    obtain ⟨c, inDigits, rfl⟩ := List.mem_map.mp member
    simpa [isDigitOf] using (digitVal_hexDigit (hex c inDigits)).2
  obtain ⟨d, rest, split⟩ := List.exists_cons_of_ne_nil nonempty
  have first : isDigitOf 16 (byteOf d) = true := allDigits _ (by simp [split])
  have base : scanBase (48 :: 120 :: digits.map byteOf) = (16, digits.map byteOf) := by
    simp [scanBase, hexPrefix, split, first]
  have blank : isSpace 48 = false := by decide
  have sign : scanSign ((48 :: 120 :: digits.map byteOf).dropWhile isSpace) =
      (false, 48 :: 120 :: digits.map byteOf) := by
    rw [List.dropWhile_cons, blank, if_neg Bool.false_ne_true]
    rfl
  rw [bytes, strtoull, scanInt_of_scanBase sign base (by simpa using nonempty) allDigits,
    digitsValue_hexDigits hex]
  dsimp only
  split
  · rename_i big
    rw [Nat.min_eq_right (by omega)]
  · rename_i small
    rw [Nat.min_eq_left (by omega)]
    rfl

/-! ### Decimal texts -/

theorem digitVal_digit {c : Char} (digit : c.isDigit = true) :
    digitVal (byteOf c) = c.toNat - '0'.toNat ∧ digitVal (byteOf c) < 10 := by
  have zero : '0'.toNat = 48 := rfl
  have nine : '9'.toNat = 57 := rfl
  rw [Char.isDigit_iff_toNat, zero, nine] at digit
  have code : (byteOf c).toNat = c.toNat := by
    rw [byteOf, UInt8.toNat_ofNat']
    omega
  unfold digitVal
  dsimp only
  rw [code, if_pos digit]
  omega

theorem ascii_of_isDigit {digits : Str} (all : ∀ c ∈ digits, c.isDigit = true) : Ascii digits := by
  intro c member
  have digit := all c member
  rw [Char.isDigit_iff_toNat] at digit
  have nine : '9'.toNat = 57 := rfl
  omega

theorem isDigitOf_of_isDigit {digits : Str} (all : ∀ c ∈ digits, c.isDigit = true) :
    ∀ b ∈ digits.map byteOf, isDigitOf 10 b = true := by
  intro b member
  obtain ⟨c, inDigits, rfl⟩ := List.mem_map.mp member
  simpa [isDigitOf] using (digitVal_digit (all c inDigits)).2

theorem digitsValue_digits {digits : Str} (all : ∀ c ∈ digits, c.isDigit = true) :
    digitsValue 10 (digits.map byteOf) = Nat.ofDigitChars 10 digits 0 := by
  have folded : ∀ start, (digits.map byteOf).foldl (fun acc b => 10 * acc + digitVal b) start =
      Nat.ofDigitChars 10 digits start := by
    induction digits with
    | nil => exact fun _ => rfl
    | cons c digits ih =>
      intro start
      rw [List.map_cons, List.foldl_cons, (digitVal_digit (all c List.mem_cons_self)).1, Nat.ofDigitChars_cons]
      exact ih (fun d member => all d (List.mem_cons_of_mem _ member)) _
  exact folded 0

theorem toNat_of_isDigitOf {b : UInt8} (digit : isDigitOf 10 b = true) : 48 ≤ b.toNat ∧ b.toNat ≤ 57 := by
  have below : digitVal b < 10 := of_decide_eq_true digit
  unfold digitVal at below
  dsimp only at below
  split_ifs at below <;> omega

/-- A digit is no white space, no sign and no point. -/
theorem digit_plain {b : UInt8} (digit : isDigitOf 10 b = true) :
    isSpace b = false ∧ b ≠ 45 ∧ b ≠ 43 ∧ b ≠ 46 := by
  have bounds := toNat_of_isDigitOf digit
  have other : ∀ c : UInt8, c.toNat < 48 → b ≠ c := fun c low same => by
    rw [same] at bounds
    omega
  refine ⟨?_, other 45 (by decide), other 43 (by decide), other 46 (by decide)⟩
  simp only [isSpace, Bool.or_eq_false_iff, beq_eq_false_iff_ne, Bool.and_eq_false_iff, decide_eq_false_iff_not]
  exact ⟨other 32 (by decide), Or.inr (by omega)⟩

theorem scanSign_of_digit {b : UInt8} (digit : isDigitOf 10 b = true) (rest : Bytes) :
    scanSign (b :: rest) = (false, b :: rest) := by
  obtain ⟨_, minus, plus, _⟩ := digit_plain digit
  unfold scanSign
  split
  · rename_i same
    exact absurd (List.cons.inj same).1 minus
  · rename_i same
    exact absurd (List.cons.inj same).1 plus
  · rfl

/-- White space stops at the sign, and a sign is found where there is one. -/
theorem scanSign_signText (negative : Bool) {b : UInt8} (digit : isDigitOf 10 b = true) (rest : Bytes) :
    scanSign ((encode (Numeral.signText negative) ++ b :: rest).dropWhile isSpace) = (negative, b :: rest) := by
  cases negative with
  | true => rfl
  | false =>
    have solid : ¬ isSpace b = true := by simp [(digit_plain digit).1]
    have start : encode (Numeral.signText false) ++ b :: rest = b :: rest := rfl
    rw [start, List.dropWhile_cons_of_neg solid]
    exact scanSign_of_digit digit rest

theorem encode_decimal (n : Nat) : encode (Numeral.decimal n) = (Numeral.decimal n).map byteOf :=
  encode_ascii (ascii_of_isDigit fun _ member => Numeral.isDigit_of_mem_decimal member)

/-- A canonical numeral has base 10, or it is a single zero, which is read in base 8. -/
theorem scanInt_decimal (negative : Bool) (n : Nat) :
    scanInt (encode (Numeral.signText negative ++ Numeral.decimal n)) = some ⟨negative, n, []⟩ := by
  have digits : ∀ c ∈ Numeral.decimal n, c.isDigit = true := fun _ member => Numeral.isDigit_of_mem_decimal member
  have allDigits := isDigitOf_of_isDigit digits
  obtain ⟨c, rest, front⟩ := List.exists_cons_of_ne_nil (Numeral.decimal_ne_nil n)
  have numeral : encode (Numeral.decimal n) = byteOf c :: rest.map byteOf := by rw [encode_decimal, front, List.map_cons]
  have first : isDigitOf 10 (byteOf c) = true := allDigits _ (by simp [front])
  have sign := scanSign_signText negative first (rest.map byteOf)
  rw [← numeral, ← encode_append] at sign
  rcases Nat.eq_zero_or_pos n with rfl | positive
  · exact scanInt_of_scanBase sign (show scanBase _ = (8, encode (Numeral.decimal 0)) from rfl) (by decide)
      (forall_mem_of_all (by decide))
  · have nonzero : byteOf c ≠ 48 := by
      intro same
      have head := Numeral.decimal_head positive
      have digit := digits c (by simp [front])
      have nine : '9'.toNat = 57 := rfl
      have code := congrArg UInt8.toNat same
      rw [Char.isDigit_iff_toNat, nine] at digit
      rw [byteOf, UInt8.toNat_ofNat', Nat.mod_eq_of_lt (by omega)] at code
      exact head (by rw [front]; exact congrArg some (Char.toNat_inj.mp code))
    have plain : hexPrefix (byteOf c :: rest.map byteOf) = false := by
      unfold hexPrefix
      split
      · rename_i same
        exact absurd (List.cons.inj same).1 nonzero
      · rfl
    have base : scanBase (encode (Numeral.decimal n)) = (10, encode (Numeral.decimal n)) := by
      rw [numeral, scanBase, plain, if_neg Bool.false_ne_true, if_neg (by simpa using nonzero)]
    have value : digitsValue 10 (encode (Numeral.decimal n)) = n := by
      rw [encode_decimal, digitsValue_digits digits]
      exact Nat.ofDigitChars_ten_toDigits
    rw [scanInt_of_scanBase sign base (by simp [numeral]) (by rwa [encode_decimal]), value]

/-- A numeral in range is taken as it is, and a minus negates it modulo `2^64`. -/
theorem strtoull_decimal {n : Nat} (small : n < 2 ^ 64) (negative : Bool) :
    strtoull (encode (Numeral.signText negative ++ Numeral.decimal n)) =
      (if negative then (2 ^ 64 - n) % 2 ^ 64 else n, []) := by
  rw [strtoull, scanInt_decimal]
  dsimp only
  rw [if_neg (by unfold ULLONG_MAX; omega)]
  cases negative <;> rfl

/-! ### Little-endian bytes -/

theorem length_littleEndianBytes (n value : Nat) : (littleEndianBytes n value).length = n := by
  induction n generalizing value with
  | zero => rfl
  | succ n ih => simp [littleEndianBytes, ih]

theorem take_littleEndianBytes {m n : Nat} (fewer : m ≤ n) (value : Nat) :
    (littleEndianBytes n value).take m = littleEndianBytes m value := by
  induction m generalizing n value with
  | zero => simp [littleEndianBytes]
  | succ m ih =>
    obtain ⟨n, rfl⟩ := Nat.exists_eq_succ_of_ne_zero (Nat.ne_of_gt (Nat.lt_of_lt_of_le m.succ_pos fewer))
    simp [littleEndianBytes, ih (Nat.le_of_succ_le_succ fewer)]

theorem littleEndianBytes_littleEndian (data : Bytes) :
    littleEndianBytes data.length (Numeral.littleEndian data) = data := by
  induction data with
  | nil => rfl
  | cons b data ih =>
    have bound := b.toNat_lt
    have value : Numeral.littleEndian (b :: data) = b.toNat + 256 * Numeral.littleEndian data := by
      simp [Numeral.littleEndian, Nat.ofDigits_cons]
    rw [List.length_cons, littleEndianBytes, value]
    rw [show (b.toNat + 256 * Numeral.littleEndian data) % 256 = b.toNat by omega,
      show (b.toNat + 256 * Numeral.littleEndian data) / 256 = Numeral.littleEndian data by omega, ih,
      UInt8.ofNat_toNat]

theorem littleEndian_littleEndianBytes (n value : Nat) :
    Numeral.littleEndian (littleEndianBytes n value) = value % 256 ^ n := by
  induction n generalizing value with
  | zero => simp [littleEndianBytes, Numeral.littleEndian, Nat.mod_one]
  | succ n ih =>
    have low : (UInt8.ofNat (value % 256)).toNat = value % 256 := by
      rw [UInt8.toNat_ofNat']
      omega
    have step : Numeral.littleEndian (littleEndianBytes (n + 1) value) =
        value % 256 + 256 * Numeral.littleEndian (littleEndianBytes n (value / 256)) := by
      simp only [Numeral.littleEndian, littleEndianBytes, List.map_cons, Nat.ofDigits_cons, low]
    rw [step, ih, Nat.pow_succ, Nat.mul_comm (256 ^ n) 256, Nat.mod_mul]

theorem littleEndianBytes_mod (n value : Nat) : littleEndianBytes n (value % 256 ^ n) = littleEndianBytes n value := by
  have same := littleEndianBytes_littleEndian (littleEndianBytes n value)
  rwa [littleEndian_littleEndianBytes, length_littleEndianBytes] at same

theorem littleEndianBytes_eq_iff {data : Bytes} {value : Nat} (small : value < 256 ^ data.length) :
    littleEndianBytes data.length value = data ↔ value = Numeral.littleEndian data := by
  constructor
  · intro same
    rw [← Nat.mod_eq_of_lt small, ← littleEndian_littleEndianBytes, same]
  · rintro rfl
    exact littleEndianBytes_littleEndian data

/-! ### Words that went through an `int` -/

theorem littleEndianBytes_eq_iff_mod (n value other : Nat) :
    littleEndianBytes n value = littleEndianBytes n other ↔ value % 256 ^ n = other % 256 ^ n := by
  constructor
  · intro same
    rw [← littleEndian_littleEndianBytes, same, littleEndian_littleEndianBytes]
  · intro same
    rw [← littleEndianBytes_mod, same, littleEndianBytes_mod]

/-- The bytes that are kept are those of the numbers that an `int` has, modulo the type: all numbers of a type of at
most four bytes. -/
theorem littleEndianBytes_signExtended_iff {n : Nat} (cell : n ≤ 8) (word : Nat) :
    littleEndianBytes n (signExtended word) = littleEndianBytes n word ↔ (word + 2 ^ 31) % 256 ^ n < 2 ^ 32 := by
  rw [littleEndianBytes_eq_iff_mod]
  unfold signExtended
  dsimp only
  interval_cases n <;> split <;> omega

theorem signExtended_mod_of_high {n low : Nat} (cell : n ≤ 8) (half : low < 2 ^ 32) :
    (low + (2 ^ 64 - 2 ^ 32)) % 256 ^ n = if n ≤ 4 then low % 256 ^ n else low + (256 ^ n - 2 ^ 32) := by
  interval_cases n <;> simp only [Nat.reduceLeDiff, if_true, if_false] <;> omega

/-- A number that has lost its last digits is not itself again, unless it was zero, or an `int` makes of eight digits
`f` and more the largest number of the type, which they came from. -/
theorem signExtended_cut {n k value whole : Nat} (cell : n ≤ 8) (cut : k < 2 * n)
    (lower : value * 16 ^ (2 * n - k) ≤ whole) (upper : whole < (value + 1) * 16 ^ (2 * n - k)) (bound : whole < 256 ^ n) :
    signExtended value % 256 ^ n = whole ↔ whole = 0 ∨ whole = 256 ^ n - 1 ∧ 8 ≤ k := by
  have less : 16 * value ≤ whole := by
    have factor : 16 ≤ 16 ^ (2 * n - k) := Nat.le_self_pow (by omega) 16
    have more := Nat.mul_le_mul_left value factor
    omega
  have low : value % 2 ^ 32 ≤ value := Nat.mod_le _ _
  unfold signExtended
  dsimp only
  constructor
  · intro same
    split at same
    · rw [Nat.mod_eq_of_lt (by omega)] at same
      omega
    · right
      rw [signExtended_mod_of_high cell (Nat.mod_lt _ (by decide))] at same
      split at same
      · rw [Nat.mod_eq_of_lt (by omega)] at same
        omega
      · interval_cases n <;> interval_cases k <;>
          simp only [Nat.reduceMul, Nat.reduceSub, Nat.reducePow] at * <;> omega
  · rintro (zero | ⟨most, long⟩)
    · have nothing : value = 0 := by omega
      rw [nothing, zero]
      rfl
    · interval_cases n <;> interval_cases k <;>
        simp only [Nat.reduceMul, Nat.reduceSub, Nat.reducePow] at * <;> split <;> omega

end CNumber
