import Mathlib.Algebra.Order.BigOperators.Group.List
import Tbf.Library.Numeral

/-!
# Python's `repr` of a byte string
-/

namespace ByteRepr
open Text Numeral

def reprByte (quote : Char) (b : UInt8) : Str :=
  let c := Char.ofNat b.toNat
  if c = quote ∨ c = '\\' then ['\\', c]
  else if b = 9 then "\\t".toList
  else if b = 10 then "\\n".toList
  else if b = 13 then "\\r".toList
  else if b < 32 ∨ 127 ≤ b then '\\' :: 'x' :: hexPair b
  else [c]

/-- Double quotes, if that saves the escapes of single ones. -/
def reprQuote (data : Bytes) : Char := if 39 ∈ data ∧ 34 ∉ data then '"' else '\''

def bytesRepr (data : Bytes) : Str :=
  'b' :: reprQuote data :: data.flatMap (reprByte (reprQuote data)) ++ [reprQuote data]

example : bytesRepr [97, 10, 39, 200] = "b\"a\\n'\\xc8\"".toList := by decide

/-- The bytes that are written as a pair of hexadecimal digits. -/
def isEscaped (b : UInt8) : Bool := (b < 32 && b ≠ 9 && b ≠ 10 && b ≠ 13) || 127 ≤ b

theorem reprQuote_cases (data : Bytes) : reprQuote data = '"' ∨ reprQuote data = '\'' := by
  unfold reprQuote
  split
  · exact Or.inl rfl
  · exact Or.inr rfl

/-- Facts about single bytes are checked on all of them. -/
theorem forall_uint8 {p : UInt8 → Prop} (all : ∀ n : Fin 256, p (UInt8.ofNat n.val)) (b : UInt8) : p b := by
  have here := all ⟨b.toNat, b.toNat_lt⟩
  rwa [UInt8.ofNat_toNat] at here

theorem reprByte_escaped {quote : Char} (isQuote : quote = '"' ∨ quote = '\'') {b : UInt8}
    (escaped : isEscaped b = true) : reprByte quote b = '\\' :: 'x' :: hexPair b := by
  have all : ∀ b, isEscaped b = true →
      reprByte '"' b = '\\' :: 'x' :: hexPair b ∧ reprByte '\'' b = '\\' :: 'x' :: hexPair b :=
    forall_uint8 (by decide +kernel)
  rcases isQuote with rfl | rfl
  · exact (all b escaped).1
  · exact (all b escaped).2

theorem countP_reprByte {quote : Char} (isQuote : quote = '"' ∨ quote = '\'') (b : UInt8) :
    (reprByte quote b).countP isHexDigit ≤ if isEscaped b then 2 else 1 := by
  have all : ∀ b, (reprByte '"' b).countP isHexDigit ≤ (if isEscaped b then 2 else 1) ∧
      (reprByte '\'' b).countP isHexDigit ≤ (if isEscaped b then 2 else 1) :=
    forall_uint8 (by decide +kernel)
  rcases isQuote with rfl | rfl
  · exact (all b).1
  · exact (all b).2

theorem bytesRepr_escaped {data : Bytes} (escaped : ∀ b ∈ data, isEscaped b = true) :
    bytesRepr data = 'b' :: '\'' :: (data.flatMap fun b => '\\' :: 'x' :: hexPair b) ++ ['\''] := by
  have noQuote : 39 ∉ data := fun member => absurd (escaped 39 member) (by decide)
  have quote : reprQuote data = '\'' := if_neg fun both => noQuote both.1
  have body : data.flatMap (reprByte '\'') = data.flatMap fun b => '\\' :: 'x' :: hexPair b :=
    List.flatMap_congr fun b member => reprByte_escaped (Or.inr rfl) (escaped b member)
  rw [bytesRepr, quote, body]

theorem sum_weights (data : Bytes) :
    (data.map fun b => if isEscaped b then 2 else 1).sum = data.length + data.countP isEscaped := by
  induction data with
  | nil => rfl
  | cons b data ih =>
    rw [List.map_cons, List.sum_cons, ih, List.countP_cons, List.length_cons]
    split <;> omega

/-- The digits between the quotes: double quotes come with a single one, which is no digit. -/
theorem countP_body (data : Bytes) :
    (data.flatMap (reprByte (reprQuote data))).countP isHexDigit + (if reprQuote data = '"' then 1 else 0) ≤
      data.length + data.countP isEscaped := by
  have each := fun b (_ : b ∈ data) => countP_reprByte (reprQuote_cases data) b
  rw [List.countP_flatMap, ← sum_weights]
  by_cases double : reprQuote data = '"'
  · have single : 39 ∈ data := by
      unfold reprQuote at double
      split at double
      · rename_i both
        exact both.1
      · cases double
    have fewer := List.sum_lt_sum _ _ each ⟨39, single, by rw [double]; decide⟩
    rw [if_pos double]
    exact fewer
  · rw [if_neg double]
    exact List.sum_le_sum each

theorem newline_not_mem_bytesRepr (data : Bytes) : '\n' ∉ bytesRepr data := by
  have all : ∀ b, '\n' ∉ reprByte '"' b ∧ '\n' ∉ reprByte '\'' b := forall_uint8 (by decide +kernel)
  have quote := reprQuote_cases data
  generalize same : reprQuote data = q at quote
  intro member
  simp only [bytesRepr, same, List.cons_append, List.mem_cons, List.mem_append, List.mem_flatMap,
    List.not_mem_nil, or_false] at member
  rcases quote with rfl | rfl
  · rcases member with h | h | ⟨b, _, inByte⟩ | h
    · cases h
    · cases h
    · exact (all b).1 inByte
    · cases h
  · rcases member with h | h | ⟨b, _, inByte⟩ | h
    · cases h
    · cases h
    · exact (all b).2 inByte
    · cases h

end ByteRepr
