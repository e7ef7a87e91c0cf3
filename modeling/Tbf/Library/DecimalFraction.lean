import Mathlib.Algebra.Order.Field.Power
import Mathlib.Algebra.Order.Field.Rat
import Tbf.Library.CNumber

/-!
# Decimal fractions

Decimal numerals with a point, a fractional part and perhaps an exponent. The integer scans stop at the
point at the latest, and the floating-point scan takes the whole numeral.
-/

namespace DecimalFraction
open Text CNumber

structure DigitText where
  text : Str
  digits : ∀ c ∈ text, c.isDigit = true

def DigitText.of (text : Str) (digits : (text.all Char.isDigit) = true) : DigitText :=
  ⟨text, List.all_eq_true.mp digits⟩

/-- An optional sign, where `true` is the minus. -/
def signMark : Option Bool → Str
  | none => []
  | some true => ['-']
  | some false => ['+']

structure Exponent where
  upper : Bool
  sign : Option Bool
  magnitude : DigitText
  nonempty : magnitude.text ≠ []

def Exponent.text (e : Exponent) : Str :=
  (if e.upper then 'E' else 'e') :: (signMark e.sign ++ e.magnitude.text)

def Exponent.value (e : Exponent) : Int :=
  let magnitude : Nat := Nat.ofDigitChars 10 e.magnitude.text 0
  if e.sign = some true then -magnitude else magnitude

structure Decimal where
  sign : Option Bool
  whole : DigitText
  fraction : DigitText
  exponent : Option Exponent
  nonempty : whole.text ++ fraction.text ≠ []

namespace Decimal

def exponentText (d : Decimal) : Str := (d.exponent.map Exponent.text).getD []

/-- The numeral behind its sign. -/
def body (d : Decimal) : Str := d.whole.text ++ '.' :: (d.fraction.text ++ d.exponentText)

def text (d : Decimal) : Str := signMark d.sign ++ d.body

def negative (d : Decimal) : Bool := d.sign == some true

def magnitude (d : Decimal) : ℚ :=
  Nat.ofDigitChars 10 (d.whole.text ++ d.fraction.text) 0 *
    10 ^ ((d.exponent.map Exponent.value).getD 0 - d.fraction.text.length)

def value (d : Decimal) : ℚ := if d.negative then -d.magnitude else d.magnitude

end Decimal

/-! ### The integer scans -/

def point : UInt8 := 46

theorem mem_dropWhile {α : Type*} {p : α → Bool} {x : α} {xs : List α} (kept : p x = false) (member : x ∈ xs) :
    x ∈ xs.dropWhile p := by
  rw [← List.takeWhile_append_dropWhile (p := p) (l := xs)] at member
  rcases List.mem_append.mp member with dropped | here
  · have := List.mem_takeWhile_imp dropped
    rw [kept] at this
    cases this
  · exact here

theorem point_mem_scanSign {text : Bytes} (member : point ∈ text) : point ∈ (scanSign text).2 := by
  unfold scanSign
  split
  · exact (List.mem_cons.mp member).resolve_left (by decide)
  · exact (List.mem_cons.mp member).resolve_left (by decide)
  · exact member

theorem point_mem_scanBase {text : Bytes} (member : point ∈ text) :
    (scanBase text).1 ≤ 16 ∧ point ∈ (scanBase text).2 := by
  unfold scanBase
  split
  · rename_i hex
    refine ⟨Nat.le_refl _, ?_⟩
    unfold hexPrefix at hex
    split at hex
    · rename_i x d rest
      simp only [Bool.and_eq_true, Bool.or_eq_true, beq_iff_eq] at hex
      have letter : point ≠ x := by
        rcases hex.1 with rfl | rfl <;> decide
      exact (List.mem_cons.mp ((List.mem_cons.mp member).resolve_left (by decide))).resolve_left letter
    · cases hex
  · split
    · exact ⟨Nat.le_of_ble_eq_true rfl, member⟩
    · exact ⟨Nat.le_of_ble_eq_true rfl, member⟩

/-- No integer goes over a point. -/
theorem point_mem_scanInt {text : Bytes} (member : point ∈ text) {scan : IntScan}
    (scanned : scanInt text = some scan) : point ∈ scan.rest := by
  have body := point_mem_scanSign (mem_dropWhile (p := CNumber.isSpace) (by decide) member)
  obtain ⟨base, numeral⟩ := point_mem_scanBase body
  obtain ⟨_, made⟩ := Option.ite_none_left_eq_some.mp scanned
  rw [← Option.some.inj made]
  refine mem_dropWhile ?_ numeral
  rw [isDigitOf, decide_eq_false_iff_not]
  exact fun below => absurd (Nat.lt_of_lt_of_le below base) (by decide)

theorem strtoull_stops {text : Bytes} (member : point ∈ text) : (strtoull text).2 ≠ [] := by
  unfold strtoull
  split
  · exact List.ne_nil_of_mem member
  · rename_i scan scanned
    have left := List.ne_nil_of_mem (point_mem_scanInt member scanned)
    split
    · exact left
    · split <;> exact left

theorem strtoll_stops {text : Bytes} (member : point ∈ text) : (strtoll text).2 ≠ [] := by
  unfold strtoll
  split
  · exact List.ne_nil_of_mem member
  · rename_i scan scanned
    have left := List.ne_nil_of_mem (point_mem_scanInt member scanned)
    split <;> exact left

/-! ### The floating-point scan -/

theorem encode_digitText (t : DigitText) : encode t.text = t.text.map byteOf :=
  encode_ascii (ascii_of_isDigit t.digits)

theorem isDigitOf_digitText (t : DigitText) : ∀ b ∈ encode t.text, isDigitOf 10 b = true := by
  rw [encode_digitText]
  exact isDigitOf_of_isDigit t.digits

theorem encode_body (d : Decimal) :
    encode d.body = encode d.whole.text ++ point :: (encode d.fraction.text ++ encode d.exponentText) := by
  rw [Decimal.body, encode_append, ← List.singleton_append, encode_append, encode_append]
  rfl

theorem takeWhile_digits {digits rest : Bytes} (all : ∀ b ∈ digits, isDigitOf 10 b = true)
    (stops : ∀ b ∈ rest.head?, isDigitOf 10 b = false) :
    (digits ++ rest).takeWhile (isDigitOf 10) = digits ∧ (digits ++ rest).dropWhile (isDigitOf 10) = rest := by
  rw [List.takeWhile_append_of_pos all, List.dropWhile_append_of_pos all]
  cases rest with
  | nil => simp
  | cons b rest =>
    have stop : isDigitOf 10 b = false := stops b rfl
    simp [stop]

theorem scanSign_signMark (sign : Option Bool) {b : UInt8} (minus : b ≠ 45) (plus : b ≠ 43) (rest : Bytes) :
    (scanSign (encode (signMark sign) ++ b :: rest)).2 = b :: rest := by
  rcases sign with _ | _ | _
  · show (scanSign (b :: rest)).2 = b :: rest
    unfold scanSign
    split
    · rename_i same
      exact absurd (List.cons.inj same).1 minus
    · rename_i same
      exact absurd (List.cons.inj same).1 plus
    · rfl
  · rfl
  · rfl

theorem scanExponent_exponentText (d : Decimal) : scanExponent 101 (encode d.exponentText) = [] := by
  unfold Decimal.exponentText
  cases d.exponent with
  | none => rfl
  | some e =>
    obtain ⟨b, rest, digits⟩ : ∃ b rest, encode e.magnitude.text = b :: rest := by
      apply List.exists_cons_of_ne_nil
      rw [encode_digitText]
      simpa using e.nonempty
    have all := isDigitOf_digitText e.magnitude
    obtain ⟨_, minus, plus, _⟩ := digit_plain (all b (by simp [digits]))
    have power := scanSign_signMark e.sign minus plus rest
    have marked : ∃ mark, encode e.text = mark :: (encode (signMark e.sign) ++ encode e.magnitude.text) ∧
        (mark = 101 ∨ mark + 32 = 101) := by
      unfold Exponent.text
      rw [← List.singleton_append, encode_append, encode_append]
      cases e.upper
      · exact ⟨101, rfl, Or.inl rfl⟩
      · exact ⟨69, rfl, Or.inr rfl⟩
    obtain ⟨mark, text, letter⟩ := marked
    have whole := @takeWhile_digits _ [] all (fun _ none_there => by cases none_there)
    rw [List.append_nil] at whole
    rw [digits] at text whole
    show scanExponent 101 (encode e.text) = []
    rw [text, scanExponent]
    dsimp only
    rw [if_pos letter, power, whole.1, whole.2, if_neg (List.cons_ne_nil _ _)]

theorem scanMantissa_body (d : Decimal) : scanMantissa 10 (encode d.body) = some (encode d.exponentText) := by
  have stop : isDigitOf 10 point = false := by decide
  have mark : ∀ b ∈ (encode d.exponentText).head?, isDigitOf 10 b = false := by
    unfold Decimal.exponentText
    cases d.exponent with
    | none => exact fun _ none_there => by cases none_there
    | some e =>
      intro b first
      have letter : (encode e.text).head? = some (if e.upper then 69 else 101) := by
        unfold Exponent.text
        cases e.upper <;> rfl
      obtain rfl := Option.some.inj (letter.symm.trans first)
      split <;> decide
  have whole := @takeWhile_digits _ (point :: (encode d.fraction.text ++ encode d.exponentText))
    (isDigitOf_digitText d.whole) (fun b first => by obtain rfl := Option.some.inj first; exact stop)
  have fraction := takeWhile_digits (isDigitOf_digitText d.fraction) mark
  have some_digit : ¬ (encode d.whole.text = [] ∧ encode d.fraction.text = []) := by
    have nonempty := d.nonempty
    rw [encode_digitText, encode_digitText]
    simpa [List.append_eq_nil_iff] using nonempty
  rw [encode_body]
  unfold scanMantissa
  rw [whole.1, whole.2]
  show (if _ ∧ (encode d.fraction.text ++ encode d.exponentText).takeWhile (isDigitOf 10) = [] then none
    else some ((encode d.fraction.text ++ encode d.exponentText).dropWhile (isDigitOf 10))) = _
  rw [fraction.1, fraction.2, if_neg some_digit]

theorem mem_signMark {sign : Option Bool} {c : Char} (member : c ∈ signMark sign) : c = '+' ∨ c = '-' := by
  rcases sign with _ | _ | _
  · cases member
  · exact Or.inl (List.mem_singleton.mp member)
  · exact Or.inr (List.mem_singleton.mp member)

/-- The characters of a numeral: digits, the point, signs and the letter of the exponent. -/
theorem mem_text {d : Decimal} {c : Char} (member : c ∈ d.text) :
    c.isDigit = true ∨ c ∈ ['+', '-', '.', 'e', 'E'] := by
  have sign : ∀ {sign}, c ∈ signMark sign → c ∈ ['+', '-', '.', 'e', 'E'] := fun member => by
    rcases mem_signMark member with rfl | rfl <;> simp
  rcases List.mem_append.mp member with member | member
  · exact Or.inr (sign member)
  · rcases List.mem_append.mp member with member | member
    · exact Or.inl (d.whole.digits c member)
    · rcases List.mem_cons.mp member with rfl | member
      · exact Or.inr (by simp)
      · rcases List.mem_append.mp member with member | member
        · exact Or.inl (d.fraction.digits c member)
        · unfold Decimal.exponentText at member
          cases present : d.exponent with
          | none => simp [present] at member
          | some e =>
            rw [present] at member
            rcases List.mem_cons.mp member with rfl | member
            · right
              split <;> simp
            · rcases List.mem_append.mp member with member | member
              · exact Or.inr (sign member)
              · exact Or.inl (e.magnitude.digits c member)

theorem x_not_mem_text (d : Decimal) : 'x' ∉ d.text ∧ 'X' ∉ d.text ∧ '\n' ∉ d.text := by
  have no : ∀ c ∈ ['x', 'X', '\n'], ¬ (c.isDigit = true ∨ c ∈ ['+', '-', '.', 'e', 'E']) :=
    forall_mem_of_all (by decide)
  exact ⟨fun member => no 'x' (by simp) (mem_text member), fun member => no 'X' (by simp) (mem_text member),
    fun member => no '\n' (by simp) (mem_text member)⟩

theorem dropWord_body (d : Decimal) : dropWord "0x".toList (encode d.body) = none := by
  obtain ⟨lower, upper, _⟩ := x_not_mem_text d
  have inBody : ∀ {b : UInt8} {c : Char}, b.toNat < 128 → c.toNat = b.toNat → c ∉ d.text → b ∉ encode d.body := by
    intro b c ascii code absent member
    obtain ⟨c', there, same⟩ := (mem_encode_ascii ascii).mp member
    obtain rfl := Char.toNat_inj.mp (code.trans same.symm)
    exact absent (List.mem_append_right _ there)
  unfold dropWord
  dsimp only
  rw [if_neg]
  intro same
  have letter : (120 : UInt8) ∈ encode "0x".toList := by decide
  rw [← same] at letter
  obtain ⟨b, front, code⟩ := List.mem_map.mp letter
  have member := List.mem_of_mem_take front
  split at code
  · obtain rfl : b = 88 := by
      rw [← UInt8.toNat_inj] at code ⊢
      simp at code ⊢
      omega
    exact inBody (b := 88) (by decide) (c := 'X') rfl upper member
  · exact inBody (b := 120) (by decide) (c := 'x') rfl lower (code ▸ member)

/-- The scan of a floating-point number takes the whole numeral. -/
theorem strtoldRest_text (d : Decimal) : strtoldRest (encode d.text) = [] := by
  have first : ∃ b rest, encode d.body = b :: rest ∧ CNumber.isSpace b = false ∧ b ≠ 45 ∧ b ≠ 43 := by
    rw [encode_body]
    cases digits : encode d.whole.text with
    | nil => exact ⟨_, _, rfl, by decide, by decide, by decide⟩
    | cons b rest =>
      obtain ⟨blank, minus, plus, _⟩ := digit_plain (isDigitOf_digitText d.whole b (by simp [digits]))
      exact ⟨b, _, rfl, blank, minus, plus⟩
  obtain ⟨b, rest, body, blank, minus, plus⟩ := first
  have start : (scanSign ((encode d.text).dropWhile CNumber.isSpace)).2 = encode d.body := by
    have solid : (encode d.text).dropWhile CNumber.isSpace = encode (signMark d.sign) ++ b :: rest := by
      rw [Decimal.text, encode_append, body]
      rcases d.sign with _ | _ | _
      · exact List.dropWhile_cons_of_neg (by simp [blank])
      · rfl
      · rfl
    rw [solid, scanSign_signMark d.sign minus plus, body]
  unfold strtoldRest
  rw [start]
  dsimp only
  rw [dropWord_body, if_pos rfl]
  dsimp only
  rw [scanMantissa_body]
  exact scanExponent_exponentText d

end DecimalFraction
