import Tbf.Library.CInteger
import Tbf.Tools.Converters

/-!
# What `parse_inp` makes of a text

One unsigned cell of 64 bits serves the integers of every type, and the newline at the end is looked for
at an index that is computed as `unsigned int`.
-/

namespace Tbf.Harness
open Text InputSource CNumber CLiteral CInteger

/-! ### The newline -/

/-- The index of the last byte wraps around for the empty text alone. -/
theorem inputLength_lt_iff (inp : Bytes) : inputLength inp < inp.length ↔ inp ≠ [] := by
  rw [← List.length_pos_iff]
  unfold inputLength
  omega

theorem parseInp_oneLine (unit : CUnit) {inp : Bytes} (nonempty : inp ≠ []) (oneLine : newline ∉ inp) :
    parseInp unit inp = .of (convert unit inp) := by
  have inside := (inputLength_lt_iff inp).mpr nonempty
  have other : ¬ inp[inputLength inp]? = some newline := fun here => oneLine (List.mem_of_getElem? here)
  rw [parseInp, if_neg (Nat.not_lt_of_lt inside)]
  dsimp only
  rw [if_neg other]

/-- One newline behind the text makes no difference, as long as its index fits an `unsigned int`. -/
theorem parseInp_line {unit : CUnit} {inp written : Bytes} (short : inp.length < 2 ^ 32)
    (converted : convert unit inp = .ok written) : parseInp unit (inp ++ [newline]) = .value written := by
  have fits : (inp ++ [newline]).length ≤ 2 ^ 32 := by
    rw [List.length_append, List.length_singleton]
    omega
  rw [parseInp_chomp unit (by simp) fits, chomp_append_newline, converted]
  rfl

/-! ### Integers -/

inductive Spelling where
  | decimal | hexadecimal
  deriving DecidableEq, Repr

def Spelling.text {t : IntType} (v : t.Val) : Spelling → Str
  | decimal => Numeral.integerText v.int
  | hexadecimal => t.hexText v.int

/-- The text as it arrives: from a string literal, or as a line from stdin. -/
def arriving (text : Str) (trailing : Bool) : Bytes := encode text ++ if trailing then [newline] else []

theorem Spelling.strtoull {t : IntType} (v : t.Val) (spelling : Spelling) :
    ∃ word : Nat, strtoull (encode (spelling.text v)) = (word, []) ∧
      (word : Int) % 2 ^ t.bits = v.int % 2 ^ t.bits := by
  cases spelling with
  | hexadecimal => exact ⟨_, t.strtoull_hexText v.int, t.word_emod v.int⟩
  | decimal =>
    obtain ⟨word, read, same⟩ := IntType.strtoull_integerText v.bounds.1 v.bounds.2
    have divides : (2 : Int) ^ t.bits ∣ 2 ^ 64 := by
      apply pow_dvd_pow
      have size := t.size_le
      unfold IntType.bits
      omega
    refine ⟨word, read, ?_⟩
    rw [← Int.emod_emod_of_dvd (word : Int) divides, same, Int.emod_emod_of_dvd _ divides]

theorem convert_spelling (unit : CUnit) {t : IntType} (v : t.Val) (spelling : Spelling) :
    ∃ word : Nat, convert unit (encode (spelling.text v)) = .ok (littleEndianBytes 8 (unit.result .strtoull word)) ∧
      (word : Int) % 2 ^ t.bits = v.int % 2 ^ t.bits := by
  obtain ⟨word, read, same⟩ := spelling.strtoull v
  refine ⟨word, ?_, same⟩
  rw [convert, read]
  rfl

/-- A digit of either spelling, the `x` of the prefix, or a minus. -/
theorem mem_spelling {t : IntType} (v : t.Val) (spelling : Spelling) {c : Char} (member : c ∈ spelling.text v) :
    c = '-' ∨ c = 'x' ∨ Numeral.isHexDigit c = true := by
  cases spelling with
  | decimal =>
    rcases Numeral.mem_integerText member with minus | digit
    · exact Or.inl minus
    · right; right
      rw [Numeral.isHexDigit, digit, Bool.true_or]
  | hexadecimal => exact Or.inr (Numeral.mem_hexText member)

theorem spelling_ne_nil {t : IntType} (v : t.Val) (spelling : Spelling) : spelling.text v ≠ [] := by
  cases spelling with
  | decimal => exact Numeral.integerText_ne_nil _
  | hexadecimal => exact List.cons_ne_nil _ _

theorem length_spelling {t : IntType} (v : t.Val) (spelling : Spelling) : (spelling.text v).length ≤ 21 := by
  cases spelling with
  | decimal =>
    have bounds := v.bounds
    have digits : (Numeral.decimal v.int.natAbs).length ≤ 20 :=
      (Nat.length_toDigits_le_iff (by decide) (by decide)).mpr (by omega)
    have sign : (Numeral.signText (v.int < 0)).length ≤ 1 := by
      unfold Numeral.signText
      split <;> simp
    simp only [Spelling.text, Numeral.integerText, List.length_append]
    omega
  | hexadecimal =>
    have size := t.size_le
    simp only [Spelling.text, IntType.hexText, Numeral.hexText, List.length_cons, Numeral.length_hexDigits,
      IntType.bytes, length_littleEndianBytes]
    omega

theorem arriving_value {unit : CUnit} {t : IntType} (v : t.Val) (spelling : Spelling) (trailing : Bool) {written : Bytes}
    (converted : convert unit (encode (spelling.text v)) = .ok written) :
    parseInp unit (arriving (spelling.text v) trailing) = .value written := by
  have plain : ∀ c : Char, c = '-' ∨ c = 'x' ∨ Numeral.isHexDigit c = true → c.toNat < 128 ∧ c ≠ '\n' := by
    rintro c (rfl | rfl | digit)
    · decide
    · decide
    · obtain ⟨n, small, rfl⟩ := Numeral.exists_digitChar_of_isHexDigit digit
      have all : ∀ n : Fin 16, n.val.digitChar.toNat < 128 ∧ n.val.digitChar ≠ '\n' := by decide
      exact all ⟨n, small⟩
  have ascii : Ascii (spelling.text v) := fun c member => (plain c (mem_spelling v spelling member)).1
  have bytes := encode_ascii ascii
  unfold arriving
  cases trailing with
  | true =>
    have size := length_spelling v spelling
    exact parseInp_line (by rw [bytes, List.length_map]; omega) converted
  | false =>
    have nonempty : encode (spelling.text v) ≠ [] := by simpa [bytes] using spelling_ne_nil v spelling
    have oneLine : newline ∉ encode (spelling.text v) := by
      rw [newline_mem_encode]
      exact fun member => (plain _ (mem_spelling v spelling member)).2 rfl
    rw [if_neg (by simp), List.append_nil, parseInp_oneLine unit nonempty oneLine, converted]
    rfl

/-- `*((T *) parse_inp(text))` is `v`, whatever `malloc` left in the buffer. -/
def Yields (unit : CUnit) (t : IntType) (inp : Bytes) (v : Int) : Prop :=
  ∃ written, parseInp unit inp = .value written ∧ ∀ junk, t.decode (readAs t.size written junk) = v

/-- Words that agree modulo the type are kept alike. -/
theorem keeps_congr (unit : CUnit) {t : IntType} {v : t.Val} {word : Nat}
    (same : (word : Int) % 2 ^ t.bits = v.int % 2 ^ t.bits) :
    unit.Keeps t.size word ↔ unit.Keeps t.size (t.word v.int) := by
  have agree : word % 256 ^ t.size = t.word v.int % 256 ^ t.size := by
    rw [← t.two_pow_bits]
    exact_mod_cast same.trans (t.word_emod v.int).symm
  unfold CUnit.Keeps
  rw [Nat.add_mod, agree, ← Nat.add_mod]

/-- The values that come through an `int`: all of the smaller types, and those of 64 bits that are, modulo `2 ^ 64`,
numbers of an `int`. -/
theorem keeps_word_iff (unit : CUnit) {t : IntType} (v : t.Val) : unit.Keeps t.size (t.word v.int) ↔
    unit.declares .strtoull = true ∨ t.width ≠ .w64 ∨ (-2 ^ 31 ≤ v.int ∧ v.int < 2 ^ 31) ∨ 2 ^ 64 - 2 ^ 31 ≤ v.int := by
  unfold CUnit.Keeps
  refine or_congr_right ?_
  by_cases wide : t.width = .w64
  · have size : t.size = 8 := by rw [IntType.size, wide]; rfl
    have bits : t.bits = 64 := by rw [IntType.bits, size]
    have range := v.bounds
    have residue := v.emod
    unfold IntType.word
    rw [residue]
    rw [bits, size, wide]
    simp only [ne_eq, not_true_eq_false, false_or]
    split <;> omega
  · have all := (bareUnit.keeps_of_small (IntType.size_le_of_ne wide) (t.word v.int)).resolve_left (by decide)
    exact iff_of_true all (Or.inl wide)

theorem yields_iff_keeps (unit : CUnit) {t : IntType} (v : t.Val) (spelling : Spelling) (trailing : Bool) :
    Yields unit t (arriving (spelling.text v) trailing) v.int ↔ unit.Keeps t.size (t.word v.int) := by
  obtain ⟨word, converted, same⟩ := convert_spelling unit v spelling
  have parsed := arriving_value v spelling trailing converted
  have read : ∀ junk, readAs t.size (littleEndianBytes 8 (unit.result .strtoull word)) junk =
      littleEndianBytes t.size (unit.result .strtoull word) := fun junk => by
    rw [readAs, List.take_append_of_le_length (by rw [length_littleEndianBytes]; exact t.size_le),
      take_littleEndianBytes t.size_le]
  have yields : Yields unit t (arriving (spelling.text v) trailing) v.int ↔
      t.decode (littleEndianBytes t.size (unit.result .strtoull word)) = v.int := by
    unfold Yields
    simp only [parsed, Parsed.value.injEq, exists_eq_left', read, forall_const]
  rw [yields, IntType.decode_eq_iff, ← keeps_congr unit same, ← unit.keeps_iff t.size_le, littleEndianBytes_eq_iff_mod,
    ← t.two_pow_bits, ← same]
  norm_cast

/-- Every integer in range, in both spellings and with or without a newline, comes out of `parse_inp` as a value of
its type exactly if the program declares `strtoull` or the value comes through an `int`. -/
theorem parseInp_integer_iff (unit : CUnit) (t : IntType) (v : t.Val) (spelling : Spelling) (trailing : Bool) :
    Yields unit t (arriving (spelling.text v) trailing) v.int ↔
      unit.declares .strtoull = true ∨ t.width ≠ .w64 ∨ (-2 ^ 31 ≤ v.int ∧ v.int < 2 ^ 31) ∨ 2 ^ 64 - 2 ^ 31 ≤ v.int :=
  (yields_iff_keeps unit v spelling trailing).trans (keeps_word_iff unit v)

/-- `4294967296`, whose low half is zero. -/
def wideValue : IntType.Val ⟨.w64, true⟩ := ⟨2 ^ 32, by decide, by decide⟩

/-- Without a declaration of `strtoull` the value is lost. -/
theorem wideValue_not_yielded :
    ¬ Yields bareUnit ⟨.w64, true⟩ (arriving (Spelling.decimal.text wideValue) false) wideValue.int := by
  rw [yields_iff_keeps]
  rintro (declared | number)
  · cases declared
  · revert number
    decide

/-! ### Empty strings -/

/-- A line between quotes that denotes no character in front of the first NUL. -/
def blankLine : Bytes → Bool
  | [] => true
  | b :: rest => b == 0 || (b == backslash && (scanEscape rest).any fun escape => escape.1.head? == some 0)

def blankLiteral (text : Bytes) : Bool := (joined text).any blankLine

theorem cstr_eq_nil_iff (value : Bytes) : cstr value = [] ↔ value = [] ∨ value.head? = some 0 := by
  cases value with
  | nil => simp [cstr]
  | cons b value => by_cases zero : b = 0 <;> simp [cstr, zero]

theorem cstr_literalFrom_eq_nil_iff {fuel : Nat} {line value : Bytes} (denoted : literalFrom fuel line = some value) :
    cstr value = [] ↔ blankLine line = true := by
  cases line with
  | nil =>
    obtain rfl : [] = value := by simpa [literalFrom] using denoted
    simp [cstr, blankLine]
  | cons b rest =>
    cases fuel with
    | zero => cases denoted
    | succ fuel =>
      rw [cstr_eq_nil_iff]
      unfold literalFrom at denoted
      split at denoted
      · cases denoted
      · split at denoted
        · rename_i escape
          subst escape
          split at denoted
          · rename_i bytes after scanned
            obtain ⟨tail, _, rfl⟩ := Option.map_eq_some_iff.mp denoted
            have nonempty := scanEscape_ne_nil scanned
            rw [List.head?_append_of_ne_nil _ nonempty]
            simp [blankLine, scanned, nonempty, show backslash ≠ 0 by decide]
          · cases denoted
        · rename_i other
          obtain ⟨tail, _, rfl⟩ := Option.map_eq_some_iff.mp denoted
          simp [blankLine, other]

theorem cstr_literal_eq_nil_iff {text value : Bytes} (denoted : literal text = some value) :
    cstr value = [] ↔ blankLiteral text = true := by
  obtain ⟨line, made, denoted⟩ := Option.bind_eq_some_iff.mp denoted
  rw [cstr_literalFrom_eq_nil_iff denoted, blankLiteral, made, Option.any_some]

/-- The next read is of an empty string: a value that denotes none, or a line of stdin with a NUL in front. -/
def readsEmpty (testVector : Option TestVector) (p : Process) : Bool :=
  match testVector with
  | none => p.stdin.head? == some 0
  | some tv => tv.lines[p.accessCounter]?.any blankLiteral

/-- The string that `parse_inp` is called with: a line that `fgets` has read, or the value that the switch selects, which
`strcpy` writes to its end, also behind the end of a buffer that is too small for it. -/
def Receives (testVector : Option TestVector) (p : Process) (buffer : Bytes) : Prop :=
  match testVector with
  | none => (readInput none p).1 = some buffer
  | some tv => ∃ text value, tv.lines[p.accessCounter]? = some text ∧ literal text = some value ∧ buffer = cstr value

/-- Where the value fits, this is what the statements of the method have put into `inp_var`. -/
theorem receives_of_readInput {testVector : Option TestVector} {p : Process} {buffer : Bytes}
    (read : (readInput testVector p).1 = some buffer) : Receives testVector p buffer := by
  cases testVector with
  | none => exact read
  | some tv =>
    unfold readInput execAll readStatements at read
    simp only [List.foldlM_cons, List.foldlM_nil, Stmt.exec, Option.bind_eq_bind, Option.bind_some] at read
    cases here : tv.lines[p.accessCounter]? with
    | none => simp [here] at read
    | some text =>
      cases denoted : literal text with
      | none => simp [here, denoted] at read
      | some value =>
        refine ⟨text, value, here, denoted, ?_⟩
        by_cases fits : (cstr value).length < INP_SIZE
        · simpa [here, denoted, fits, eq_comm] using read
        · simp [here, denoted, fits] at read

/-- The index of the last byte lies in the string exactly where the next read is not of an empty one. -/
theorem newlineIndex_inside_iff (testVector : Option TestVector) (p : Process) {buffer : Bytes}
    (received : Receives testVector p buffer) :
    inputLength (cstr buffer) < (cstr buffer).length ↔ readsEmpty testVector p = false := by
  rw [inputLength_lt_iff, ne_eq, ← Bool.not_eq_true]
  apply not_congr
  cases testVector with
  | none =>
    rw [Receives, readInput_stdin] at received
    rw [cstr_fgets_eq_nil (by decide) received]
    simp [readsEmpty]
  | some tv =>
    obtain ⟨text, value, here, denoted, rfl⟩ := received
    have same : cstr (cstr value) = cstr value :=
      cstr_of_not_mem fun member => by simpa using List.mem_takeWhile_imp member
    rw [same, cstr_literal_eq_nil_iff denoted]
    simp [readsEmpty, here]

theorem newlineIndex_inside_iff_seven :
    inputLength (cstr (encode "7\n".toList)) < (cstr (encode "7\n".toList)).length ↔
      readsEmpty none ⟨encode "7\n".toList, 0⟩ = false :=
  newlineIndex_inside_iff none ⟨encode "7\n".toList, 0⟩ (receives_of_readInput (by decide))

/-- The vector that CPATiger's test without inputs is decoded to hands an empty string to `parse_inp`. -/
theorem newlineIndex_outside_empty_test :
    ∃ tv, Tester.cpatiger.Produces tv ∧ ∃ buffer, Receives (some tv) ⟨[], 0⟩ buffer ∧
      ¬ inputLength (cstr buffer) < (cstr buffer).length := by
  refine ⟨⟨['0'], "testsuite.txt".toList, [⟨.str [], none⟩]⟩, ⟨⟨['0'], "testsuite.txt".toList, "[]".toList⟩, ?_⟩,
    [], receives_of_readInput ?_, by decide⟩
  · decide
  · decide

end Tbf.Harness
