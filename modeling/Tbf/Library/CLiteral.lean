import Tbf.Library.CNumber
import Tbf.Library.InputSource

/-!
# C string literals

The bytes that the text between the quotes of a string literal stands for, as GNU C reads them: without trigraphs,
and with a value for every escape that it only warns of. A text that is no literal body has none.
-/

namespace CLiteral
open Text CNumber InputSource

def backslash : UInt8 := 92

def quote : UInt8 := 34

def simpleEscape (b : UInt8) : Option UInt8 :=
  match b.toNat with
  | 39 => some 39
  | 34 => some 34
  | 63 => some 63
  | 92 => some 92
  | 97 => some 7
  | 98 => some 8
  | 101 | 69 => some 27
  | 102 => some 12
  | 110 => some 10
  | 114 => some 13
  | 116 => some 9
  | 118 => some 11
  | _ => none

/-- UTF-8 in its first form, which goes on to six bytes. -/
def utf8Bytes (code : Nat) : Bytes :=
  let tail := fun (n : Nat) => UInt8.ofNat (0x80 + code / 64 ^ n % 64)
  if code < 0x80 then [UInt8.ofNat code]
  else if code < 0x800 then [UInt8.ofNat (0xC0 + code / 64), tail 0]
  else if code < 0x10000 then [UInt8.ofNat (0xE0 + code / 64 ^ 2), tail 1, tail 0]
  else if code < 0x200000 then [UInt8.ofNat (0xF0 + code / 64 ^ 3), tail 2, tail 1, tail 0]
  else if code < 0x4000000 then [UInt8.ofNat (0xF8 + code / 64 ^ 4), tail 3, tail 2, tail 1, tail 0]
  else [UInt8.ofNat (0xFC + code / 64 ^ 5), tail 4, tail 3, tail 2, tail 1, tail 0]

/-- The characters that a universal name may stand for; one behind the last plane is only warned of. -/
def isUniversal (code : Nat) : Bool :=
  code < 2 ^ 31 && !(0xD800 ≤ code && code ≤ 0xDFFF) &&
    (0xA0 ≤ code || code == 0x24 || code == 0x40 || code == 0x60)

/-- The digits at the front of a text, and what is behind them. -/
def bareDigits (base : Nat) (text : Bytes) : Option (Bytes × Bytes) :=
  let digits := text.takeWhile (isDigitOf base)
  if digits ≠ [] then some (digits, text.drop digits.length) else none

/-- Any number of digits between braces, which gcc takes from version 13 on. -/
def bracedDigits (base : Nat) : Bytes → Option (Bytes × Bytes)
  | [] => none
  | b :: rest =>
    match bareDigits base rest with
    | some (digits, c :: behind) => if b = 123 ∧ c = 125 then some (digits, behind) else none
    | _ => none

def fixedDigits (n : Nat) (text : Bytes) : Option (Bytes × Bytes) :=
  let digits := text.take n
  if digits.length = n ∧ digits.all (isDigitOf 16) then some (digits, text.drop n) else none

/-- A number out of range keeps its low byte. -/
def byteOf (base : Nat) (scanned : Bytes × Bytes) : Bytes × Bytes :=
  ([UInt8.ofNat (digitsValue base scanned.1 % 256)], scanned.2)

def universalOf (scanned : Bytes × Bytes) : Option (Bytes × Bytes) :=
  let code := digitsValue 16 scanned.1
  if isUniversal code then some (utf8Bytes code, scanned.2) else none

/-- What follows a backslash: the bytes it stands for and the rest of the text. An escape that is none stands for its
own character. One by the name of a character (`N`) is no escape here. -/
def scanEscape : Bytes → Option (Bytes × Bytes)
  | [] => none
  | b :: rest =>
    if isDigitOf 8 b then
      let digits := ((b :: rest).take 3).takeWhile (isDigitOf 8)
      some (byteOf 8 (digits, (b :: rest).drop digits.length))
    else if b = 111 then (bracedDigits 8 rest).map (byteOf 8)
    else if b = 120 then ((bracedDigits 16 rest).or (bareDigits 16 rest)).map (byteOf 16)
    else if b = 117 then ((bracedDigits 16 rest).or (fixedDigits 4 rest)).bind universalOf
    else if b = 85 then (fixedDigits 8 rest).bind universalOf
    else if b = 78 then none
    else some ([(simpleEscape b).getD b], rest)

def literalFrom : Nat → Bytes → Option Bytes
  | _, [] => some []
  | 0, _ :: _ => none
  | fuel + 1, b :: rest =>
    if b = quote then none
    else if b = backslash then
      match scanEscape rest with
      | some (bytes, rest) => (literalFrom fuel rest).map (bytes ++ ·)
      | none => none
    else (literalFrom fuel rest).map (b :: ·)

/-! ### Lines -/

def carriageReturn : UInt8 := 13

/-- What may stand between a backslash and the end of the line that it continues. -/
def isBlank (b : UInt8) : Bool := b == 32 || b == 9 || b == 11 || b == 12 || b == 0

/-- A carriage return ends a line. The line goes on behind it if a backslash, and blanks at most, stand in front;
`pending` is this backslash with its blanks. A literal that is left open at the end of a line is none. -/
def joinedFrom (pending : Bytes) : Bytes → Option Bytes
  | [] => some pending
  | b :: rest =>
    if b = newline then none
    else if b = carriageReturn then if pending = [] then none else joinedFrom [] rest
    else if b = backslash then (joinedFrom [b] rest).map (pending ++ ·)
    else if pending ≠ [] ∧ isBlank b then joinedFrom (pending ++ [b]) rest
    else (joinedFrom [] rest).map (pending ++ b :: ·)

def joined (text : Bytes) : Option Bytes := joinedFrom [] text

/-- Every step consumes a byte, so the length of the text is enough fuel. -/
def literal (text : Bytes) : Option Bytes := (joined text).bind fun line => literalFrom line.length line

example : literal (encode "a\\x41\\\"\\101\\q\\400".toList) = some (encode "aA\"Aq".toList ++ [0]) := by decide

example : literal (encode "7\\ \r8".toList) = some (encode "78".toList) := by decide

example : literal (encode "7\r".toList) = none := by decide

example : literal (encode "\\x\x7b41\x7d\\u\x7b00e9\x7d".toList) = some (encode "Aé".toList) := by decide

/-! ### Escapes -/

theorem zero_not_mem_digits {digits : Bytes} {base : Nat} (small : base ≤ 36)
    (all : ∀ b ∈ digits, isDigitOf base b = true) : 0 ∉ digits := by
  intro member
  have digit : 36 < base := of_decide_eq_true (all 0 member)
  omega

theorem digitsValue_lt {digits : Bytes} {base : Nat} (all : ∀ b ∈ digits, isDigitOf base b = true) :
    digitsValue base digits < base ^ digits.length := by
  induction digits using List.reverseRecOn with
  | nil => simp [digitsValue]
  | append_singleton front b ih =>
    have digit : digitVal b < base := of_decide_eq_true (all b (by simp))
    have before := ih fun c member => all c (List.mem_append_left _ member)
    have value : digitsValue base (front ++ [b]) = base * digitsValue base front + digitVal b := by
      simp [digitsValue]
    calc digitsValue base (front ++ [b]) < base * digitsValue base front + base := by omega
      _ = base * (digitsValue base front + 1) := by ring
      _ ≤ base * base ^ front.length := Nat.mul_le_mul_left base before
      _ = base ^ (front ++ [b]).length := by rw [List.length_append, List.length_singleton, Nat.pow_succ']

theorem length_utf8Bytes {code : Nat} : (utf8Bytes code).length ≤ 6 ∧ (code < 16 ^ 4 → (utf8Bytes code).length ≤ 3) := by
  unfold utf8Bytes
  dsimp only
  repeat' split
  all_goals
    refine ⟨by simp, fun short => ?_⟩
    first | exact absurd short (by omega) | simp

theorem split_at_digits {digits text : Bytes} (front : digits <+: text) :
    text = digits ++ text.drop digits.length :=
  (List.prefix_iff_eq_append.mp front).symm

/-- The digits stand at the front of the text, in a part without a NUL. -/
structure Scanned (base : Nat) (text digits rest scanned : Bytes) : Prop where
  split : text = scanned ++ rest
  clean : 0 ∉ scanned
  digit : ∀ b ∈ digits, isDigitOf base b = true
  size : digits.length ≤ scanned.length

/-- The part is long enough for every character that the digits can name. -/
def Roomy (digits scanned : Bytes) : Prop := 3 ≤ scanned.length ∧ (4 < digits.length → 6 ≤ scanned.length)

theorem bareDigits_spec {base : Nat} (small : base ≤ 36) {text digits rest : Bytes}
    (h : bareDigits base text = some (digits, rest)) : digits ≠ [] ∧ Scanned base text digits rest digits := by
  unfold bareDigits at h
  dsimp only at h
  split at h
  · rename_i some'
    obtain ⟨rfl, rfl⟩ := Prod.mk.inj (Option.some.inj h)
    have all : ∀ b ∈ text.takeWhile (isDigitOf base), isDigitOf base b = true := fun c => List.mem_takeWhile_imp
    exact ⟨some', split_at_digits (List.takeWhile_prefix _), zero_not_mem_digits small all, all, Nat.le_refl _⟩
  · cases h

theorem bracedDigits_spec {base : Nat} (small : base ≤ 36) {text digits rest : Bytes}
    (h : bracedDigits base text = some (digits, rest)) :
    ∃ scanned, Scanned base text digits rest scanned ∧ Roomy digits scanned := by
  cases text with
  | nil => cases h
  | cons b tail =>
    rw [bracedDigits] at h
    split at h
    · rename_i digits' c behind bare
      obtain ⟨some', bare⟩ := bareDigits_spec small bare
      split at h
      · rename_i braces
        obtain ⟨rfl, rfl⟩ := braces
        obtain ⟨rfl, rfl⟩ := Prod.mk.inj (Option.some.inj h)
        have one := List.length_pos_iff.mpr some'
        refine ⟨123 :: digits' ++ [125], ⟨by simp [bare.split], ?_, bare.digit, by simp; omega⟩, ?_⟩
        · simpa using bare.clean
        · unfold Roomy
          simp only [List.cons_append, List.length_cons, List.length_append, List.length_nil]
          omega
      · cases h
    · cases h

theorem fixedDigits_spec {n : Nat} (long : n = 4 ∨ n = 8) {text digits rest : Bytes}
    (h : fixedDigits n text = some (digits, rest)) : Scanned 16 text digits rest digits ∧ Roomy digits digits := by
  unfold fixedDigits at h
  dsimp only at h
  split at h
  · rename_i valid
    obtain ⟨rfl, rfl⟩ := Prod.mk.inj (Option.some.inj h)
    have all := List.all_eq_true.mp valid.2
    refine ⟨⟨(List.take_append_drop n text).symm, zero_not_mem_digits (by decide) all, all, Nat.le_refl _⟩, ?_⟩
    unfold Roomy
    omega
  · cases h

theorem universalOf_spec {text digits rest scanned bytes behind : Bytes} (found : Scanned 16 text digits rest scanned)
    (roomy : Roomy digits scanned) (h : universalOf (digits, rest) = some (bytes, behind)) :
    behind = rest ∧ bytes.length ≤ scanned.length := by
  unfold universalOf at h
  dsimp only at h
  split at h
  · obtain ⟨rfl, rfl⟩ := Prod.mk.inj (Option.some.inj h)
    obtain ⟨most, short⟩ := @length_utf8Bytes (digitsValue 16 digits)
    refine ⟨rfl, ?_⟩
    by_cases few : digits.length ≤ 4
    · have below := Nat.lt_of_lt_of_le (digitsValue_lt found.digit) (Nat.pow_le_pow_right (show 0 < 16 by decide) few)
      exact Nat.le_trans (short below) roomy.1
    · exact Nat.le_trans most (roomy.2 (Nat.lt_of_not_le few))
  · cases h

/-- An escape is at least as long as the bytes it stands for, and holds a NUL only if it is one. -/
theorem scanEscape_spec {text bytes rest : Bytes} (h : scanEscape text = some (bytes, rest)) :
    ∃ escape, text = escape ++ rest ∧ bytes.length ≤ escape.length ∧ (0 ∈ escape → escape = [0] ∧ bytes = [0]) := by
  cases text with
  | nil => cases h
  | cons b tail =>
    -- A letter with digits behind it.
    have byte : ∀ {base : Nat} {digits behind scanned : Bytes}, b ≠ 0 → Scanned base tail digits behind scanned →
        byteOf base (digits, behind) = (bytes, rest) → ∃ escape, b :: tail = escape ++ rest ∧
          bytes.length ≤ escape.length ∧ (0 ∈ escape → escape = [0] ∧ bytes = [0]) := by
      intro base digits behind scanned nonzero found same
      obtain ⟨rfl, rfl⟩ := Prod.mk.inj same
      have outside : 0 ∉ b :: scanned := by simpa [eq_comm] using ⟨nonzero, found.clean⟩
      exact ⟨b :: scanned, by rw [found.split, List.cons_append], by simp, fun inside => absurd inside outside⟩
    have name : ∀ {digits behind scanned : Bytes}, b ≠ 0 → Scanned 16 tail digits behind scanned → Roomy digits scanned →
        universalOf (digits, behind) = some (bytes, rest) → ∃ escape, b :: tail = escape ++ rest ∧
          bytes.length ≤ escape.length ∧ (0 ∈ escape → escape = [0] ∧ bytes = [0]) := by
      intro digits behind scanned nonzero found roomy named
      obtain ⟨rfl, size⟩ := universalOf_spec found roomy named
      have outside : 0 ∉ b :: scanned := by simpa [eq_comm] using ⟨nonzero, found.clean⟩
      exact ⟨b :: scanned, by rw [found.split, List.cons_append], Nat.le_trans size (Nat.le_succ _),
        fun inside => absurd inside outside⟩
    unfold scanEscape at h
    dsimp only at h
    split at h
    · rename_i octal
      obtain ⟨rfl, rfl⟩ := Prod.mk.inj (Option.some.inj h)
      have clean : 0 ∉ ((b :: tail).take 3).takeWhile (isDigitOf 8) :=
        zero_not_mem_digits (by decide) fun c member => List.mem_takeWhile_imp member
      refine ⟨((b :: tail).take 3).takeWhile (isDigitOf 8),
        split_at_digits ((List.takeWhile_prefix _).trans (List.take_prefix 3 _)), ?_, fun inside => absurd inside clean⟩
      simp [octal]
    split at h
    · rename_i letter
      obtain ⟨⟨digits, behind⟩, braced, same⟩ := Option.map_eq_some_iff.mp h
      obtain ⟨scanned, found, -⟩ := bracedDigits_spec (by decide) braced
      exact byte (by simp [letter]) found same
    split at h
    · rename_i letter
      obtain ⟨⟨digits, behind⟩, either, same⟩ := Option.map_eq_some_iff.mp h
      rcases Option.or_eq_some_iff.mp either with braced | ⟨-, bare⟩
      · obtain ⟨scanned, found, -⟩ := bracedDigits_spec (by decide) braced
        exact byte (by simp [letter]) found same
      · exact byte (by simp [letter]) (bareDigits_spec (by decide) bare).2 same
    split at h
    · rename_i letter
      obtain ⟨⟨digits, behind⟩, either, named⟩ := Option.bind_eq_some_iff.mp h
      rcases Option.or_eq_some_iff.mp either with braced | ⟨-, fixed⟩
      · obtain ⟨scanned, found, roomy⟩ := bracedDigits_spec (by decide) braced
        exact name (by simp [letter]) found roomy named
      · obtain ⟨found, roomy⟩ := fixedDigits_spec (Or.inl rfl) fixed
        exact name (by simp [letter]) found roomy named
    split at h
    · rename_i letter
      obtain ⟨⟨digits, behind⟩, fixed, named⟩ := Option.bind_eq_some_iff.mp h
      obtain ⟨found, roomy⟩ := fixedDigits_spec (Or.inr rfl) fixed
      exact name (by simp [letter]) found roomy named
    split at h
    · cases h
    · obtain ⟨rfl, rfl⟩ := Prod.mk.inj (Option.some.inj h)
      refine ⟨[b], rfl, by simp, fun inside => ?_⟩
      obtain rfl := List.mem_singleton.mp inside
      exact ⟨rfl, rfl⟩

theorem utf8Bytes_ne_nil (code : Nat) : utf8Bytes code ≠ [] := by
  unfold utf8Bytes
  dsimp only
  repeat' split
  all_goals exact List.cons_ne_nil _ _

theorem scanEscape_ne_nil {text bytes rest : Bytes} (scanned : scanEscape text = some (bytes, rest)) :
    bytes ≠ [] := by
  have byte : ∀ {base : Nat} {digits : Bytes × Bytes}, byteOf base digits = (bytes, rest) → bytes ≠ [] := by
    intro base digits same
    obtain ⟨rfl, _⟩ := Prod.mk.inj same
    exact List.cons_ne_nil _ _
  have name : ∀ {digits : Bytes × Bytes}, universalOf digits = some (bytes, rest) → bytes ≠ [] := by
    intro digits named
    unfold universalOf at named
    dsimp only at named
    split at named
    · obtain ⟨rfl, _⟩ := Prod.mk.inj (Option.some.inj named)
      exact utf8Bytes_ne_nil _
    · cases named
  cases text with
  | nil => cases scanned
  | cons b tail =>
    unfold scanEscape at scanned
    dsimp only at scanned
    split at scanned
    · exact byte (Option.some.inj scanned)
    split at scanned
    · obtain ⟨_, _, same⟩ := Option.map_eq_some_iff.mp scanned
      exact byte same
    split at scanned
    · obtain ⟨_, _, same⟩ := Option.map_eq_some_iff.mp scanned
      exact byte same
    split at scanned
    · obtain ⟨_, _, named⟩ := Option.bind_eq_some_iff.mp scanned
      exact name named
    split at scanned
    · obtain ⟨_, _, named⟩ := Option.bind_eq_some_iff.mp scanned
      exact name named
    split at scanned
    · cases scanned
    · obtain ⟨rfl, _⟩ := Prod.mk.inj (Option.some.inj scanned)
      exact List.cons_ne_nil _ _

theorem cstr_cons {b : UInt8} (nonzero : b ≠ 0) (text : Bytes) : cstr (b :: text) = b :: cstr text := by
  simp [cstr, nonzero]

theorem cstr_append {front : Bytes} (clean : 0 ∉ front) (text : Bytes) :
    cstr (front ++ text) = front ++ cstr text := by
  induction front with
  | nil => rfl
  | cons b front ih =>
    simp only [List.mem_cons, not_or] at clean
    rw [List.cons_append, cstr_cons (fun same => clean.1 same.symm), ih clean.2, List.cons_append]

theorem length_cstr_append_le (front text : Bytes) :
    (cstr (front ++ text)).length ≤ front.length + (cstr text).length := by
  by_cases ends : 0 ∈ front
  · rw [cstr_append_of_mem ends]
    exact Nat.le_trans (List.takeWhile_prefix _).length_le (Nat.le_add_right _ _)
  · rw [cstr_append ends, List.length_append]

/-- The C string that a line denotes is never longer than the C string of the line itself, and shorter where an escape
stands before the first NUL. -/
theorem cstr_literalFrom {fuel : Nat} {text value : Bytes} (h : literalFrom fuel text = some value) :
    (cstr value).length ≤ (cstr text).length ∧
      (backslash ∈ cstr text → (cstr value).length < (cstr text).length) := by
  induction fuel generalizing text value with
  | zero =>
    cases text with
    | nil => obtain rfl := Option.some.inj h; simp [cstr]
    | cons b rest => cases h
  | succ fuel ih =>
    cases text with
    | nil => obtain rfl := Option.some.inj h; simp [cstr]
    | cons b rest =>
      unfold literalFrom at h
      split at h
      · cases h
      · split at h
        · rename_i escape
          subst escape
          split at h
          · rename_i bytes after scanned
            obtain ⟨tail, scannedTail, rfl⟩ := Option.map_eq_some_iff.mp h
            obtain ⟨escape, rfl, size, nul⟩ := scanEscape_spec scanned
            by_cases inside : 0 ∈ escape
            · obtain ⟨rfl, rfl⟩ := nul inside
              have text : cstr (backslash :: ([0] ++ after)) = [backslash] := rfl
              have value : cstr ([0] ++ tail) = [] := rfl
              rw [text, value]
              exact ⟨by simp, fun _ => by simp⟩
            · have shorter := (ih scannedTail).1
              have bound := length_cstr_append_le bytes tail
              have text : (cstr (backslash :: (escape ++ after))).length =
                  escape.length + (cstr after).length + 1 := by
                rw [cstr_cons (by decide), cstr_append inside, List.length_cons, List.length_append]
              rw [text]
              exact ⟨by omega, fun _ => by omega⟩
          · cases h
        · rename_i other
          obtain ⟨tail, scanned, rfl⟩ := Option.map_eq_some_iff.mp h
          obtain ⟨le, lt⟩ := ih scanned
          by_cases zero : b = 0
          · simp [cstr, zero]
          · rw [cstr_cons zero, cstr_cons zero]
            simp only [List.length_cons, List.mem_cons]
            refine ⟨by omega, ?_⟩
            rintro (same | member)
            · exact absurd same.symm other
            · have := lt member
              omega

theorem cstr_literalFrom_of_clean {fuel : Nat} {text value : Bytes} (h : literalFrom fuel text = some value)
    (noEscape : backslash ∉ cstr text) : cstr value = cstr text := by
  induction fuel generalizing text value with
  | zero =>
    cases text with
    | nil => obtain rfl := Option.some.inj h; rfl
    | cons b rest => cases h
  | succ fuel ih =>
    cases text with
    | nil => obtain rfl := Option.some.inj h; rfl
    | cons b rest =>
      unfold literalFrom at h
      split at h
      · cases h
      · split at h
        · rename_i escape
          rw [escape, cstr_cons (by decide)] at noEscape
          exact absurd List.mem_cons_self noEscape
        · obtain ⟨tail, scanned, rfl⟩ := Option.map_eq_some_iff.mp h
          by_cases zero : b = 0
          · simp [cstr, zero]
          · rw [cstr_cons zero] at noEscape
            rw [cstr_cons zero, cstr_cons zero,
              ih scanned fun member => noEscape (List.mem_cons_of_mem _ member)]

/-! ### Joined lines -/

/-- The first NUL of the text stands between a backslash and the carriage return behind it. -/
def NulJoined (text : Bytes) : Prop :=
  ∃ front blanks rest, text = front ++ backslash :: (blanks ++ carriageReturn :: rest) ∧ 0 ∉ front ∧ 0 ∈ blanks ∧
    ∀ b ∈ blanks, isBlank b = true

theorem NulJoined.append {front text : Bytes} (clean : 0 ∉ front) (cut : NulJoined text) : NulJoined (front ++ text) := by
  obtain ⟨before, blanks, rest, rfl, outside, inside, blank⟩ := cut
  refine ⟨front ++ before, blanks, rest, by simp, ?_, inside, blank⟩
  simp [clean, outside]

/-- Without a backslash before the first NUL there is nothing to join. -/
theorem cstr_joined_of_clean {text line : Bytes} (made : joined text = some line) (noEscape : backslash ∉ cstr text) :
    cstr line = cstr text := by
  unfold joined at made
  induction text generalizing line with
  | nil =>
    obtain rfl := Option.some.inj made
    rfl
  | cons b rest ih =>
    have other : b ≠ backslash := by
      rintro rfl
      exact noEscape (by rw [cstr_cons (by decide)]; exact List.mem_cons_self)
    rw [joinedFrom] at made
    simp only [if_neg other, ne_eq, not_true_eq_false, false_and, if_true, if_false, List.nil_append] at made
    split at made
    · cases made
    · split at made
      · cases made
      · obtain ⟨tail, later, rfl⟩ := Option.map_eq_some_iff.mp made
        by_cases zero : b = 0
        · simp [cstr, zero]
        · rw [cstr_cons zero] at noEscape
          rw [cstr_cons zero, cstr_cons zero, ih later fun member => noEscape (List.mem_cons_of_mem _ member)]

/-- What is pending stays, unless the line ends behind it. -/
theorem pending_prefix {pending text line : Bytes} (made : joinedFrom pending text = some line) :
    pending <+: line ∨
      ∃ blanks rest, text = blanks ++ carriageReturn :: rest ∧ ∀ b ∈ blanks, isBlank b = true := by
  induction text generalizing pending with
  | nil =>
    obtain rfl := Option.some.inj made
    exact Or.inl (List.prefix_refl _)
  | cons b rest ih =>
    rw [joinedFrom] at made
    split at made
    · cases made
    · split at made
      · rename_i ends
        subst ends
        exact Or.inr ⟨[], rest, rfl, by simp⟩
      · split at made
        · obtain ⟨tail, -, rfl⟩ := Option.map_eq_some_iff.mp made
          exact Or.inl (List.prefix_append _ _)
        · split at made
          · rename_i blank
            rcases ih made with front | ⟨blanks, after, rfl, all⟩
            · exact Or.inl ((List.prefix_append _ _).trans front)
            · refine Or.inr ⟨b :: blanks, after, rfl, ?_⟩
              simpa [blank.2] using all
          · obtain ⟨tail, -, rfl⟩ := Option.map_eq_some_iff.mp made
            exact Or.inl (List.prefix_append _ _)

/-- A line is no longer than its text up to the first NUL, and has the backslashes that are left or is shorter. -/
theorem cstr_joinedFrom {pending text line : Bytes} (made : joinedFrom pending text = some line) (clean : 0 ∉ pending)
    (held : pending = [] ∨ ∃ blanks, pending = backslash :: blanks ∧ ∀ b ∈ blanks, isBlank b = true)
    (whole : ¬ NulJoined (pending ++ text)) :
    (cstr line).length ≤ (cstr (pending ++ text)).length ∧
      (backslash ∈ cstr (pending ++ text) →
        backslash ∈ cstr line ∨ (cstr line).length < (cstr (pending ++ text)).length) := by
  induction text generalizing pending line with
  | nil =>
    obtain rfl := Option.some.inj made
    rw [List.append_nil]
    exact ⟨Nat.le_refl _, Or.inl⟩
  | cons b rest ih =>
    rw [joinedFrom] at made
    split at made
    · cases made
    · split at made
      · rename_i ends
        subst ends
        split at made
        · cases made
        · obtain ⟨le, -⟩ := ih made (by simp) (Or.inl rfl) fun cut =>
            whole (by simpa using @NulJoined.append (pending ++ [carriageReturn]) _ (by simp [clean]; decide) cut)
          rw [List.nil_append] at le
          rw [cstr_append clean, cstr_cons (by decide), List.length_append, List.length_cons]
          exact ⟨by omega, fun _ => Or.inr (by omega)⟩
      · split at made
        · rename_i escape
          subst escape
          obtain ⟨tail, later, rfl⟩ := Option.map_eq_some_iff.mp made
          obtain ⟨le, kept⟩ := ih later (by decide) (Or.inr ⟨[], rfl, by simp⟩) fun cut => whole (cut.append clean)
          rw [List.singleton_append] at le kept
          rw [cstr_append clean, cstr_append clean, List.length_append, List.length_append]
          refine ⟨by omega, fun _ => ?_⟩
          rcases kept (by rw [cstr_cons (by decide)]; exact List.mem_cons_self) with inside | shorter
          · exact Or.inl (List.mem_append_right _ inside)
          · exact Or.inr (by omega)
        · split at made
          · rename_i blank
            obtain ⟨some', isBlank'⟩ := blank
            obtain ⟨blanks, rfl, all⟩ := held.resolve_left some'
            have more : ∀ c ∈ blanks ++ [b], isBlank c = true := by simpa [or_imp, forall_and, isBlank'] using all
            have split : (backslash :: blanks) ++ b :: rest = (backslash :: blanks ++ [b]) ++ rest := by simp
            by_cases zero : b = 0
            · -- The text ends here, so the line must not go on.
              subst zero
              rcases pending_prefix made with ⟨tail, rfl⟩ | ⟨blanks', after, rfl, all'⟩
              · have inside : (0 : UInt8) ∈ backslash :: blanks ++ [0] := by simp
                rw [split, cstr_append_of_mem inside, cstr_append_of_mem inside]
                exact ⟨Nat.le_refl _, Or.inl⟩
              · refine absurd ⟨[], blanks ++ [0] ++ blanks', after, by simp, by simp, by simp, ?_⟩ whole
                intro c member
                rcases List.mem_append.mp member with member | member
                · exact more c member
                · exact all' c member
            · rw [split] at whole ⊢
              refine ih made ?_ (Or.inr ⟨blanks ++ [b], rfl, more⟩) whole
              simpa [eq_comm (a := (0 : UInt8)), zero] using clean
          · obtain ⟨tail, later, rfl⟩ := Option.map_eq_some_iff.mp made
            rw [cstr_append clean, cstr_append clean]
            by_cases zero : b = 0
            · subst zero
              have ended : ∀ text, cstr ((0 : UInt8) :: text) = [] := fun _ => rfl
              rw [ended, ended]
              exact ⟨Nat.le_refl _, Or.inl⟩
            · obtain ⟨le, kept⟩ := ih later (by simp) (Or.inl rfl) fun cut => whole (by
                simpa using @NulJoined.append (pending ++ [b]) _ (by simpa [eq_comm, zero] using clean) cut)
              rw [List.nil_append] at le kept
              rw [cstr_cons zero, cstr_cons zero]
              simp only [List.length_append, List.length_cons, List.mem_append, List.mem_cons]
              refine ⟨by omega, ?_⟩
              rintro (inside | same | inside)
              · exact Or.inl (Or.inl inside)
              · exact Or.inl (Or.inr (Or.inl same))
              · rcases kept inside with inside | shorter
                · exact Or.inl (Or.inr (Or.inr inside))
                · exact Or.inr (by omega)

/-! ### Literals -/

theorem cstr_literal_of_clean {text value : Bytes} (denoted : literal text = some value) (noEscape : backslash ∉ cstr text) :
    cstr value = cstr text := by
  obtain ⟨line, made, denoted⟩ := Option.bind_eq_some_iff.mp denoted
  have same := cstr_joined_of_clean made noEscape
  rw [← same] at noEscape ⊢
  exact cstr_literalFrom_of_clean denoted noEscape

theorem length_cstr_literal_lt {text value : Bytes} (denoted : literal text = some value) (whole : ¬ NulJoined text)
    (escape : backslash ∈ cstr text) : (cstr value).length < (cstr text).length := by
  obtain ⟨line, made, denoted⟩ := Option.bind_eq_some_iff.mp denoted
  obtain ⟨le, kept⟩ := cstr_joinedFrom made (by simp) (Or.inl rfl) whole
  obtain ⟨le', lt⟩ := cstr_literalFrom denoted
  rw [List.nil_append] at le kept
  rcases kept escape with inside | shorter
  · exact Nat.lt_of_lt_of_le (lt inside) le
  · exact Nat.lt_of_le_of_lt le' shorter

end CLiteral
