import Mathlib.Data.List.DropRight
import Mathlib.Data.List.Infix

/-!
# Texts and byte strings

A text is a list of characters and a byte string a list of bytes, with the string
operations of Python that the converters rest on: UTF-8, `split` and `strip`.
-/

namespace Text

abbrev Str := List Char

abbrev Bytes := List UInt8

def newline : UInt8 := 10

/-- A check of all items, run item by item and not over the whole type. -/
theorem forall_mem_of_all {α : Type*} {p : α → Prop} [DecidablePred p] {items : List α}
    (all : (items.all fun x => decide (p x)) = true) : ∀ x ∈ items, p x := by
  simpa using all

theorem forall_mem_option_of_all {α : Type*} {p : α → Prop} [DecidablePred p] {item : Option α}
    (all : (item.all fun x => decide (p x)) = true) : ∀ x ∈ item, p x := by
  cases item with
  | none => simp
  | some y => simpa using all

/-! ### UTF-8 -/

def encode (s : Str) : Bytes := s.flatMap String.utf8EncodeChar

/-- Strict decoding: `none` where Python raises `UnicodeDecodeError`. -/
def decode (b : Bytes) : Option Str := b.toByteArray.utf8Decode?.map Array.toList

@[simp] theorem encode_nil : encode [] = [] := rfl

@[simp] theorem encode_append (s t : Str) : encode (s ++ t) = encode s ++ encode t := by
  simp [encode]

theorem encode_toByteArray (s : Str) : (encode s).toByteArray = s.utf8Encode := by
  simp [encode, List.utf8Encode]

theorem decode_encode (s : Str) : decode (encode s) = some s := by
  simp [decode, encode_toByteArray, List.utf8Decode?_utf8Encode]

theorem decode_eq_some {b : Bytes} {s : Str} : decode b = some s ↔ encode s = b := by
  constructor
  · intro h
    simp only [decode, Option.map_eq_some_iff] at h
    obtain ⟨chars, decoded, rfl⟩ := h
    have valid : b.toByteArray.utf8Decode?.isSome := by simp [decoded]
    have same := ByteArray.utf8Encode_get_utf8Decode? (h := valid)
    simp only [decoded, Option.get_some] at same
    rw [← encode_toByteArray] at same
    exact List.toByteArray_inj.mp same
  · rintro rfl
    exact decode_encode s

theorem mem_utf8EncodeChar_ascii {c : Char} {a : UInt8} (ascii : a.toNat < 128) :
    a ∈ String.utf8EncodeChar c ↔ c.toNat = a.toNat := by
  have tail : ∀ n < 128, a ≠ UInt8.ofNat (n + 128) := by
    rintro n small rfl
    simp only [UInt8.toNat_ofNat'] at ascii
    omega
  fun_cases String.utf8EncodeChar c with
  | case1 v single =>
    simp only [List.mem_singleton, Char.toNat]
    constructor
    · rintro rfl
      simp only [UInt8.toNat_ofNat', v]
      omega
    · intro same
      rw [← UInt8.toNat_inj, UInt8.toNat_ofNat']
      omega
  | _ v =>
    have : c.toNat = v := rfl
    constructor
    · intro member
      exfalso
      simp only [List.mem_cons, List.not_mem_nil, or_false] at member
      grind
    · intro same
      omega

theorem mem_encode_ascii {s : Str} {a : UInt8} (ascii : a.toNat < 128) :
    a ∈ encode s ↔ ∃ c ∈ s, c.toNat = a.toNat := by
  simp [encode, mem_utf8EncodeChar_ascii ascii]

theorem newline_mem_encode {s : Str} : newline ∈ encode s ↔ '\n' ∈ s := by
  rw [mem_encode_ascii (by decide)]
  constructor
  · rintro ⟨c, member, code⟩
    have same : c = '\n' := Char.toNat_inj.mp code
    exact same ▸ member
  · intro member
    exact ⟨'\n', member, rfl⟩

def Ascii (s : Str) : Prop := ∀ c ∈ s, c.toNat < 128

theorem utf8EncodeChar_ascii {c : Char} (ascii : c.toNat < 128) :
    String.utf8EncodeChar c = [UInt8.ofNat c.toNat] := by
  rw [String.utf8EncodeChar, if_pos (show c.val.toNat ≤ 127 from Nat.le_of_lt_succ ascii)]
  rfl

theorem encode_ascii {s : Str} (ascii : Ascii s) : encode s = s.map fun c => UInt8.ofNat c.toNat := by
  induction s with
  | nil => rfl
  | cons c s ih =>
    have tail : Ascii s := fun d member => ascii d (List.mem_cons_of_mem _ member)
    rw [← List.singleton_append, encode_append, ih tail, List.map_append]
    congr 1
    simp [encode, utf8EncodeChar_ascii (ascii c List.mem_cons_self)]

theorem encode_split {s : Str} {x y : Bytes} {a : UInt8} (ascii : a.toNat < 128)
    (split : encode s = x ++ a :: y) :
    ∃ t u, s = t ++ Char.ofNat a.toNat :: u ∧ encode t = x ∧ encode u = y := by
  induction s generalizing x with
  | nil => simp at split
  | cons c s ih =>
    rw [← List.singleton_append, encode_append] at split
    have single : encode [c] = String.utf8EncodeChar c := by simp [encode]
    rcases List.append_eq_append_iff.mp split with ⟨x', rfl, tail⟩ | ⟨y', front, tail⟩
    · obtain ⟨t, u, rfl, rfl, rfl⟩ := ih tail
      exact ⟨c :: t, u, rfl, by rw [← List.singleton_append, encode_append], rfl⟩
    · cases y' with
      | nil =>
        obtain ⟨t, u, rfl, same, rfl⟩ := ih (x := []) tail.symm
        refine ⟨c :: t, u, rfl, ?_, rfl⟩
        rw [← List.singleton_append, encode_append, same, front]
        simp
      | cons b y' =>
        obtain ⟨rfl, rfl⟩ := List.cons.inj tail
        have member : a ∈ String.utf8EncodeChar c := by simp [← single, front]
        have code := (mem_utf8EncodeChar_ascii ascii).mp member
        have whole : [a] = x ++ a :: y' := by
          rw [← front, single, utf8EncodeChar_ascii (code ▸ ascii), code, UInt8.ofNat_toNat]
        have short := congrArg List.length whole
        simp only [List.length_append, List.length_cons, List.length_nil] at short
        obtain rfl := List.eq_nil_of_length_eq_zero (show x.length = 0 by omega)
        obtain rfl := List.eq_nil_of_length_eq_zero (show y'.length = 0 by omega)
        refine ⟨[], s, ?_, rfl, rfl⟩
        rw [← code, Char.ofNat_toNat, List.nil_append]

theorem encode_eq_nil {s : Str} : encode s = [] ↔ s = [] := by
  constructor
  · intro empty
    have same := decode_encode s
    rw [empty, ← encode_nil, decode_encode] at same
    exact (Option.some.inj same).symm
  · rintro rfl
    rfl

theorem encode_cons_ascii {c : Char} (ascii : c.toNat < 128) (s : Str) :
    encode (c :: s) = UInt8.ofNat c.toNat :: encode s := by
  rw [← List.singleton_append, encode_append]
  simp [encode, utf8EncodeChar_ascii ascii]

theorem encode_split_char {c : Char} (ascii : c.toNat < 128) {s : Str} {x y : Bytes}
    (split : encode s = x ++ UInt8.ofNat c.toNat :: y) : ∃ t u, s = t ++ c :: u ∧ encode t = x ∧ encode u = y := by
  have code : (UInt8.ofNat c.toNat).toNat = c.toNat := by
    rw [UInt8.toNat_ofNat']
    omega
  obtain ⟨t, u, rfl, before, behind⟩ := encode_split (by rw [code]; exact ascii) split
  exact ⟨t, u, by rw [code, Char.ofNat_toNat], before, behind⟩

/-- A text whose bytes start with those of an ASCII word starts with the word. -/
theorem encode_front {word : Str} (ascii : Ascii word) {s : Str} {y : Bytes} (front : encode s = encode word ++ y) :
    ∃ u, s = word ++ u := by
  induction word generalizing s with
  | nil => exact ⟨s, rfl⟩
  | cons c word ih =>
    rw [encode_cons_ascii (ascii c List.mem_cons_self)] at front
    obtain ⟨t, u, rfl, empty, rest⟩ := encode_split_char (x := []) (ascii c List.mem_cons_self) front
    obtain ⟨v, rfl⟩ := ih (fun d member => ascii d (List.mem_cons_of_mem _ member)) rest
    exact ⟨v, by rw [encode_eq_nil.mp empty]; rfl⟩

/-- An ASCII word occurs in the bytes of a text exactly where it occurs in the text. -/
theorem encode_infix_iff {word : Str} (ascii : Ascii word) {s : Str} : encode word <:+: encode s ↔ word <:+: s := by
  constructor
  · rintro ⟨x, y, found⟩
    cases word with
    | nil => exact List.nil_infix
    | cons c word =>
      rw [encode_cons_ascii (ascii c List.mem_cons_self), List.append_assoc] at found
      obtain ⟨t, u, rfl, _, rest⟩ := encode_split_char (ascii c List.mem_cons_self) found.symm
      obtain ⟨v, rfl⟩ := encode_front (fun d member => ascii d (List.mem_cons_of_mem _ member)) rest
      exact ⟨t, v, by simp⟩
  · rintro ⟨t, u, rfl⟩
    exact ⟨encode t, encode u, by rw [encode_append, encode_append]⟩

theorem decode_append_ascii {x y : Bytes} {a : UInt8} (ascii : a.toNat < 128) {s : Str} :
    decode (x ++ a :: y) = some s ↔
      ∃ t u, s = t ++ Char.ofNat a.toNat :: u ∧ decode x = some t ∧ decode y = some u := by
  simp only [decode_eq_some]
  constructor
  · exact encode_split ascii
  · rintro ⟨t, u, rfl, rfl, rfl⟩
    have code : (Char.ofNat a.toNat).toNat = a.toNat := by
      have valid : a.toNat.isValidChar := Or.inl (by omega)
      rw [Char.ofNat, dif_pos valid]
      rfl
    have byte : encode [Char.ofNat a.toNat] = [a] := by
      simp [encode, utf8EncodeChar_ascii (code ▸ ascii), code]
    rw [encode_append, ← List.singleton_append, encode_append, byte]
    rfl

theorem infix_append_cons {α : Type*} {word x y : List α} {sep : α} (absent : sep ∉ word) :
    word <:+: x ++ sep :: y ↔ word <:+: x ∨ word <:+: y := by
  constructor
  · rintro ⟨front, rest, same⟩
    rw [List.append_assoc] at same
    rcases List.append_eq_append_iff.mp same with ⟨x', rfl, tail⟩ | ⟨x', rfl, tail⟩
    · rcases List.append_eq_append_iff.mp tail with ⟨x'', rfl, _⟩ | ⟨x'', rfl, behind⟩
      · exact Or.inl ⟨front, x'', by simp⟩
      · cases x'' with
        | nil => exact Or.inl ⟨front, [], by simp⟩
        | cons b x'' =>
          obtain ⟨rfl, _⟩ := List.cons.inj behind
          simp at absent
    · cases x' with
      | nil =>
        cases word with
        | nil => exact Or.inl ⟨[], x, by simp⟩
        | cons b word =>
          obtain ⟨rfl, _⟩ := List.cons.inj tail
          simp at absent
      | cons b x' =>
        obtain ⟨rfl, rfl⟩ := List.cons.inj tail
        exact Or.inr ⟨x', rest, by simp⟩
  · rintro (⟨front, rest, rfl⟩ | ⟨front, rest, rfl⟩)
    · exact ⟨front, rest ++ sep :: y, by simp⟩
    · exact ⟨x ++ sep :: front, rest, by simp⟩

/-! ### Splitting at a separator -/

section Split
variable {α : Type*} [DecidableEq α]

/-- `skip` counts the elements of a separator already found that are still to be passed. -/
def splitFrom (sep : List α) : Nat → List α → List (List α)
  | _, [] => [[]]
  | 0, x :: xs =>
    if sep.isPrefixOf (x :: xs) then [] :: splitFrom sep (sep.length - 1) xs
    else (splitFrom sep 0 xs).modifyHead (x :: ·)
  | skip + 1, _ :: xs => splitFrom sep skip xs

/-- `s.split(sep)` for a separator of any positive length; `List.splitOn` is the case of one element. -/
def splitSub (sep xs : List α) : List (List α) := splitFrom sep 0 xs

theorem splitFrom_ne_nil (sep : List α) (skip : Nat) (xs : List α) : splitFrom sep skip xs ≠ [] := by
  fun_induction splitFrom sep skip xs with
  | case1 => simp
  | case2 => simp
  | case3 x xs absent ih => simpa [List.modifyHead_eq_nil_iff] using ih
  | case4 skip x xs ih => exact ih

theorem splitFrom_skip (sep front xs : List α) :
    splitFrom sep front.length (front ++ xs) = splitFrom sep 0 xs := by
  induction front with
  | nil => rfl
  | cons x front ih => simpa [splitFrom] using ih

theorem splitSub_sep_append {sep : List α} (nonempty : sep ≠ []) (xs : List α) :
    splitSub sep (sep ++ xs) = [] :: splitSub sep xs := by
  obtain ⟨x, rest, rfl⟩ := List.exists_cons_of_ne_nil nonempty
  have found : (x :: rest).isPrefixOf (x :: (rest ++ xs)) = true := by simp
  rw [splitSub, List.cons_append, splitFrom, if_pos found]
  exact congrArg _ (splitFrom_skip _ rest xs)

theorem splitSub_cons {sep : List α} {x : α} {xs : List α} (absent : ¬ sep <+: x :: xs) :
    splitSub sep (x :: xs) = (splitSub sep xs).modifyHead (x :: ·) := by
  rw [splitSub, splitFrom, if_neg (by simpa using absent)]
  rfl

omit [DecidableEq α] in
theorem flatten_modifyHead_cons {x : α} {parts : List (List α)} (nonempty : parts ≠ []) :
    (parts.modifyHead (x :: ·)).flatten = x :: parts.flatten := by
  obtain ⟨part, rest, rfl⟩ := List.exists_cons_of_ne_nil nonempty
  rfl

/-- A part without the first character of the separator is split off nowhere. -/
theorem splitSub_front {first : α} {tail part : List α} (absent : first ∉ part) (rest : List α) :
    splitSub (first :: tail) (part ++ rest) = (splitSub (first :: tail) rest).modifyHead (part ++ ·) := by
  induction part with
  | nil => cases parts : splitSub (first :: tail) rest <;> simp [parts]
  | cons x part ih =>
    obtain ⟨other, later⟩ := not_or.mp (List.mem_cons.not.mp absent)
    have noSep : ¬ first :: tail <+: x :: (part ++ rest) := fun front => other (List.cons_prefix_cons.mp front).1
    rw [List.cons_append, splitSub_cons noSep, ih later, List.modifyHead_modifyHead]
    rfl

theorem splitSub_intercalate {first : α} {tail : List α} {parts : List (List α)} (nonempty : parts ≠ [])
    (absent : ∀ part ∈ parts, first ∉ part) :
    splitSub (first :: tail) ((first :: tail).intercalate parts) = parts := by
  induction parts with
  | nil => exact absurd rfl nonempty
  | cons part parts ih =>
    obtain ⟨here, later⟩ := List.forall_mem_cons.mp absent
    cases parts with
    | nil =>
      have single : splitSub (first :: tail) (part ++ []) = (splitSub (first :: tail) []).modifyHead (part ++ ·) :=
        splitSub_front here []
      rw [List.append_nil] at single
      simpa [List.intercalate, splitSub, splitFrom] using single
    | cons next parts =>
      rw [List.intercalate_cons_cons, List.append_assoc, splitSub_front here,
        splitSub_sep_append (List.cons_ne_nil _ _), ih (List.cons_ne_nil _ _) later]
      simp

omit [DecidableEq α] in
theorem mem_intercalate {x : α} {sep : List α} {parts : List (List α)} (member : x ∈ sep.intercalate parts) :
    x ∈ sep ∨ ∃ part ∈ parts, x ∈ part := by
  induction parts with
  | nil => cases member
  | cons part parts ih =>
    cases parts with
    | nil => exact Or.inr ⟨part, List.mem_cons_self, by simpa using member⟩
    | cons next parts =>
      rw [List.intercalate_cons_cons, List.append_assoc, List.mem_append, List.mem_append] at member
      rcases member with here | inSep | later
      · exact Or.inr ⟨part, List.mem_cons_self, here⟩
      · exact Or.inl inSep
      · rcases ih later with inSep | ⟨other, inParts, inside⟩
        · exact Or.inl inSep
        · exact Or.inr ⟨other, List.mem_cons_of_mem _ inParts, inside⟩

/-- `s.replace(old, new)` -/
def replaceSub (old new xs : List α) : List α := new.intercalate (splitSub old xs)

theorem countP_flatten_splitFrom {p : α → Bool} {sep : List α} (nonempty : sep ≠ [])
    (dropped : ∀ x ∈ sep, p x = false) (skip : Nat) (xs : List α) :
    (splitFrom sep skip xs).flatten.countP p = (xs.drop skip).countP p := by
  fun_induction splitFrom sep skip xs with
  | case1 => simp
  | case2 x xs found ih =>
    obtain ⟨rest, split⟩ := List.isPrefixOf_iff_prefix.mp found
    obtain ⟨y, tail, rfl⟩ := List.exists_cons_of_ne_nil nonempty
    obtain ⟨rfl, rfl⟩ := List.cons.inj split
    have lost : tail.countP p = 0 :=
      List.countP_eq_zero.mpr fun z member => by simp [dropped z (List.mem_cons_of_mem _ member)]
    have first : p y = false := dropped y List.mem_cons_self
    rw [List.flatten_cons, List.nil_append, ih]
    simp [lost, first]
  | case3 x xs absent ih =>
    rw [flatten_modifyHead_cons (splitFrom_ne_nil sep 0 xs), List.countP_cons, ih]
    simp [List.countP_cons]
  | case4 skip x xs ih => simpa using ih

theorem countP_flatten_splitSub {p : α → Bool} {sep : List α} (nonempty : sep ≠ [])
    (dropped : ∀ x ∈ sep, p x = false) (xs : List α) :
    (splitSub sep xs).flatten.countP p = xs.countP p :=
  countP_flatten_splitFrom nonempty dropped 0 xs

end Split

theorem subset_of_mem_splitOn {α : Type*} [BEq α] [LawfulBEq α] {sep : α} {xs part : List α}
    (member : part ∈ xs.splitOn sep) : part ⊆ xs ∧ sep ∉ part := by
  induction xs generalizing part with
  | nil =>
    obtain rfl := List.mem_singleton.mp member
    simp
  | cons x xs ih =>
    rw [List.splitOn_cons_eq_if_modifyHead] at member
    obtain ⟨head, parts, split⟩ := List.exists_cons_of_ne_nil (List.splitOn_ne_nil sep xs)
    rw [split] at member ih
    by_cases stop : x = sep
    · have parted : part = [] ∨ part = head ∨ part ∈ parts := by simpa [stop] using member
      rcases parted with rfl | later
      · simp
      · obtain ⟨inside, absent⟩ := ih (List.mem_cons.mpr later)
        exact ⟨List.Subset.trans inside (List.subset_cons_self _ _), absent⟩
    · simp only [beq_iff_eq, stop, if_false, List.modifyHead_cons] at member
      rcases List.mem_cons.mp member with rfl | later
      · obtain ⟨inside, absent⟩ := ih List.mem_cons_self
        refine ⟨List.cons_subset_cons _ inside, ?_⟩
        simpa using ⟨fun same => stop same.symm, absent⟩
      · obtain ⟨inside, absent⟩ := ih (List.mem_cons_of_mem _ later)
        exact ⟨List.Subset.trans inside (List.subset_cons_self _ _), absent⟩

theorem eq_false_of_mem_splitOnP {α : Type*} {sep : α → Bool} {xs part : List α} (member : part ∈ xs.splitOnP sep) :
    ∀ x ∈ part, sep x = false := by
  induction xs generalizing part with
  | nil =>
    obtain rfl := List.mem_singleton.mp member
    exact fun x inPart => absurd inPart List.not_mem_nil
  | cons x xs ih =>
    rw [List.splitOnP_cons_eq_if_modifyHead] at member
    split at member
    · rcases List.mem_cons.mp member with rfl | later
      · exact fun x inPart => absurd inPart List.not_mem_nil
      · exact ih later
    · rename_i other
      obtain ⟨head, parts, split⟩ := List.exists_cons_of_ne_nil (List.splitOnP_ne_nil sep xs)
      rw [split, List.modifyHead_cons] at member
      rw [split] at ih
      rcases List.mem_cons.mp member with rfl | later
      · exact List.forall_mem_cons.mpr ⟨by simpa using other, ih List.mem_cons_self⟩
      · exact ih (List.mem_cons_of_mem head later)

theorem splitOn_flatMap_concat {α : Type*} [BEq α] [LawfulBEq α] {sep : α} {lines : List (List α)}
    (clean : ∀ line ∈ lines, sep ∉ line) : (lines.flatMap (· ++ [sep])).splitOn sep = lines ++ [[]] := by
  induction lines with
  | nil => rfl
  | cons line lines ih =>
    obtain ⟨here, later⟩ := List.forall_mem_cons.mp clean
    rw [List.flatMap_cons, List.append_assoc, List.singleton_append,
      List.splitOn_append_cons_self_of_not_mem here, ih later, List.cons_append]

/-! ### Text files -/

/-- What a file opened as text is read as: every line ends in a newline only. -/
def universalNewlines : Str → Str
  | [] => []
  | c :: rest =>
    if c = '\r' ∧ rest.head? = some '\n' then universalNewlines rest
    else (if c = '\r' then '\n' else c) :: universalNewlines rest

/-- `readlines()` of a text: all lines with their newlines, the last one without if it has none. -/
def readLines (text : Str) : List Str :=
  let parts := text.splitOn '\n'
  parts.dropLast.map (· ++ ['\n']) ++ (parts.getLast?.toList.filter (· ≠ []))

theorem universalNewlines_eq_self {text : Str} (clean : '\r' ∉ text) : universalNewlines text = text := by
  induction text with
  | nil => rfl
  | cons c text ih =>
    have other : c ≠ '\r' := fun same => clean (same ▸ List.mem_cons_self)
    have rest := ih fun member => clean (List.mem_cons_of_mem _ member)
    rw [universalNewlines, if_neg fun both => other both.1, if_neg other, rest]

theorem universalNewlines_append (front rest : Str) :
    universalNewlines (front ++ '\n' :: rest) = universalNewlines (front ++ ['\n']) ++ universalNewlines rest := by
  induction front with
  | nil => rfl
  | cons c front ih =>
    have head : (front ++ '\n' :: rest).head? = (front ++ ['\n']).head? := by cases front <;> rfl
    simp only [List.cons_append, universalNewlines, head, ih]
    split <;> rfl

theorem universalNewlines_concat (front : Str) :
    ∃ text, universalNewlines (front ++ ['\n']) = text ++ ['\n'] := by
  induction front with
  | nil => exact ⟨[], rfl⟩
  | cons c front ih =>
    obtain ⟨text, same⟩ := ih
    simp only [List.cons_append, universalNewlines, same]
    split
    · exact ⟨text, rfl⟩
    · exact ⟨_ :: text, rfl⟩

theorem readLines_append (front rest : Str) :
    readLines (front ++ '\n' :: rest) = readLines (front ++ ['\n']) ++ readLines rest := by
  have nonempty := List.splitOn_ne_nil '\n' rest
  simp only [readLines, List.splitOn_append_cons_self, List.splitOn_nil]
  rw [List.dropLast_append_of_ne_nil nonempty, List.getLast?_append_of_ne_nil _ nonempty]
  simp

/-! ### White space -/

def isSpace (c : Char) : Bool :=
  let n := c.toNat
  (9 ≤ n && n ≤ 13) || (28 ≤ n && n ≤ 32) || n == 0x85 || n == 0xA0 || n == 0x1680 ||
    (0x2000 ≤ n && n ≤ 0x200A) || n == 0x2028 || n == 0x2029 || n == 0x202F || n == 0x205F || n == 0x3000

def strip (s : Str) : Str := (s.dropWhile isSpace).rdropWhile isSpace

theorem strip_within (s : Str) : strip s <:+: s :=
  (List.rdropWhile_prefix isSpace _).isInfix.trans (List.dropWhile_suffix isSpace).isInfix

theorem strip_pad {pad core : Str} (blank : ∀ c ∈ pad, isSpace c = true)
    (head : ∀ c ∈ core.head?, isSpace c = false) (last : ∀ c ∈ core.getLast?, isSpace c = false) :
    strip (pad ++ core) = core := by
  have front : (pad ++ core).dropWhile isSpace = core := by
    rw [List.dropWhile_append_of_pos blank]
    cases core with
    | nil => rfl
    | cons c core => simp [head c (by simp)]
  rw [strip, front, List.rdropWhile_eq_self_iff]
  intro nonempty
  simp [last _ (List.getLast?_eq_some_getLast nonempty)]

theorem strip_solid {pad front : Str} (blank : ∀ c ∈ pad, isSpace c = true) (nonempty : front ≠ [])
    (solid : ∀ c ∈ front, isSpace c = false) (rest : Str) :
    strip (pad ++ (front ++ rest)) = front ++ rest.rdropWhile isSpace := by
  have left : (pad ++ (front ++ rest)).dropWhile isSpace = front ++ rest := by
    obtain ⟨c, tail, rfl⟩ := List.exists_cons_of_ne_nil nonempty
    rw [List.dropWhile_append_of_pos blank]
    simp [solid c List.mem_cons_self]
  have stays : front.reverse.dropWhile isSpace = front.reverse := by
    obtain ⟨init, c, rfl⟩ := List.eq_nil_or_concat' front |>.resolve_left nonempty
    simp [solid c (by simp)]
  rw [strip, left, List.rdropWhile, List.rdropWhile, List.reverse_append, List.dropWhile_append, stays]
  split
  · rename_i empty
    simp [List.isEmpty_iff.mp empty]
  · simp

theorem strip_subset (s : Str) : strip s ⊆ s := (strip_within s).subset

theorem strip_concat_newline (s : Str) : strip (s ++ ['\n']) = strip s := by
  have blank : isSpace '\n' = true := by decide
  rw [strip, strip, List.dropWhile_append]
  split
  · rename_i empty
    simp [List.isEmpty_iff.mp empty, blank]
  · exact List.rdropWhile_concat_pos _ _ _ blank

theorem newline_not_mem_strip {text line : Str} (member : line ∈ readLines text) : '\n' ∉ strip line := by
  have clean : ∀ part ∈ text.splitOn '\n', '\n' ∉ strip part :=
    fun part here inside => (subset_of_mem_splitOn here).2 (strip_subset part inside)
  unfold readLines at member
  rcases List.mem_append.mp member with here | here
  · obtain ⟨part, inParts, rfl⟩ := List.mem_map.mp here
    rw [strip_concat_newline]
    exact clean part (List.mem_of_mem_dropLast inParts)
  · have last : (text.splitOn '\n').getLast? = some line := by
      simpa using (List.mem_filter.mp here).1
    exact clean line (List.mem_of_getLast? last)

end Text
