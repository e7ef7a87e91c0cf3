import Tbf.AttributeRemoval
import Tbf.Library.Pattern

/-!
# Where the patterns of the attribute stage match

Each pattern is told by the texts that it matches. Text without `__attribute__` is left alone by all of them that begin
with it, and text without `))` by all of them that end with it.
-/

namespace Tbf.Attributes
open Text Deletion

theorem rdropWhile_append_of_pos {α : Type} {p : α → Bool} {x y : List α} (blank : ∀ c ∈ y, p c = true) :
    (x ++ y).rdropWhile p = x.rdropWhile p := by
  rw [List.rdropWhile, List.rdropWhile, List.reverse_append, List.dropWhile_append_of_pos]
  exact fun c member => blank c (List.mem_reverse.mp member)

theorem rdropWhile_append_rtakeWhile {α : Type} (p : α → Bool) (x : List α) : x.rdropWhile p ++ x.rtakeWhile p = x := by
  rw [List.rdropWhile, List.rtakeWhile, ← List.reverse_append, List.takeWhile_append_dropWhile, List.reverse_reverse]

/-- The list of names is a match of its pattern. -/
theorem isNameList_iff {names : Str} :
    isNameList names = true ↔ ∃ before list behind, names = before ++ (list ++ behind) ∧ list ≠ [] ∧
      (∀ c ∈ before, isSpace c = true) ∧ (∀ c ∈ list, isNameChar c = true) ∧ ∀ c ∈ behind, isSpace c = true := by
  rw [isNameList, Bool.and_eq_true, List.all_eq_true, List.any_eq_true]
  constructor
  · intro both
    obtain ⟨all, d, member, name⟩ := both
    have front : names.takeWhile isSpace ++ (strip names ++ (names.dropWhile isSpace).rtakeWhile isSpace) = names := by
      rw [strip, rdropWhile_append_rtakeWhile, List.takeWhile_append_dropWhile]
    have spaces : ∀ c ∈ names.takeWhile isSpace, isSpace c = true := fun c inside => List.mem_takeWhile_imp inside
    have others : ∀ c ∈ (names.dropWhile isSpace).rtakeWhile isSpace, isSpace c = true :=
      fun c inside => List.mem_rtakeWhile_imp inside
    by_cases empty : strip names = []
    · have blank : ∀ c ∈ names, isSpace c = true := by
        rw [← front, empty]
        exact List.forall_mem_append.mpr ⟨spaces, others⟩
      obtain ⟨before, behind, rfl⟩ := List.append_of_mem member
      obtain ⟨inFront, behindIt⟩ := List.forall_mem_append.mp blank
      exact ⟨before, [d], behind, rfl, List.cons_ne_nil _ _, inFront, by simpa using name,
        (List.forall_mem_cons.mp behindIt).2⟩
    · exact ⟨_, _, _, front.symm, empty, spaces, all, others⟩
  · intro split
    obtain ⟨before, list, behind, rfl, some, spaces, all, others⟩ := split
    constructor
    · intro c member
      rw [strip, List.dropWhile_append_of_pos spaces, List.dropWhile_append] at member
      split at member
      · rw [List.dropWhile_eq_nil_iff.mpr others, List.rdropWhile_nil] at member
        cases member
      · rw [rdropWhile_append_of_pos others] at member
        have inside := (List.rdropWhile_prefix isSpace _).subset member
        exact all c ((List.dropWhile_suffix isSpace).subset inside)
    · obtain ⟨d, rest, rfl⟩ := List.exists_cons_of_ne_nil some
      exact ⟨d, by simp, all d List.mem_cons_self⟩

theorem quiet_of_isSpace {c : Char} (space : isSpace c = true) : Nesting.Quiet c ∧ c ≠ '(' := by
  refine ⟨⟨?_, ?_, ?_, ?_⟩, ?_⟩ <;> (rintro rfl; revert space; decide)

/-- The names come without parentheses, quotes and backslashes. -/
theorem quiet_of_isNameList {names : Str} (listed : isNameList names = true) :
    ∀ c ∈ names, Nesting.Quiet c ∧ c ≠ '(' := by
  have quietName : ∀ c, isNameChar c = true → Nesting.Quiet c ∧ c ≠ '(' := by
    intro c name
    refine ⟨⟨?_, ?_, ?_, ?_⟩, ?_⟩ <;> (rintro rfl; revert name; decide)
  obtain ⟨before, list, behind, rfl, _, spaces, all, others⟩ := isNameList_iff.mp listed
  refine List.forall_mem_append.mpr ⟨fun c member => quiet_of_isSpace (spaces c member), ?_⟩
  exact List.forall_mem_append.mpr
    ⟨fun c member => quietName c (all c member), fun c member => quiet_of_isSpace (others c member)⟩

/-- `__attribute__((` and a list of names. -/
def SimpleHead (text : Str) : Prop :=
  ∃ gap names, text = attributeWord ++ (gap ++ ("((".toList ++ names)) ∧ (∀ c ∈ gap, isSpace c = true) ∧
    isNameList names = true

section Matches

variable {α : Type} {char : α → Char}

theorem skipSpace_append {gap : List α} (spaces : ∀ c ∈ gap, isSpace (char c) = true) (text : List α) :
    skipSpace char (gap ++ text) = skipSpace char text := List.dropWhile_append_of_pos spaces

theorem skipSpace_cons {c : α} (solid : isSpace (char c) = false) (text : List α) :
    skipSpace char (c :: text) = c :: text := by
  rw [skipSpace, List.dropWhile_cons_of_neg]
  simp [solid]

theorem skipSpace_of_solid {text : List α} (solid : ∀ c ∈ text.head?, isSpace (char c) = false) :
    skipSpace char text = text := by
  cases text with
  | nil => rfl
  | cons c text => exact skipSpace_cons (solid c rfl) text

theorem skipSpace_append_solid (x : List α) {rest : List α} (solid : ∀ c ∈ rest.head?, isSpace (char c) = false) :
    skipSpace char (x ++ rest) = skipSpace char x ++ rest := by
  have none := skipSpace_of_solid solid
  rw [skipSpace] at none
  rw [skipSpace, skipSpace, List.dropWhile_append]
  split
  · rename_i empty
    rw [List.isEmpty_iff.mp empty, none]
    rfl
  · rfl

theorem literal_append {s : Str} {front : List α} (same : front.map char = s) (text : List α) :
    literal char s (front ++ text) = some text := literal_eq_some.mpr ⟨front, rfl, same⟩

theorem opening_append {word gap parens : List α} (isWord : word.map char = attributeWord)
    (spaces : ∀ c ∈ gap, isSpace (char c) = true) (isParens : parens.map char = "((".toList) (inner : List α) :
    opening char (word ++ (gap ++ (parens ++ inner))) = some inner :=
  opening_eq_some.mpr ⟨word, gap, parens, rfl, isWord, spaces, isParens⟩

theorem simpleMatch_eq_some {text rest : List α} :
    simpleMatch char text = some rest ↔ ∃ head closing behind, text = head ++ (closing ++ behind) ∧
      SimpleHead (head.map char) ∧ closing.map char = close ∧ rest = skipSpace char behind := by
  rw [simpleMatch, Option.bind_eq_some_iff]
  constructor
  · intro found
    obtain ⟨inner, opens, found⟩ := found
    obtain ⟨word, gap, parens, rfl, isWord, spaces, isParens⟩ := opening_eq_some.mp opens
    split at found
    · rename_i listed
      obtain ⟨behind, closes, rfl⟩ := Option.map_eq_some_iff.mp found
      obtain ⟨closing, split, isClose⟩ := literal_eq_some.mp closes
      refine ⟨word ++ (gap ++ (parens ++ inner.takeWhile fun c => char c != ')')), closing, behind, ?_, ?_, isClose, rfl⟩
      · rw [List.append_assoc, List.append_assoc, List.append_assoc, ← split, List.takeWhile_append_dropWhile]
      · refine ⟨gap.map char, _, ?_, by simpa using spaces, listed⟩
        rw [List.map_append, List.map_append, List.map_append, isWord, isParens]
    · cases found
  · intro split
    obtain ⟨head, closing, behind, rfl, simple, isClose, rfl⟩ := split
    obtain ⟨gap', names', whole, spaces, listed⟩ := simple
    obtain ⟨word, behindWord, rfl, isWord, second⟩ := List.map_eq_append_iff.mp whole
    obtain ⟨gap, behindGap, rfl, rfl, third⟩ := List.map_eq_append_iff.mp second
    obtain ⟨parens, names, rfl, isParens, rfl⟩ := List.map_eq_append_iff.mp third
    refine ⟨names ++ (closing ++ behind), ?_, ?_⟩
    · rw [List.append_assoc, List.append_assoc, List.append_assoc]
      exact opening_append isWord (by simpa using spaces) isParens _
    · have noParen : ∀ c ∈ names, (char c != ')') = true := by
        intro c member
        have quiet := quiet_of_isNameList listed (char c) (List.mem_map_of_mem member)
        simpa using quiet.1.1
      obtain ⟨c, closing', rfl⟩ : ∃ c closing', closing = c :: closing' := by
        apply List.exists_cons_of_ne_nil
        rintro rfl
        cases isClose
      have paren : (char c != ')') = false := by
        rw [(List.cons.inj isClose).1]
        rfl
      have front : (names ++ (c :: closing' ++ behind)).takeWhile (fun c => char c != ')') = names := by
        rw [List.takeWhile_append_of_pos noParen, List.cons_append, List.takeWhile_cons_of_neg (by simp [paren]),
          List.append_nil]
      have rest : (names ++ (c :: closing' ++ behind)).dropWhile (fun c => char c != ')') = c :: closing' ++ behind := by
        rw [List.dropWhile_append_of_pos noParen, List.cons_append, List.dropWhile_cons_of_neg (by simp [paren])]
      rw [front, rest, if_pos listed, literal_append isClose]
      rfl

/-! ### Text without a specifier -/

/-- There is no `__attribute__` in the text, and none can begin at its end. -/
def Clean (text : Str) : Prop := ¬ attributeWord <:+: text ∧ ∀ c ∈ text.getLast?, isIdentifierChar c = false

theorem attributeWord_chars : ∀ c ∈ attributeWord, isIdentifierChar c = true := forall_mem_of_all (by decide)

theorem clean_nil : Clean [] := ⟨by decide, by simp⟩

theorem Clean.suffix {x y : Str} (clean : Clean y) (inside : x <:+ y) : Clean x := by
  refine ⟨fun found => clean.1 (found.trans inside.isInfix), ?_⟩
  obtain ⟨front, rfl⟩ := inside
  cases x with
  | nil => simp
  | cons c x =>
    have last := clean.2
    rwa [List.getLast?_append_of_ne_nil _ (List.cons_ne_nil c x)] at last

theorem Clean.not_begins {x : Str} (clean : Clean x) (some : x ≠ []) (y : Str) : ¬ attributeWord <+: x ++ y := by
  rintro ⟨z, split⟩
  rcases List.append_eq_append_iff.mp split with ⟨w, whole, _⟩ | ⟨w, whole, _⟩
  · exact clean.1 ⟨[], w, by rw [whole]; rfl⟩
  · have letter := attributeWord_chars _ (whole ▸ List.mem_append_left w (List.getLast_mem some))
    rw [clean.2 _ (List.getLast?_eq_some_getLast some)] at letter
    cases letter

theorem Clean.append {x y : Str} (left : Clean x) (right : Clean y) : Clean (x ++ y) := by
  induction x with
  | nil => exact right
  | cons c x ih =>
    have rest := ih (left.suffix (List.suffix_cons c x))
    refine ⟨fun found => ?_, ?_⟩
    · rcases List.infix_cons_iff.mp found with front | inside
      · exact left.not_begins (List.cons_ne_nil c x) y front
      · exact rest.1 inside
    · rcases List.eq_nil_or_concat y with rfl | ⟨front, d, rfl⟩
      · simpa using left.2
      · rw [List.concat_eq_append, ← List.append_assoc, List.getLast?_concat]
        simpa using right.2

/-- Text of other characters. -/
theorem clean_of_others {x : Str} (others : ∀ c ∈ x, isIdentifierChar c = false) : Clean x := by
  refine ⟨fun found => ?_, fun c last => others c (List.mem_of_getLast? last)⟩
  have letter := attributeWord_chars '_' (by decide)
  rw [others '_' (found.subset (by decide))] at letter
  cases letter

theorem opening_eq_none {text : List α} (absent : ¬ attributeWord <+: text.map char) : opening char text = none := by
  cases found : opening char text with
  | none => rfl
  | some inner =>
    obtain ⟨word, gap, parens, rfl, isWord, _⟩ := opening_eq_some.mp found
    refine absurd ?_ absent
    rw [List.map_append, isWord]
    exact List.prefix_append _ _

/-- No specifier begins in a clean text, whatever is behind it. -/
theorem Clean.opening {front : List α} (clean : Clean (front.map char)) (text : List α) {back : List α} (some : back ≠ [])
    (inside : back <:+ front) : opening char (back ++ text) = none := by
  apply opening_eq_none
  rw [List.map_append]
  exact (clean.suffix (inside.map char)).not_begins (by simpa using some) _

theorem Clean.delete {p : Deletion.Pattern α} (begins : ∀ text, Attributes.opening char text = none → p.behind text = none)
    {front : List α} (clean : Clean (front.map char)) (text : List α) :
    Deletion.delete p (front ++ text) = front ++ Deletion.delete p text :=
  delete_append fun _ some inside => begins _ (clean.opening text some inside)

theorem simpleSpecifier_begins (text : List α) (missing : opening char text = none) :
    (simpleSpecifier char).behind text = none := Option.bind_eq_none_iff.mpr fun inner found => by
  cases missing.symm.trans found

theorem longestSpecifier_begins (text : List α) (missing : opening char text = none) :
    (longestSpecifier char).behind text = none := by
  show greedyMatch char text = none
  rw [greedyMatch, missing]
  rfl

theorem openSpecifier_begins (text : List α) (missing : opening char text = none) :
    (openSpecifier char).behind text = none := by
  show restMatch char text = none
  rw [restMatch, missing]
  rfl

/-! ### The last `))` -/

/-- No `))` follows, and none that the parenthesis in front is part of. -/
def NoClose (text : Str) : Prop := ¬ close <:+: ')' :: text

instance (text : Str) : Decidable (NoClose text) := inferInstanceAs (Decidable (¬ _))

theorem NoClose.absent {text : Str} (none : NoClose text) : ¬ close <:+: text := fun found =>
  none (found.trans (List.suffix_cons _ _).isInfix)

/-- Where no parenthesis is, no `))` begins. -/
theorem close_infix_behind {x y : Str} (noParen : ')' ∉ x) (found : close <:+: x ++ y) : close <:+: y := by
  induction x with
  | nil => exact found
  | cons c x ih =>
    obtain ⟨other, later⟩ := not_or.mp (List.mem_cons.not.mp noParen)
    rcases List.infix_cons_iff.mp found with front | inside
    · obtain ⟨rest, split⟩ := front
      exact absurd (List.cons.inj split).1 other
    · exact ih later inside

theorem noClose_append {x y : Str} (border : ∀ c ∈ y.head?, c ≠ ')') : NoClose (x ++ y) ↔ NoClose x ∧ ¬ close <:+: y := by
  constructor
  · intro none
    refine ⟨fun found => none ?_, fun found => none ?_⟩
    · exact found.trans (List.prefix_append (')' :: x) y).isInfix
    · exact found.trans (List.suffix_append (')' :: x) y).isInfix
  · intro both
    obtain ⟨inFront, behind⟩ := both
    have parens : ∀ c ∈ close, (c == ')') = true := forall_mem_of_all (by decide)
    have border' : ∀ c ∈ y.head?, (c == ')') = false := fun c first => beq_false_of_ne (border c first)
    intro found
    rcases Pattern.infix_append parens border' (List.cons_append ▸ found) with left | right
    · exact inFront left
    · exact behind right

theorem map_eq_close {closing : List α} (isClose : closing.map char = close) :
    ∃ a b, closing = [a, b] ∧ char a = ')' ∧ char b = ')' := by
  have pair : closing.map char = [')', ')'] := isClose
  obtain ⟨a, tail, rfl, first, second⟩ := List.map_eq_cons_iff.mp pair
  obtain ⟨b, tail, rfl, paren, third⟩ := List.map_eq_cons_iff.mp second
  obtain rfl := List.map_eq_nil_iff.mp third
  exact ⟨a, b, rfl, first, paren⟩

theorem length_closing {closing : List α} (isClose : closing.map char = close) : closing.length = 2 := by
  obtain ⟨a, b, rfl, _⟩ := map_eq_close isClose
  rfl

theorem exists_closing {text : List α} (found : close <:+: text.map char) :
    ∃ front closing rest, text = front ++ (closing ++ rest) ∧ closing.map char = close := by
  obtain ⟨u, v, split⟩ := found
  rw [List.append_assoc] at split
  obtain ⟨front, behind, rfl, _, second⟩ := List.map_eq_append_iff.mp split.symm
  obtain ⟨closing, rest, rfl, isClose, _⟩ := List.map_eq_append_iff.mp second
  exact ⟨front, closing, rest, rfl, isClose⟩

theorem lastClose_sound {text rest : List α} (found : lastClose char text = some rest) :
    ∃ front closing, text = front ++ (closing ++ rest) ∧ closing.map char = close := by
  induction text with
  | nil => cases found
  | cons c text ih =>
    rw [lastClose] at found
    split at found
    · cases found
    · split at found
      · rename_i inside
        obtain rfl := Option.some.inj found
        obtain ⟨front, closing, rfl, isClose⟩ := ih inside
        exact ⟨c :: front, closing, rfl, isClose⟩
      · obtain ⟨closing, split, isClose⟩ := literal_eq_some.mp found
        exact ⟨[], closing, split, isClose⟩

theorem lastClose_eq_none {text : List α} (absent : ¬ close <:+: text.map char) : lastClose char text = none := by
  cases found : lastClose char text with
  | none => rfl
  | some rest =>
    obtain ⟨front, closing, rfl, isClose⟩ := lastClose_sound found
    refine absurd ⟨front.map char, rest.map char, ?_⟩ absent
    rw [List.map_append, List.map_append, isClose, List.append_assoc]

theorem absent_of_suffix {back text : List α} (inside : back <:+ text) (absent : ¬ close <:+: text.map char) :
    ¬ close <:+: back.map char := fun found => absent (found.trans (inside.map char).isInfix)

theorem delete_upToClose_of_absent {text : List α} (absent : ¬ close <:+: text.map char) :
    delete (upToClose char) text = text :=
  delete_eq_self fun _ _ inside => lastClose_eq_none (absent_of_suffix inside absent)

theorem greedyMatch_eq_none {text : List α} (absent : ¬ close <:+: text.map char) : greedyMatch char text = none := by
  rw [greedyMatch]
  cases found : opening char text with
  | none => rfl
  | some inner =>
    obtain ⟨word, gap, parens, rfl, _⟩ := opening_eq_some.mp found
    have inside : inner <:+ word ++ (gap ++ (parens ++ inner)) :=
      ((List.suffix_append parens inner).trans (List.suffix_append gap _)).trans (List.suffix_append word _)
    show (lastClose char inner).map _ = none
    rw [lastClose_eq_none (absent_of_suffix inside absent)]
    rfl

theorem delete_longestSpecifier_of_absent {text : List α} (absent : ¬ close <:+: text.map char) :
    delete (longestSpecifier char) text = text :=
  delete_eq_self fun _ _ inside => greedyMatch_eq_none (absent_of_suffix inside absent)

theorem line_front {front text : List α} (line : '\n' ∉ ((front ++ text).map char).dropLast) (some : text ≠ []) :
    '\n' ∉ front.map char := by
  rw [List.map_append, List.dropLast_append_of_ne_nil (by simpa using some)] at line
  exact fun member => line (List.mem_append_left _ member)

/-- What is left of a line has its newline at the end. -/
theorem line_of_sublist {x y : List α} (inside : x.Sublist y) (line : '\n' ∉ (y.map char).dropLast) :
    '\n' ∉ (x.map char).dropLast := by
  have front := (inside.map char).reverse.tail
  rw [List.tail_reverse, List.tail_reverse] at front
  exact fun member => line ((List.reverse_sublist.mp front).subset member)

/-- The last `))` is this one, or one behind it. -/
theorem exists_lastClose {front closing : List α} (line : '\n' ∉ front.map char) (isClose : closing.map char = close)
    (text : List α) : ∃ rest, lastClose char (front ++ (closing ++ text)) = some rest ∧ rest <:+ text := by
  induction front with
  | nil =>
    obtain ⟨a, b, rfl, first, _⟩ := map_eq_close isClose
    have noLine : char a ≠ '\n' := by
      rw [first]
      decide
    show ∃ rest, lastClose char (a :: b :: text) = some rest ∧ rest <:+ text
    rw [lastClose, if_neg noLine]
    cases later : lastClose char (b :: text) with
    | some rest => exact ⟨rest, rfl, lastClose_cons_suffix later⟩
    | none => exact ⟨text, literal_append isClose text, List.suffix_refl _⟩
  | cons c front ih =>
    obtain ⟨noLine, line⟩ := not_or.mp (List.mem_cons.not.mp line)
    obtain ⟨rest, found, inside⟩ := ih line
    refine ⟨rest, ?_, inside⟩
    rw [List.cons_append, lastClose, if_neg (Ne.symm noLine), found]

/-- Behind the last `))` there is no other. -/
theorem lastClose_rest {text rest : List α} (line : '\n' ∉ (text.map char).dropLast)
    (found : lastClose char text = some rest) : ¬ close <:+: rest.map char := by
  intro other
  obtain ⟨front, closing, split, _⟩ := lastClose_sound found
  obtain ⟨between, closing', rest', same, isClose⟩ := exists_closing other
  have whole : text = (front ++ (closing ++ between)) ++ (closing' ++ rest') := by
    rw [split, same]
    simp only [List.append_assoc]
  have two := length_closing isClose
  have solid : closing' ++ rest' ≠ [] := List.append_ne_nil_of_left_ne_nil (List.ne_nil_of_length_pos (by omega)) rest'
  rw [whole] at line found
  obtain ⟨rest'', found', inRest⟩ := exists_lastClose (line_front line solid) isClose rest'
  rw [found] at found'
  obtain rfl := Option.some.inj found'
  have length := congrArg List.length same
  have short := inRest.length_le
  simp only [List.length_append] at length
  omega

/-- No `))` follows on the last, and none that shares a parenthesis with it. -/
theorem noClose_of_lastClose {front closing text : List α}
    (line : '\n' ∉ ((front ++ (closing ++ text)).map char).dropLast) (isClose : closing.map char = close)
    (found : lastClose char (front ++ (closing ++ text)) = some text) : NoClose (text.map char) := by
  obtain ⟨a, b, rfl, _, paren⟩ := map_eq_close isClose
  intro other
  rw [← paren, ← List.map_cons] at other
  rcases List.infix_cons_iff.mp other with here | later
  · obtain ⟨behind, split⟩ := here
    obtain ⟨d, rest, rfl, isParen, _⟩ := List.map_eq_cons_iff.mp (List.cons.inj split).2.symm
    have whole : front ++ ([a, b] ++ (d :: rest)) = (front ++ [a]) ++ ([b, d] ++ rest) := by simp
    have isClose' : [b, d].map char = close := by
      rw [List.map_cons, List.map_cons, paren, isParen]
      rfl
    rw [whole] at line found
    obtain ⟨rest', found', inRest⟩ := exists_lastClose (line_front line (by simp)) isClose' rest
    rw [found] at found'
    obtain rfl := Option.some.inj found'
    exact absurd inRest.length_le (by simp)
  · exact lastClose_rest line found later

/-- A text that ends with `))` behind a `))` ends with one that begins there, or later. -/
theorem close_suffix_behind {front closing passed front' closing' : List α} (isClose : closing.map char = close)
    (isClose' : closing'.map char = close) (same : front ++ (closing ++ passed) = front' ++ closing') (some : passed ≠ []) :
    close <:+ ')' :: passed.map char := by
  obtain ⟨a, b, rfl, _, paren⟩ := map_eq_close isClose
  have left : closing' <:+ front ++ ([a, b] ++ passed) := same ▸ List.suffix_append front' closing'
  have right : b :: passed <:+ front ++ ([a, b] ++ passed) := ⟨front ++ [a], by simp⟩
  have two := length_closing isClose'
  have length : closing'.length ≤ (b :: passed).length := by
    have positive := List.length_pos_iff.mpr some
    rw [two, List.length_cons]
    omega
  have inside := (List.suffix_of_suffix_length_le left right length).map char
  rwa [isClose', List.map_cons, paren] at inside

/-- The pattern goes on behind this `))` exactly where another one follows, and then up to a parenthesis. -/
theorem lastClose_behind {front closing text : List α} (line : '\n' ∉ ((front ++ (closing ++ text)).map char).dropLast)
    (isClose : closing.map char = close) :
    ∃ passed rest, text = passed ++ rest ∧ lastClose char (front ++ (closing ++ text)) = some rest ∧
      (passed = [] ↔ NoClose (text.map char)) ∧ ∀ c ∈ passed.getLast?, char c = ')' := by
  have solid : closing ++ text ≠ [] := by
    obtain ⟨a, b, rfl, _⟩ := map_eq_close isClose
    simp
  obtain ⟨rest, found, inside⟩ := exists_lastClose (line_front line solid) isClose text
  obtain ⟨passed, rfl⟩ := inside
  obtain ⟨front', closing', split, isClose'⟩ := lastClose_sound found
  have same : front ++ (closing ++ passed) = front' ++ closing' :=
    List.append_cancel_right (by simpa only [List.append_assoc] using split)
  refine ⟨passed, rest, rfl, found, ⟨?_, ?_⟩, ?_⟩
  · intro nothing
    subst nothing
    exact noClose_of_lastClose line isClose found
  · intro none
    by_contra some
    have ends := close_suffix_behind isClose isClose' same some
    refine none (ends.isInfix.trans ⟨[], rest.map char, ?_⟩)
    rw [List.map_append]
    rfl
  · intro c last
    have some : passed ≠ [] := by
      rintro rfl
      cases last
    obtain ⟨start, ends⟩ := close_suffix_behind isClose isClose' same some
    have chars := congrArg List.getLast? ends
    rw [List.getLast?_append_of_ne_nil _ (by decide), ← List.singleton_append,
      List.getLast?_append_of_ne_nil _ (by simpa using some), List.getLast?_map, last] at chars
    exact (Option.some.inj chars).symm

theorem opening_isSuffix {text inner : List α} (opens : opening char text = some inner) : inner <:+ text := by
  cases text with
  | nil => cases opens
  | cons c text => exact (opening_suffix opens).trans (List.suffix_cons c text)

theorem opening_closed {text inner : List α} (opens : opening char text = some inner) (found : close <:+: text.map char) :
    ∃ front closing behind, inner = front ++ (closing ++ behind) ∧ closing.map char = close := by
  obtain ⟨word, gap, parens, rfl, isWord, spaces, isParens⟩ := opening_eq_some.mp opens
  rw [List.map_append, List.map_append, List.map_append, isWord, isParens] at found
  have noParen : ')' ∉ gap.map char := by
    intro member
    obtain ⟨c, inGap, paren⟩ := List.mem_map.mp member
    have space := spaces c inGap
    rw [paren] at space
    cases space
  exact exists_closing (close_infix_behind (by decide) (close_infix_behind noParen (close_infix_behind (by decide) found)))

/-- A specifier that is closed is taken out up to the last `))` of the line. -/
theorem delete_longestSpecifier {text inner closing behind : List α} (line : '\n' ∉ (text.map char).dropLast)
    (opens : opening char text = some (inner ++ (closing ++ behind))) (isClose : closing.map char = close) :
    ∃ passed rest, behind = passed ++ rest ∧ delete (longestSpecifier char) text = skipSpace char rest ∧
      (passed = [] ↔ NoClose (behind.map char)) ∧ ∀ c ∈ passed.getLast?, char c = ')' := by
  have line' := line_of_sublist (opening_isSuffix opens).sublist line
  obtain ⟨passed, rest, rfl, found, none, last⟩ := lastClose_behind line' isClose
  refine ⟨passed, rest, rfl, ?_, none, last⟩
  have matched : greedyMatch char text = some (skipSpace char rest) := by
    rw [greedyMatch, opens]
    show (lastClose char _).map _ = _
    rw [found]
    rfl
  have absent : ¬ close <:+: (skipSpace char rest).map char :=
    absent_of_suffix (skipSpace_suffix rest) (lastClose_rest line' found)
  exact (delete_match matched).trans (delete_longestSpecifier_of_absent absent)

/-! ### Specifiers inside others -/

theorem SimpleHead.quiet {head : Str} (simple : SimpleHead head) :
    (∀ c ∈ head, Nesting.Quiet c) ∧ 2 ≤ head.count '(' := by
  obtain ⟨gap, names, rfl, spaces, listed⟩ := simple
  have quietWord : ∀ c ∈ attributeWord, Nesting.Quiet c := forall_mem_of_all (by decide)
  have quietParens : ∀ c ∈ "((".toList, Nesting.Quiet c := forall_mem_of_all (by decide)
  constructor
  · simp only [List.forall_mem_append]
    exact ⟨quietWord, fun c member => (quiet_of_isSpace (spaces c member)).1, quietParens,
      fun c member => (quiet_of_isNameList listed c member).1⟩
  · have two : "((".toList.count '(' = 2 := by decide
    simp only [List.count_append, two]
    omega

/-- Inside a text in which every parenthesis is closed, the pattern does not begin a match that ends behind the text. -/
theorem simpleMatch_inside_eq_none {front : Str} {text closing : List α}
    (balanced : Nesting.Balanced (front ++ text.map char)) (isClose : closing.map char = close) (rest : List α)
    (missing : simpleMatch char text = none) : simpleMatch char (text ++ (closing ++ rest)) = none := by
  by_contra other
  obtain ⟨behind, found⟩ := Option.ne_none_iff_exists'.mp other
  obtain ⟨head, closing', others, split, simple, isClose', _⟩ := simpleMatch_eq_some.mp found
  obtain ⟨quiet, two⟩ := simple.quiet
  obtain ⟨a, b, rfl, isParen, _⟩ := map_eq_close isClose
  obtain ⟨a', b', rfl, isParen', _⟩ := map_eq_close isClose'
  -- The head opens two parentheses, so that two are closed before the text ends.
  have long : ∀ tail : List α, text = head ++ tail → (∀ c ∈ tail, char c = ')') → 2 ≤ tail.length := by
    intro tail whole closes
    rw [whole, List.map_append] at balanced
    have count := balanced.closed quiet (by simpa using closes)
    rw [List.length_map] at count
    omega
  rcases List.append_eq_append_iff.mp split with ⟨between, whole, same⟩ | ⟨between, whole, same⟩
  · cases between with
    | nil => exact absurd (long [] (by simpa using whole.symm) (by simp)) (by simp)
    | cons c between =>
      have paren : char c = ')' := by rw [← (List.cons.inj same).1, isParen]
      have inHead : char c ∈ head.map char := by
        rw [whole]
        simp
      exact (quiet _ inHead).1 paren
  · cases between with
    | nil => exact absurd (long [] whole (by simp)) (by simp)
    | cons c between =>
      obtain ⟨rfl, later⟩ := List.cons.inj same
      cases between with
      | nil => exact absurd (long [a'] whole (by simpa using isParen')) (by simp)
      | cons d between =>
        obtain ⟨rfl, _⟩ := List.cons.inj later
        have matched : simpleMatch char text = some (skipSpace char between) :=
          simpleMatch_eq_some.mpr ⟨head, [a', b'], between, whole, simple, isClose', rfl⟩
        cases missing.symm.trans matched

/-- The pattern does not reach what is behind such a text. -/
theorem simpleMatch_inside {front : Str} {text closing : List α} (balanced : Nesting.Balanced (front ++ text.map char))
    (isClose : closing.map char = close) (rest : List α) :
    simpleMatch char (text ++ (closing ++ rest)) = (simpleMatch char text).map (· ++ (closing ++ rest)) := by
  cases found : simpleMatch char text with
  | none => exact simpleMatch_inside_eq_none balanced isClose rest found
  | some behind =>
    obtain ⟨head, closing', others, rfl, simple, isClose', rfl⟩ := simpleMatch_eq_some.mp found
    refine simpleMatch_eq_some.mpr ⟨head, closing', others ++ (closing ++ rest), by simp, simple, isClose', ?_⟩
    have solid : ∀ c ∈ (closing ++ rest).head?, isSpace (char c) = false := by
      obtain ⟨a, b, rfl, isParen, _⟩ := map_eq_close isClose
      intro c first
      obtain rfl := Option.some.inj first
      rw [isParen]
      decide
    exact (skipSpace_append_solid others solid).symm

theorem delete_inside {front : Str} {text closing : List α} (balanced : Nesting.Balanced (front ++ text.map char))
    (isClose : closing.map char = close) (rest : List α) :
    delete (simpleSpecifier char) (text ++ (closing ++ rest)) =
      delete (simpleSpecifier char) text ++ (closing ++ delete (simpleSpecifier char) rest) := by
  induction text using delete_induction (simpleSpecifier char) generalizing front with
  | nil =>
    have clean : Clean (closing.map char) := by
      rw [isClose]
      exact clean_of_others (forall_mem_of_all (by decide))
    exact clean.delete simpleSpecifier_begins rest
  | here text behind found ih =>
    have longer := simpleMatch_inside balanced isClose rest
    have found' : simpleMatch char text = some behind := found
    rw [found'] at longer
    obtain ⟨head, closing', others, rfl, _, _, rfl⟩ := simpleMatch_eq_some.mp found'
    obtain ⟨gap, split⟩ := skipSpace_suffix others
    have balanced' : Nesting.Balanced
        ((front ++ (head ++ (closing' ++ gap)).map char) ++ (skipSpace char others).map char) := by
      rw [List.append_assoc, ← List.map_append, List.append_assoc, List.append_assoc, split]
      exact balanced
    rw [delete_match found, delete_match longer]
    exact ih balanced'
  | cons c text missing ih =>
    have longer := simpleMatch_inside balanced isClose rest
    have missing' : simpleMatch char (c :: text) = none := missing
    rw [missing', Option.map_none] at longer
    have balanced' : Nesting.Balanced ((front ++ [char c]) ++ text.map char) := by simpa using balanced
    rw [delete_cons missing, List.cons_append, delete_cons longer, ih balanced', List.cons_append]

end Matches

end Tbf.Attributes
