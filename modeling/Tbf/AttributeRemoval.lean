import Tbf.Library.Deletion
import Tbf.Library.Nesting
import Tbf.Utils

/-!
# The attribute stage of `_rewrite_cproblems`

Four patterns and one bit: the stage does not match parentheses, but looks for the last `))` of a line.
-/

namespace Tbf.Attributes
open Text Deletion

def attributeWord : Str := "__attribute__".toList

def close : Str := "))".toList

/-- A character of `[a-z_, ]`. -/
def isNameChar (c : Char) : Bool := c.isLower || c == '_' || c == ',' || c == ' '

/-- The whole text is a match of `\s*[a-z_, ]+\s*`. A blank may count among the names. -/
def isNameList (names : Str) : Bool := (strip names).all isNameChar && names.any isNameChar

/-! ### The stage

Nothing but the characters matters to it. They are read by `char`, so that a character can carry a mark on its way;
the stage of the source is the one with `char = id`. -/

section Stage

variable {α : Type} (char : α → Char)

/-- A literal at the beginning of the text: what is behind it. -/
def literal (s : Str) (text : List α) : Option (List α) :=
  if s <+: text.map char then some (text.drop s.length) else none

def skipSpace (text : List α) : List α := text.dropWhile fun c => isSpace (char c)

/-- `__attribute__\s*\(\(` -/
def opening (text : List α) : Option (List α) :=
  (literal char attributeWord text).bind fun behind => literal char "((".toList (skipSpace char behind)

/-- `__attribute__\s*\(\(\s*[a-z_, ]+\s*\)\)\s*`: the names end where the first parenthesis closes. -/
def simpleMatch (text : List α) : Option (List α) :=
  (opening char text).bind fun inner =>
    if isNameList ((inner.takeWhile fun c => char c != ')').map char) then
      (literal char close (inner.dropWhile fun c => char c != ')')).map (skipSpace char)
    else none

/-- `.*\)\)`: the last `))` of the line. -/
def lastClose : List α → Option (List α)
  | [] => none
  | c :: text =>
    if char c = '\n' then none
    else match lastClose text with
      | some rest => some rest
      | none => literal char close (c :: text)

/-- `__attribute__\s*\(\(.*\)\)\s*` -/
def greedyMatch (text : List α) : Option (List α) :=
  ((opening char text).bind (lastClose char)).map (skipSpace char)

/-- `__attribute__\s*\(\(.*` -/
def restMatch (text : List α) : Option (List α) :=
  (opening char text).map fun inner => inner.dropWhile fun c => char c != '\n'

variable {char}

theorem literal_eq_some {s : Str} {text rest : List α} :
    literal char s text = some rest ↔ ∃ front, text = front ++ rest ∧ front.map char = s := by
  rw [literal]
  constructor
  · intro found
    split at found
    · rename_i here
      obtain rfl := Option.some.inj found
      refine ⟨text.take s.length, (List.take_append_drop _ _).symm, ?_⟩
      rw [List.map_take]
      exact (List.prefix_iff_eq_take.mp here).symm
    · cases found
  · intro split
    obtain ⟨front, rfl, rfl⟩ := split
    rw [if_pos (by simp), List.length_map, List.drop_left]

theorem literal_suffix {s : Str} (solid : s ≠ []) {c : α} {text rest : List α}
    (found : literal char s (c :: text) = some rest) : rest <:+ text := by
  obtain ⟨front, split, same⟩ := literal_eq_some.mp found
  cases front with
  | nil => exact absurd same.symm solid
  | cons d front => exact ⟨front, (List.cons.inj split).2.symm⟩

theorem opening_eq_some {text inner : List α} :
    opening char text = some inner ↔ ∃ word gap parens, text = word ++ (gap ++ (parens ++ inner)) ∧
      word.map char = attributeWord ∧ (∀ c ∈ gap, isSpace (char c) = true) ∧ parens.map char = "((".toList := by
  rw [opening, Option.bind_eq_some_iff]
  constructor
  · intro found
    obtain ⟨behind, first, second⟩ := found
    obtain ⟨word, rfl, isWord⟩ := literal_eq_some.mp first
    obtain ⟨parens, split, isParens⟩ := literal_eq_some.mp second
    refine ⟨word, behind.takeWhile fun c => isSpace (char c), parens, ?_, isWord, ?_, isParens⟩
    · rw [← split, skipSpace, List.takeWhile_append_dropWhile]
    · exact fun c member => List.mem_takeWhile_imp (p := fun c => isSpace (char c)) member
  · intro split
    obtain ⟨word, gap, parens, rfl, isWord, spaces, isParens⟩ := split
    refine ⟨gap ++ (parens ++ inner), literal_eq_some.mpr ⟨word, rfl, isWord⟩, ?_⟩
    obtain ⟨c, parens', rfl⟩ : ∃ c parens', parens = c :: parens' := by
      apply List.exists_cons_of_ne_nil
      rintro rfl
      cases isParens
    have solid : isSpace (char c) = false := by
      rw [(List.cons.inj isParens).1]
      decide
    rw [skipSpace, List.dropWhile_append_of_pos spaces, List.cons_append, List.dropWhile_cons_of_neg (by simp [solid])]
    exact literal_eq_some.mpr ⟨c :: parens', rfl, isParens⟩

theorem opening_suffix {c : α} {text inner : List α} (found : opening char (c :: text) = some inner) :
    inner <:+ text := by
  obtain ⟨word, gap, parens, split, isWord, _⟩ := opening_eq_some.mp found
  cases word with
  | nil => cases isWord
  | cons d word =>
    refine ⟨word ++ (gap ++ parens), ?_⟩
    rw [List.append_assoc, List.append_assoc]
    exact (List.cons.inj split).2.symm

theorem skipSpace_suffix (text : List α) : skipSpace char text <:+ text := List.dropWhile_suffix _

theorem lastClose_suffix {text rest : List α} (found : lastClose char text = some rest) : rest <:+ text := by
  induction text with
  | nil => cases found
  | cons c text ih =>
    rw [lastClose] at found
    split at found
    · cases found
    · split at found
      · rename_i inside
        obtain rfl := Option.some.inj found
        exact (ih inside).trans (List.suffix_cons c text)
      · exact (literal_suffix (by decide) found).trans (List.suffix_cons c text)

theorem lastClose_cons_suffix {c : α} {text rest : List α} (found : lastClose char (c :: text) = some rest) :
    rest <:+ text := by
  rw [lastClose] at found
  split at found
  · cases found
  · split at found
    · rename_i inside
      obtain rfl := Option.some.inj found
      exact lastClose_suffix inside
    · exact literal_suffix (by decide) found

variable (char)

def openingPattern : Deletion.Pattern α where
  behind := opening char
  nil := rfl
  cons := opening_suffix

def simpleSpecifier : Deletion.Pattern α where
  behind := simpleMatch char
  nil := rfl
  cons found := by
    obtain ⟨inner, opens, found⟩ := Option.bind_eq_some_iff.mp found
    split at found
    · obtain ⟨behind, closes, rfl⟩ := Option.map_eq_some_iff.mp found
      obtain ⟨front, split, _⟩ := literal_eq_some.mp closes
      have inside : behind <:+ inner := (split ▸ List.suffix_append front behind).trans (List.dropWhile_suffix _)
      exact ((skipSpace_suffix behind).trans inside).trans (opening_suffix opens)
    · cases found

def longestSpecifier : Deletion.Pattern α where
  behind := greedyMatch char
  nil := rfl
  cons found := by
    obtain ⟨behind, closes, rfl⟩ := Option.map_eq_some_iff.mp found
    obtain ⟨inner, opens, closes⟩ := Option.bind_eq_some_iff.mp closes
    exact ((skipSpace_suffix behind).trans (lastClose_suffix closes)).trans (opening_suffix opens)

def openSpecifier : Deletion.Pattern α where
  behind := restMatch char
  nil := rfl
  cons found := by
    obtain ⟨inner, opens, rfl⟩ := Option.map_eq_some_iff.mp found
    exact (List.dropWhile_suffix _).trans (opening_suffix opens)

def upToClose : Deletion.Pattern α where
  behind := lastClose char
  nil := rfl
  cons := lastClose_cons_suffix

/-- The stage for one line, which ends with its newline. -/
def rewriteAttributes (inAttribute : Bool) (line : List α) : List α × Bool :=
  let line := delete (longestSpecifier char) (delete (simpleSpecifier char) line)
  if occurs (openingPattern char) line then (delete (openSpecifier char) line, true)
  else if inAttribute then (delete (upToClose char) line, false)
  else (line, false)

def rewriteAttributeLines : Bool → List (List α) → List α
  | _, [] => []
  | inAttribute, line :: lines =>
    (rewriteAttributes char inAttribute line).1 ++ rewriteAttributeLines (rewriteAttributes char inAttribute line).2 lines

/-- `[c + "\n" for c in content.split('\n')]` -/
def linesOf (newline : α) (content : List α) : List (List α) :=
  (content.splitOnP fun c => char c == '\n').map (· ++ [newline])

/-- The attribute stage on a text of marked characters. -/
def removeAttributesOf (newline : α) (content : List α) : List α :=
  rewriteAttributeLines char false (linesOf char newline content)

end Stage

/-- The attribute stage of `_rewrite_cproblems`. -/
def removeAttributes (content : Str) : Str := removeAttributesOf id '\n' content

/-! ### Marks change nothing -/

section Marks

variable {α β : Type} {char : α → Char} {char' : β → Char} {f : α → β} (same : ∀ a, char' (f a) = char a)

include same

theorem map_chars (text : List α) : (text.map f).map char' = text.map char := by
  rw [List.map_map]
  exact List.map_congr_left fun a _ => same a

theorem literal_map (s : Str) (text : List α) :
    literal char' s (text.map f) = (literal char s text).map (List.map f) := by
  rw [literal, literal, map_chars same]
  split
  · rw [← List.map_drop, Option.map_some]
  · rfl

theorem dropWhile_chars (p : Char → Bool) (text : List α) :
    (text.map f).dropWhile (fun c => p (char' c)) = (text.dropWhile fun c => p (char c)).map f := by
  rw [List.dropWhile_map]
  simp only [Function.comp_def, same]

theorem takeWhile_chars (p : Char → Bool) (text : List α) :
    (text.map f).takeWhile (fun c => p (char' c)) = (text.takeWhile fun c => p (char c)).map f := by
  rw [List.takeWhile_map]
  simp only [Function.comp_def, same]

theorem skipSpace_map (text : List α) : skipSpace char' (text.map f) = (skipSpace char text).map f :=
  dropWhile_chars same isSpace text

theorem opening_map (text : List α) : opening char' (text.map f) = (opening char text).map (List.map f) := by
  rw [opening, opening, literal_map same, Option.bind_map, Option.map_bind]
  congr 1
  funext behind
  rw [Function.comp_apply, skipSpace_map same, literal_map same]
  rfl

theorem simpleMatch_map (text : List α) : simpleMatch char' (text.map f) = (simpleMatch char text).map (List.map f) := by
  rw [simpleMatch, simpleMatch, opening_map same, Option.bind_map, Option.map_bind]
  congr 1
  funext inner
  rw [Function.comp_apply, Function.comp_apply, takeWhile_chars same (· != ')'), dropWhile_chars same (· != ')'),
    map_chars same, literal_map same]
  split
  · rw [Option.map_map, Option.map_map]
    congr 1
    funext behind
    exact skipSpace_map same behind
  · rfl

theorem lastClose_map (text : List α) : lastClose char' (text.map f) = (lastClose char text).map (List.map f) := by
  induction text with
  | nil => rfl
  | cons c text ih =>
    have here := literal_map same close (c :: text)
    rw [List.map_cons] at here ⊢
    rw [lastClose, lastClose, same, ih, here]
    split
    · rfl
    · cases lastClose char text <;> rfl

theorem greedyMatch_map (text : List α) : greedyMatch char' (text.map f) = (greedyMatch char text).map (List.map f) := by
  rw [greedyMatch, greedyMatch, opening_map same, Option.bind_map, Option.map_map]
  cases opening char text with
  | none => rfl
  | some inner =>
    show (lastClose char' (inner.map f)).map _ = (lastClose char inner).map _
    rw [lastClose_map same, Option.map_map]
    congr 1
    funext behind
    exact skipSpace_map same behind

theorem restMatch_map (text : List α) : restMatch char' (text.map f) = (restMatch char text).map (List.map f) := by
  rw [restMatch, restMatch, opening_map same, Option.map_map, Option.map_map]
  congr 1
  funext inner
  exact dropWhile_chars same (· != '\n') inner

theorem rewriteAttributes_map (inAttribute : Bool) (line : List α) :
    rewriteAttributes char' inAttribute (line.map f) =
      ((rewriteAttributes char inAttribute line).1.map f, (rewriteAttributes char inAttribute line).2) := by
  have simple := delete_map (q := simpleSpecifier char') (p := simpleSpecifier char) (simpleMatch_map same)
  have longest := delete_map (q := longestSpecifier char') (p := longestSpecifier char) (greedyMatch_map same)
  have unclosed := delete_map (q := openSpecifier char') (p := openSpecifier char) (restMatch_map same)
  have upTo := delete_map (q := upToClose char') (p := upToClose char) (lastClose_map same)
  have search := occurs_map (q := openingPattern char') (p := openingPattern char) (opening_map same)
  rw [rewriteAttributes, rewriteAttributes]
  simp only [simple, longest, unclosed, upTo, search]
  split
  · rfl
  · split <;> rfl

theorem rewriteAttributeLines_map (inAttribute : Bool) (lines : List (List α)) :
    rewriteAttributeLines char' inAttribute (lines.map (List.map f)) =
      (rewriteAttributeLines char inAttribute lines).map f := by
  induction lines generalizing inAttribute with
  | nil => rfl
  | cons line lines ih =>
    rw [List.map_cons, rewriteAttributeLines, rewriteAttributes_map same, ih, rewriteAttributeLines, List.map_append]

theorem linesOf_map (newline : α) (content : List α) :
    linesOf char' (f newline) (content.map f) = (linesOf char newline content).map (List.map f) := by
  have split : (content.map f).splitOnP (fun c => char' c == '\n') =
      (content.splitOnP fun c => char c == '\n').map (List.map f) := by
    induction content with
    | nil => rfl
    | cons c content ih =>
      rw [List.map_cons, List.splitOnP_cons_eq_if_modifyHead, List.splitOnP_cons_eq_if_modifyHead, same, ih]
      split
      · rfl
      · cases content.splitOnP fun c => char c == '\n' <;> rfl
  rw [linesOf, linesOf, split, List.map_map, List.map_map]
  exact List.map_congr_left fun line _ => by simp

/-- The stage leaves of marked characters what it leaves of the characters. -/
theorem removeAttributesOf_map (newline : α) (content : List α) :
    removeAttributesOf char' (f newline) (content.map f) = (removeAttributesOf char newline content).map f := by
  rw [removeAttributesOf, linesOf_map same, rewriteAttributeLines_map same]
  rfl

end Marks

end Tbf.Attributes
