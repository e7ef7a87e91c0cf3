import Tbf.Library.Text

/-!
# Lines and places of a text

`str.splitlines` with all its separators, `str.find`, and the last component of a path.
-/

namespace Text

/-! ### Lines -/

/-- The characters that end a line, but for the carriage return. -/
def isLineEnd (c : Char) : Bool :=
  let n := c.toNat
  (10 ≤ n && n ≤ 12) || (28 ≤ n && n ≤ 30) || n == 0x85 || n == 0x2028 || n == 0x2029

def linesOf : Str → List Str
  | [] => []
  | c :: rest =>
    if isLineEnd c then [] :: linesOf rest
    else match linesOf rest with
      | [] => [[c]]
      | line :: lines => (c :: line) :: lines

/-- `splitlines()`: a carriage return ends a line as well, together with a newline behind it. -/
def splitLines (text : Str) : List Str := linesOf (universalNewlines text)

/-- The text stays on its line. -/
def OnOneLine (text : Str) : Prop := ∀ c ∈ text, isLineEnd c = false ∧ c ≠ '\r'

instance (text : Str) : Decidable (OnOneLine text) :=
  decidable_of_iff (text.all fun c => !isLineEnd c && c != '\r') (by simp [OnOneLine])

theorem OnOneLine.append {front back : Str} (first : OnOneLine front) (second : OnOneLine back) : OnOneLine (front ++ back) :=
  fun c member => (List.mem_append.mp member).elim (first c) (second c)

theorem linesOf_append {line : Str} (onOneLine : OnOneLine line) (rest : Str) :
    linesOf (line ++ '\n' :: rest) = line :: linesOf rest := by
  induction line with
  | nil => rfl
  | cons c line ih =>
    obtain ⟨here, others⟩ := List.forall_mem_cons.mp onOneLine
    rw [List.cons_append, linesOf, here.1, ih others]
    rfl

/-- Lines that are each ended by a newline are split back. -/
theorem splitLines_flatMap {lines : List Str} (onOneLine : ∀ line ∈ lines, OnOneLine line) :
    splitLines (lines.flatMap (· ++ ['\n'])) = lines := by
  have clean : '\r' ∉ lines.flatMap (· ++ ['\n']) := by
    intro member
    obtain ⟨line, inside, member⟩ := List.mem_flatMap.mp member
    rcases List.mem_append.mp member with member | member
    · exact (onOneLine line inside _ member).2 rfl
    · exact absurd member (by decide)
  rw [splitLines, universalNewlines_eq_self clean]
  clear clean
  induction lines with
  | nil => rfl
  | cons line lines ih =>
    obtain ⟨here, others⟩ := List.forall_mem_cons.mp onOneLine
    rw [List.flatMap_cons, List.append_assoc, List.singleton_append, linesOf_append here, ih others]

/-! ### Places -/

/-- `find`: what stands in front of the first occurrence, and the rest from there. -/
def findSub (sub : Str) : Str → Option (Str × Str)
  | [] => if sub = [] then some ([], []) else none
  | c :: rest =>
    if sub <+: c :: rest then some ([], c :: rest)
    else (findSub sub rest).map fun found => (c :: found.1, found.2)

/-- A text without the first character of what is searched is in front of the first occurrence. -/
theorem findSub_append {c : Char} {sub front : Str} (absent : c ∉ front) (rest : Str) :
    findSub (c :: sub) (front ++ (c :: sub ++ rest)) = some (front, c :: sub ++ rest) := by
  induction front with
  | nil =>
    rw [List.nil_append, List.cons_append, findSub, if_pos ⟨rest, rfl⟩]
  | cons d front ih =>
    obtain ⟨here, others⟩ := not_or.mp (fun either => absent (List.mem_cons.mpr either))
    have apart : ¬ c :: sub <+: d :: (front ++ (c :: sub ++ rest)) := fun inside => here (List.cons_prefix_cons.mp inside).1
    rw [List.cons_append, findSub, if_neg apart, ih others]
    rfl

/-- `os.path.basename` -/
def basename (path : Str) : Str := path.rtakeWhile (· ≠ '/')

theorem basename_suffix (path : Str) : basename path <:+ path := List.rtakeWhile_suffix _ path

end Text
