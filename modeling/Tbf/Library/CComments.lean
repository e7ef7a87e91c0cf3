import Tbf.Library.Text

/-!
# The comments of C

A text is read character by character. The mode says what the next character can do: open or close a comment,
open or close a literal, or nothing of the kind.
-/

namespace CComments
open Text

inductive Quote where
  | single
  | double
  deriving DecidableEq, Repr

def Quote.char : Quote → Char
  | single => '\''
  | double => '"'

/-- `slash`, `star` and the two escapes remember the character in front; `lineComment` is a comment that ends with
its line. -/
inductive Mode where
  | code
  | slash
  | comment
  | star
  | lineComment
  | lineEscape
  | literal (quote : Quote)
  | escape (quote : Quote)
  deriving DecidableEq, Repr

def Mode.InLineComment : Mode → Prop
  | lineComment | lineEscape => True
  | _ => False

def Mode.InLiteral : Mode → Prop
  | literal _ | escape _ => True
  | _ => False

instance (m : Mode) : Decidable m.InLineComment :=
  match m with
  | .lineComment | .lineEscape => isTrue trivial
  | .code | .slash | .comment | .star | .literal _ | .escape _ => isFalse id

instance (m : Mode) : Decidable m.InLiteral :=
  match m with
  | .literal _ | .escape _ => isTrue trivial
  | .code | .slash | .comment | .star | .lineComment | .lineEscape => isFalse id

def fromCode (c : Char) : Str × Mode :=
  if c = '/' then ([], .slash)
  else if c = Quote.double.char then ([c], .literal .double)
  else if c = Quote.single.char then ([c], .literal .single)
  else ([c], .code)

/-- What a character leaves, and the mode behind it. A comment leaves one space. A literal and a comment of one
line end with the line at the latest, unless a backslash joins the next line. No lines are joined between the two
characters that open or close a comment: a text is meant that has been preprocessed, where this is done already. -/
def step : Mode → Char → Str × Mode
  | .code, c => fromCode c
  | .slash, c =>
    if c = '*' then ([' '], .comment)
    else if c = '/' then ([' '], .lineComment)
    else ('/' :: (fromCode c).1, (fromCode c).2)
  | .comment, c => ([], if c = '*' then .star else .comment)
  | .star, c => ([], if c = '/' then .code else if c = '*' then .star else .comment)
  | .lineComment, c => if c = '\n' then ([c], .code) else ([], if c = '\\' then .lineEscape else .lineComment)
  | .lineEscape, c => ([], if c = '\\' then .lineEscape else .lineComment)
  | .literal q, c => ([c], if c = '\\' then .escape q else if c = q.char ∨ c = '\n' then .code else .literal q)
  | .escape q, c => ([c], .literal q)

/-- What a text leaves, and the mode behind it. -/
def run : Mode → Str → Str × Mode
  | m, [] => ([], m)
  | m, c :: text => ((step m c).1 ++ (run (step m c).2 text).1, (run (step m c).2 text).2)

/-- The text without its comments. -/
def withoutComments (text : Str) : Str :=
  (run .code text).1 ++ if (run .code text).2 = .slash then ['/'] else []

theorem run_cons (m : Mode) (c : Char) (text : Str) :
    run m (c :: text) = ((step m c).1 ++ (run (step m c).2 text).1, (run (step m c).2 text).2) := rfl

theorem run_append (m : Mode) (x y : Str) :
    run m (x ++ y) = ((run m x).1 ++ (run (run m x).2 y).1, (run (run m x).2 y).2) := by
  induction x generalizing m with
  | nil => rfl
  | cons c x ih => rw [List.cons_append, run_cons, ih, run_cons, List.append_assoc]

/-! ### Code -/

/-- A character that neither opens nor closes anything is left. -/
theorem run_code_cons {c : Char} (slash : c ≠ '/') (text : Str) :
    run .code (c :: text) = (c :: (run (fromCode c).2 text).1, (run (fromCode c).2 text).2) := by
  have left : (fromCode c).1 = [c] := by
    rw [fromCode, if_neg slash]
    split
    · rfl
    · split <;> rfl
  rw [run_cons]
  simp only [step, left, List.singleton_append]

/-- A slash that opens no comment is an operator. -/
theorem run_code_slash {d : Char} (star : d ≠ '*') (slash : d ≠ '/') (text : Str) :
    run .code ('/' :: d :: text) = ('/' :: (run .code (d :: text)).1, (run .code (d :: text)).2) := by
  have first : step .code '/' = ([], .slash) := rfl
  have second : step .slash d = ('/' :: (fromCode d).1, (fromCode d).2) := by
    simp only [step, if_neg star, if_neg slash]
  rw [run_cons, first, run_cons, second, run_cons]
  rfl

theorem run_code_open (text : Str) :
    run .code ('/' :: '*' :: text) = (' ' :: (run .comment text).1, (run .comment text).2) := rfl

/-! ### Comments -/

/-- Behind a star the comment goes on as it does anywhere, if it is not closed there. -/
theorem run_star {d : Char} (slash : d ≠ '/') (text : Str) : run .star (d :: text) = run .comment (d :: text) := by
  rw [run_cons, run_cons]
  simp only [step, if_neg slash]

theorem run_comment_cons {c d : Char} (open' : ¬ (c = '*' ∧ d = '/')) (text : Str) :
    run .comment (c :: d :: text) = run .comment (d :: text) := by
  have next : run (step .comment c).2 (d :: text) = run .comment (d :: text) := by
    by_cases star : c = '*'
    · have behind : (step .comment c).2 = .star := by simp only [step, if_pos star]
      rw [behind, run_star fun slash => open' ⟨star, slash⟩]
    · have behind : (step .comment c).2 = .comment := by simp only [step, if_neg star]
      rw [behind]
  rw [run_cons, next]
  rfl

/-! ### Literals -/

theorem run_literal_cons (m : Mode) (inLiteral : m.InLiteral) (c : Char) (text : Str) :
    run m (c :: text) = (c :: (run (step m c).2 text).1, (run (step m c).2 text).2) := by
  cases m with
  | literal q => rfl
  | escape q => rfl
  | _ => cases inLiteral

end CComments
