import Tbf.Library.CComments
import Tbf.Library.Pattern

/-!
# The comment stage of `_rewrite_cproblems`

The stage looks for the two markers line by line, and remembers between the lines whether a comment is open. What
C takes for a comment depends on the literals as well.
-/

namespace Tbf
open Text Pattern CComments

def commentStart : Str := "/*".toList

def commentEnd : Str := "*/".toList

/-- The length of a match of `/\*.*?\*/` at the beginning of the text. -/
def commentMatch (text : Str) : Option Nat :=
  if commentStart <+: text then (upTo commentEnd (text.drop 2)).map fun found => 2 + found.1.length + 2 else none

/-- `skip` counts the characters of a match that are still to be passed. -/
def removeCommentsFrom : Nat → Str → Str
  | _, [] => []
  | 0, c :: text =>
    match commentMatch (c :: text) with
    | some length => removeCommentsFrom (length - 1) text
    | none => c :: removeCommentsFrom 0 text
  | skip + 1, _ :: text => removeCommentsFrom skip text

/-- `re.sub(r'/\*.*?\*/', '', line)` -/
def removeClosed (line : Str) : Str := removeCommentsFrom 0 line

/-- What is behind the last `*/`, if there is one: `re.sub(r'.*\*/', '', line)`. -/
def behindLast : Str → Option Str
  | [] => none
  | c :: text =>
    match behindLast text with
    | some rest => some rest
    | none => if commentEnd <+: c :: text then some (text.drop 1) else none

/-- What is in front of the first `/*`, if there is one: `re.sub(r'/\*.*', '', line)`. -/
def beforeFirst : Str → Option Str
  | [] => none
  | c :: text => if commentStart <+: c :: text then some [] else (beforeFirst text).map (c :: ·)

/-- The end of the stage: an open comment is cut off, up to the newline. -/
def cutOpen (line : Str) : Str × Bool :=
  match beforeFirst line with
  | some front => (front ++ ['\n'], true)
  | none => (line ++ ['\n'], false)

/-- The stage for one line. The newline at its end is not part of `line`: no pattern matches it, and only
`line = ''` removes it. -/
def rewriteComments (inCxxComment : Bool) (line : Str) : Str × Bool :=
  if inCxxComment then
    match behindLast line with
    | some rest => cutOpen rest
    | none => ([], true)
  else cutOpen (removeClosed line)

def rewriteLines : Bool → List Str → Str
  | _, [] => []
  | inCxxComment, line :: lines =>
    (rewriteComments inCxxComment line).1 ++ rewriteLines (rewriteComments inCxxComment line).2 lines

/-- The comment stage of `_rewrite_cproblems`. -/
def removeComments (content : Str) : Str := rewriteLines false (content.splitOn '\n')

/-! ### What is to be left -/

/-- The text up to white space. -/
def solid (text : Str) : Str := text.filter fun c => !isSpace c

/-- The stage leaves what the comment rule of C leaves, up to white space: words between which only a comment stood are
one word behind the stage, and this counts as right. -/
def SameCode (content : Str) : Prop := solid (removeComments content) = solid (withoutComments content)

/-- No literal on the line has a `/*` in it, and no comment of the kind that ends with its line begins on it. -/
def Clear (m : Mode) (line : Str) : Prop :=
  ∀ front back, line = front ++ back →
    ¬ (run m front).2.InLineComment ∧ (commentStart <+: back → ¬ (run m front).2.InLiteral)

/-- What may follow on a line when a comment has ended there that the line did not begin: up to the last `*/`, only
white space and comments. -/
inductive Closes : Str → Prop
  | last {rest : Str} : ¬ commentEnd <:+: rest → Clear .code rest → Closes rest
  | comment {blank text body rest : Str} : (∀ c ∈ blank, isSpace c = true) → upTo commentEnd text = some (body, rest) →
      Closes rest → Closes (blank ++ commentStart ++ text)

/-- The lines that the stage gets right, by the mode in which they begin. -/
def LineOk (m : Mode) (line : Str) : Prop :=
  if m = .comment then ∀ body rest, upTo commentEnd line = some (body, rest) → Closes rest else Clear m line

def LinesOk : Mode → List Str → Prop
  | _, [] => True
  | m, line :: lines => LineOk m line ∧ LinesOk (run m (line ++ ['\n'])).2 lines

/-! ### The patterns -/

theorem solid_append (x y : Str) : solid (x ++ y) = solid x ++ solid y := List.filter_append _ _

theorem solid_cons (c : Char) (text : Str) : solid (c :: text) = solid [c] ++ solid text := by
  rw [← List.singleton_append, solid_append]

theorem prefix_pair {a b c : Char} {text : Str} : [a, b] <+: c :: text ↔ a = c ∧ ∃ rest, text = b :: rest := by
  rw [List.cons_prefix_cons]
  refine and_congr_right fun _ => ?_
  constructor
  · intro front
    obtain ⟨rest, same⟩ := front
    exact ⟨rest, same.symm⟩
  · intro front
    obtain ⟨rest, rfl⟩ := front
    exact ⟨rest, rfl⟩

theorem commentStart_prefix_iff {c : Char} {text : Str} :
    commentStart <+: c :: text ↔ c = '/' ∧ ∃ rest, text = '*' :: rest := by
  have chars : commentStart = ['/', '*'] := rfl
  rw [chars, prefix_pair, eq_comm]

theorem commentEnd_prefix_iff {c : Char} {text : Str} :
    commentEnd <+: c :: text ↔ c = '*' ∧ ∃ rest, text = '/' :: rest := by
  have chars : commentEnd = ['*', '/'] := rfl
  rw [chars, prefix_pair, eq_comm]

/-- What is behind the first `*/`. -/
theorem upTo_rest {text body rest : Str} (found : upTo commentEnd text = some (body, rest)) :
    text = body ++ (commentEnd ++ rest) ∧ rest.length < text.length ∧ ('\n' ∉ text → '\n' ∉ rest) := by
  have split := (upTo_sound found).1
  rw [List.append_assoc] at split
  have long : commentEnd.length = 2 := rfl
  refine ⟨split, ?_, fun clean member => clean ?_⟩
  · rw [split, List.length_append, List.length_append]
    omega
  · rw [split]
    exact List.mem_append_right _ (List.mem_append_right _ member)

theorem upTo_none {text : Str} (absent : ¬ commentEnd <:+: text) : upTo commentEnd text = none := by
  cases found : upTo commentEnd text with
  | none => rfl
  | some parts => exact absurd ⟨parts.1, parts.2, (upTo_sound found).1.symm⟩ absent

theorem removeCommentsFrom_skip (front text : Str) :
    removeCommentsFrom front.length (front ++ text) = removeCommentsFrom 0 text := by
  induction front with
  | nil => rfl
  | cons c front ih => simpa [removeCommentsFrom] using ih

theorem removeClosed_cons {c : Char} {text : Str} (absent : ¬ commentStart <+: c :: text) :
    removeClosed (c :: text) = c :: removeClosed text := by
  have missing : commentMatch (c :: text) = none := by rw [commentMatch, if_neg absent]
  rw [removeClosed, removeCommentsFrom, missing]
  rfl

theorem removeClosed_match {text body rest : Str} (found : upTo commentEnd text = some (body, rest)) :
    removeClosed ('/' :: '*' :: text) = removeClosed rest := by
  have start : commentStart <+: '/' :: '*' :: text := ⟨text, rfl⟩
  have length : commentMatch ('/' :: '*' :: text) = some (2 + body.length + 2) := by
    rw [commentMatch, if_pos start]
    simp [found]
  have split := (upTo_sound found).1
  have passed : ('*' :: (body ++ commentEnd)).length = 2 + body.length + 2 - 1 := by
    simp [commentEnd]
    omega
  rw [removeClosed, removeCommentsFrom, length, split, ← List.cons_append]
  dsimp only
  rw [← passed, removeCommentsFrom_skip]
  rfl

theorem removeClosed_open {text : Str} (missing : upTo commentEnd text = none) :
    removeClosed ('/' :: '*' :: text) = '/' :: '*' :: removeClosed text := by
  have start : commentStart <+: '/' :: '*' :: text := ⟨text, rfl⟩
  have noMatch : commentMatch ('/' :: '*' :: text) = none := by
    rw [commentMatch, if_pos start]
    simp [missing]
  have star : ¬ commentStart <+: '*' :: text := by simp [commentStart_prefix_iff]
  rw [← removeClosed_cons star, removeClosed, removeCommentsFrom, noMatch]
  rfl

theorem cutOpen_cons {c : Char} {text : Str} (absent : ¬ commentStart <+: c :: text) :
    cutOpen (c :: text) = (c :: (cutOpen text).1, (cutOpen text).2) := by
  rw [cutOpen, cutOpen, beforeFirst, if_neg absent]
  cases beforeFirst text <;> rfl

theorem cutOpen_start (text : Str) : cutOpen ('/' :: '*' :: text) = (['\n'], true) := rfl

/-- A character at which no comment opens is left where it is. The slash must not be joined with a star from behind
a comment. -/
theorem cutOpen_removeClosed_cons {c : Char} {text : Str} (absent : ¬ commentStart <+: c :: text)
    (joined : c = '/' → ¬ commentStart <+: text) :
    cutOpen (removeClosed (c :: text)) =
      (c :: (cutOpen (removeClosed text)).1, (cutOpen (removeClosed text)).2) := by
  rw [removeClosed_cons absent]
  apply cutOpen_cons
  intro front
  obtain ⟨rfl, rest, star⟩ := commentStart_prefix_iff.mp front
  cases text with
  | nil => cases star
  | cons d text =>
    rw [removeClosed_cons (joined rfl)] at star
    obtain ⟨rfl, _⟩ := List.cons.inj star
    exact absent ⟨text, rfl⟩

/-! ### Lines that begin outside a comment -/

/-- The stage leaves what the rule leaves, and has the comment open that the rule has open. -/
def Agrees (made : Str × Bool) (wanted : Str × Mode) : Prop :=
  solid made.1 = solid wanted.1 ∧ (made.2 = true ↔ wanted.2 = .comment)

theorem Agrees.cons {made : Str × Bool} {wanted : Str × Mode} (agrees : Agrees made wanted) (c : Char) :
    Agrees (c :: made.1, made.2) (c :: wanted.1, wanted.2) := by
  refine ⟨?_, agrees.2⟩
  rw [solid_cons, agrees.1, ← solid_cons]

theorem Clear.here {m : Mode} {line : Str} (clear : Clear m line) :
    ¬ m.InLineComment ∧ (commentStart <+: line → ¬ m.InLiteral) := clear [] line rfl

theorem Clear.tail {m : Mode} {c : Char} {line : Str} (clear : Clear m (c :: line)) : Clear (step m c).2 line := by
  intro front back split
  exact clear (c :: front) back (by rw [split]; rfl)

theorem Clear.behind {m : Mode} {front line : Str} (clear : Clear m (front ++ line)) : Clear (run m front).2 line := by
  intro front' back split
  have here := clear (front ++ front') back (by rw [split, List.append_assoc])
  rwa [run_append] at here

theorem clear_nil {m : Mode} : Clear m [] ↔ ¬ m.InLineComment := by
  constructor
  · exact fun clear => clear.here.1
  · intro noComment front back split
    obtain ⟨rfl, rfl⟩ := List.append_eq_nil_iff.mp split.symm
    exact ⟨noComment, fun start => absurd start (by decide)⟩

theorem clear_cons {m : Mode} {c : Char} {line : Str} :
    Clear m (c :: line) ↔
      (¬ m.InLineComment ∧ (commentStart <+: c :: line → ¬ m.InLiteral)) ∧ Clear (step m c).2 line := by
  constructor
  · exact fun clear => ⟨clear.here, clear.tail⟩
  · intro both front back split
    cases front with
    | nil =>
      obtain rfl : c :: line = back := split
      exact both.1
    | cons d front =>
      obtain ⟨rfl, tail⟩ := List.cons.inj split
      exact both.2 front back tail

instance decidableClear : (m : Mode) → (line : Str) → Decidable (Clear m line)
  | _, [] => decidable_of_iff' _ clear_nil
  | m, c :: line =>
    have := decidableClear (step m c).2 line
    decidable_of_iff' _ clear_cons

theorem upTo_cons_none {c : Char} {text : Str} (missing : upTo commentEnd (c :: text) = none) :
    ¬ commentEnd <+: c :: text ∧ (c ≠ '\n' → upTo commentEnd text = none) := by
  rw [upTo] at missing
  split at missing
  · cases missing
  · rename_i absent
    refine ⟨absent, fun line => ?_⟩
    rw [if_neg line] at missing
    exact Option.map_eq_none_iff.mp missing

/-- A comment that is not closed on the line takes the rest of the line, and stays open. -/
theorem run_comment_open {text : Str} (clean : '\n' ∉ text) (missing : upTo commentEnd text = none) :
    run .comment (text ++ ['\n']) = ([], .comment) := by
  induction text with
  | nil => rfl
  | cons c text ih =>
    obtain ⟨line, clean⟩ := not_or.mp (List.mem_cons.not.mp clean)
    obtain ⟨absent, missing⟩ := upTo_cons_none missing
    have rest := ih clean (missing (Ne.symm line))
    cases text with
    | nil => exact (run_comment_cons (by simp) []).trans rest
    | cons d text =>
      have open' : ¬ (c = '*' ∧ d = '/') := by
        intro both
        exact absent (commentEnd_prefix_iff.mpr ⟨both.1, text, by rw [both.2]⟩)
      exact (run_comment_cons open' _).trans rest

/-- A comment that is closed on the line ends where the pattern does. -/
theorem run_comment_closed {text body rest : Str} (found : upTo commentEnd text = some (body, rest)) :
    run .comment (body ++ commentEnd) = ([], .code) := by
  induction text generalizing body with
  | nil =>
    rw [upTo, if_neg (by decide)] at found
    cases found
  | cons c text ih =>
    rw [upTo] at found
    split at found
    · obtain ⟨rfl, _⟩ := Prod.mk.inj (Option.some.inj found)
      rfl
    · rename_i absent
      split at found
      · cases found
      · obtain ⟨⟨body', rest'⟩, inside, same⟩ := Option.map_eq_some_iff.mp found
        obtain ⟨rfl, rfl⟩ := Prod.mk.inj same
        have split := (upTo_sound inside).1
        have later := ih inside
        cases body' with
        | nil =>
          have open' : ¬ (c = '*' ∧ '*' = '/') := fun both => absurd both.2 (by decide)
          exact (run_comment_cons open' _).trans later
        | cons d body' =>
          have open' : ¬ (c = '*' ∧ d = '/') := by
            intro both
            exact absent (commentEnd_prefix_iff.mpr ⟨both.1, body' ++ commentEnd ++ rest', by rw [split, both.2]; rfl⟩)
          exact (run_comment_cons open' _).trans later

theorem run_open_closed {text body rest : Str} (found : upTo commentEnd text = some (body, rest)) (behind : Str) :
    run .code ('/' :: '*' :: (text ++ behind)) =
      (' ' :: (run .code (rest ++ behind)).1, (run .code (rest ++ behind)).2) := by
  rw [run_code_open, (upTo_sound found).1, List.append_assoc, run_append, run_comment_closed found]
  rfl

/-- Inside a literal no character is taken for the start of a comment. -/
theorem cutOpen_removeClosed_literal {m : Mode} (inLiteral : m.InLiteral) {c : Char} {line : Str}
    (clear : Clear m (c :: line)) :
    cutOpen (removeClosed (c :: line)) =
      (c :: (cutOpen (removeClosed line)).1, (cutOpen (removeClosed line)).2) := by
  apply cutOpen_removeClosed_cons
  · exact fun front => clear.here.2 front inLiteral
  · intro slash front
    subst slash
    have stays : (step m '/').2.InLiteral := by
      cases m with
      | literal q => cases q <;> exact trivial
      | escape q => exact trivial
      | _ => cases inLiteral
    exact clear.tail.here.2 front stays

theorem Clear.of_slash {d : Char} {line : Str} (star : d ≠ '*') (slash : d ≠ '/') (clear : Clear .slash (d :: line)) :
    Clear .code (d :: line) := by
  intro front back split
  cases front with
  | nil => exact ⟨fun inLine => inLine, fun _ inLiteral => inLiteral⟩
  | cons e front =>
    obtain rfl := (List.cons.inj split).1
    have same : (run .slash (d :: front)).2 = (run .code (d :: front)).2 := by
      have second : (step .slash d).2 = (fromCode d).2 := by simp only [step, if_neg star, if_neg slash]
      rw [run_cons, run_cons, second]
      rfl
    rw [← same]
    exact clear (d :: front) back split

theorem fromCode_mode {c : Char} (slash : c ≠ '/') : (fromCode c).2 = .code ∨ (fromCode c).2.InLiteral := by
  rw [fromCode, if_neg slash]
  split
  · exact Or.inr trivial
  · split
    · exact Or.inr trivial
    · exact Or.inl rfl

theorem literal_mode {m : Mode} (inLiteral : m.InLiteral) (c : Char) : (step m c).2 = .code ∨ (step m c).2.InLiteral := by
  cases m with
  | literal q =>
    simp only [step]
    split
    · exact Or.inr trivial
    · split
      · exact Or.inl rfl
      · exact Or.inr trivial
  | escape q => exact Or.inr trivial
  | _ => cases inLiteral

theorem solid_blank {blank : Str} (spaces : ∀ c ∈ blank, isSpace c = true) : solid blank = [] := by
  rw [solid, List.filter_eq_nil_iff]
  intro c member
  simp [spaces c member]

theorem Agrees.blank {made : Str × Bool} {wanted : Str × Mode} (agrees : Agrees made wanted) {blank : Str}
    (spaces : ∀ c ∈ blank, isSpace c = true) : Agrees made (blank ++ wanted.1, wanted.2) := by
  refine ⟨?_, agrees.2⟩
  rw [agrees.1, solid_append, solid_blank spaces, List.nil_append]

theorem space_blank : ∀ c ∈ [' '], isSpace c = true := forall_mem_of_all (by decide)

/-- The end of a line that no comment is open on. -/
theorem agrees_nil {m : Mode} (start : m = .code ∨ m.InLiteral) : Agrees (['\n'], false) (run m ['\n']) := by
  rcases start with rfl | inLiteral
  · exact ⟨rfl, by decide⟩
  · cases m with
    | literal q => cases q <;> exact ⟨rfl, by decide⟩
    | escape q => cases q <;> exact ⟨rfl, by decide⟩
    | _ => cases inLiteral

/-- A comment opens. Behind it the line is shorter, if the comment is closed at all. -/
theorem agrees_open {line : Str} (clean : '\n' ∉ line) (clear : Clear .code ('/' :: '*' :: line))
    (behind : ∀ rest : Str, rest.length < line.length → '\n' ∉ rest → Clear .code rest →
      Agrees (cutOpen (removeClosed rest)) (run .code (rest ++ ['\n']))) :
    Agrees (cutOpen (removeClosed ('/' :: '*' :: line))) (run .code ('/' :: '*' :: (line ++ ['\n']))) := by
  cases found : upTo commentEnd line with
  | none =>
    rw [removeClosed_open found, cutOpen_start, run_code_open, run_comment_open clean found]
    exact ⟨rfl, by decide⟩
  | some parts =>
    obtain ⟨body, rest⟩ := parts
    obtain ⟨split, shorter, cleanRest⟩ := upTo_rest found
    have clearRest : Clear .code rest := by
      have whole : '/' :: '*' :: line = '/' :: '*' :: (body ++ commentEnd) ++ rest := by
        rw [split, ← List.append_assoc]
        rfl
      rw [whole] at clear
      have behind := clear.behind
      rwa [run_code_open, run_comment_closed found] at behind
    rw [removeClosed_match found, run_open_closed found]
    exact (behind rest shorter (cleanRest clean) clearRest).blank space_blank

/-- An operator that begins with a slash. -/
theorem cutOpen_removeClosed_operator {d : Char} {line : Str} (star : d ≠ '*') (slash : d ≠ '/') :
    cutOpen (removeClosed ('/' :: d :: line)) =
      ('/' :: (cutOpen (removeClosed (d :: line))).1, (cutOpen (removeClosed (d :: line))).2) := by
  apply cutOpen_removeClosed_cons
  · intro front
    obtain ⟨_, rest, same⟩ := commentStart_prefix_iff.mp front
    exact star (List.cons.inj same).1
  · exact fun _ front => slash (commentStart_prefix_iff.mp front).1

theorem cutOpen_removeClosed_other {c : Char} {line : Str} (slash : c ≠ '/') :
    cutOpen (removeClosed (c :: line)) = (c :: (cutOpen (removeClosed line)).1, (cutOpen (removeClosed line)).2) :=
  cutOpen_removeClosed_cons (fun front => slash (commentStart_prefix_iff.mp front).1) fun same => absurd same slash

/-- A clear line that begins outside a comment. -/
theorem agrees_of_clear {m : Mode} (start : m = .code ∨ m.InLiteral) {line : Str} (clean : '\n' ∉ line) (clear : Clear m line) :
    Agrees (cutOpen (removeClosed line)) (run m (line ++ ['\n'])) := by
  obtain ⟨n, length⟩ : ∃ n, line.length < n := ⟨_, Nat.lt_succ_self _⟩
  induction n generalizing m line with
  | zero => exact absurd length (Nat.not_lt_zero _)
  | succ n ih =>
    cases line with
    | nil => exact agrees_nil start
    | cons c line =>
      have cleanLine : '\n' ∉ line := fun member => clean (List.mem_cons_of_mem c member)
      have short : line.length < n := Nat.lt_of_succ_lt_succ length
      rcases start with rfl | inLiteral
      · by_cases slash : c = '/'
        · subst slash
          cases line with
          | nil => exact ⟨rfl, by decide⟩
          | cons d line =>
            by_cases star : d = '*'
            · subst star
              apply agrees_open (fun member => cleanLine (List.mem_cons_of_mem _ member)) clear
              intro rest shorter cleanRest clearRest
              exact ih (Or.inl rfl) cleanRest clearRest (Nat.lt_trans shorter (Nat.lt_of_succ_lt short))
            · have noLine : d ≠ '/' := by
                intro line
                subst line
                exact (clear ['/', '/'] _ rfl).1 trivial
              rw [cutOpen_removeClosed_operator star noLine, List.cons_append, List.cons_append, run_code_slash star noLine]
              exact (ih (Or.inl rfl) cleanLine (Clear.of_slash star noLine clear.tail) short).cons '/'
        · rw [cutOpen_removeClosed_other slash, List.cons_append, run_code_cons slash]
          exact (ih (fromCode_mode slash) cleanLine clear.tail short).cons c
      · rw [cutOpen_removeClosed_literal inLiteral clear, List.cons_append, run_literal_cons m inLiteral]
        exact (ih (literal_mode inLiteral c) cleanLine clear.tail short).cons c

/-! ### Lines that begin inside a comment -/

theorem behindLast_eq_none {text : Str} : behindLast text = none ↔ ¬ commentEnd <:+: text := by
  induction text with
  | nil => exact iff_of_true rfl (by decide)
  | cons c text ih =>
    rw [behindLast, List.infix_cons_iff, not_or, ← ih]
    cases behindLast text with
    | some rest => simp
    | none => by_cases here : commentEnd <+: c :: text <;> simp [here]

theorem behindLast_append (front rest : Str) :
    behindLast (front ++ (commentEnd ++ rest)) = some ((behindLast rest).getD rest) := by
  induction front with
  | nil =>
    have here : commentEnd <+: '*' :: '/' :: rest := ⟨rest, rfl⟩
    have slash : ¬ commentEnd <+: '/' :: rest := by simp [commentEnd_prefix_iff]
    have split : [] ++ (commentEnd ++ rest) = '*' :: '/' :: rest := rfl
    rw [split, behindLast, behindLast, if_neg slash, if_pos here]
    cases behindLast rest <;> rfl
  | cons c front ih => rw [List.cons_append, behindLast, ih]

theorem upTo_eq_none {text : Str} (clean : '\n' ∉ text) : upTo commentEnd text = none ↔ ¬ commentEnd <:+: text := by
  constructor
  · intro missing inside
    obtain ⟨front, rest, split⟩ := inside
    have found := @upTo_isSome commentEnd front rest fun member =>
      clean (by rw [← split]; exact List.mem_append_left _ (List.mem_append_left _ member))
    rw [split, missing] at found
    cases found
  · exact upTo_none

theorem removeClosed_of_absent {text : Str} (absent : ¬ commentEnd <:+: text) : removeClosed text = text := by
  induction text with
  | nil => rfl
  | cons c text ih =>
    have rest := ih fun inside => absent (inside.trans (List.suffix_cons c text).isInfix)
    by_cases start : commentStart <+: c :: text
    · obtain ⟨rfl, tail, rfl⟩ := commentStart_prefix_iff.mp start
      have missing : upTo commentEnd tail = none :=
        upTo_none fun inside => absent (inside.trans (List.suffix_append ['/', '*'] tail).isInfix)
      have star : ¬ commentStart <+: '*' :: tail := by simp [commentStart_prefix_iff]
      rw [removeClosed_open missing, ← removeClosed_cons star, rest]
    · rw [removeClosed_cons start, rest]

theorem run_code_blank {blank : Str} (spaces : ∀ c ∈ blank, isSpace c = true) : run .code blank = (blank, .code) := by
  induction blank with
  | nil => rfl
  | cons c blank ih =>
    obtain ⟨space, spaces⟩ := List.forall_mem_cons.mp spaces
    have other : ∀ d, isSpace d = false → c ≠ d := by
      intro d solid same
      rw [← same, space] at solid
      cases solid
    have mode : (fromCode c).2 = .code := by
      rw [fromCode, if_neg (other '/' (by decide)), if_neg (other _ (by decide)), if_neg (other _ (by decide))]
    rw [run_code_cons (other '/' (by decide)), mode, ih spaces]

/-- What is behind the last comment of the line. -/
theorem agrees_of_closes {rest : Str} (clean : '\n' ∉ rest) (closes : Closes rest) :
    Agrees (cutOpen ((behindLast rest).getD rest)) (run .code (rest ++ ['\n'])) := by
  induction closes with
  | last absent clear =>
    rw [behindLast_eq_none.mpr absent, Option.getD_none]
    have agrees := agrees_of_clear (Or.inl rfl) clean clear
    rwa [removeClosed_of_absent absent] at agrees
  | @comment blank text body rest spaces found _ ih =>
    obtain ⟨split, _, cleanRest⟩ := upTo_rest found
    have last : behindLast (blank ++ commentStart ++ text) = some ((behindLast rest).getD rest) := by
      rw [split, ← List.append_assoc _ body, behindLast_append]
    have left : run .code (blank ++ commentStart ++ text ++ ['\n']) =
        ((blank ++ [' ']) ++ (run .code (rest ++ ['\n'])).1, (run .code (rest ++ ['\n'])).2) := by
      have opening : commentStart ++ (text ++ ['\n']) = '/' :: '*' :: (text ++ ['\n']) := rfl
      rw [List.append_assoc, List.append_assoc, run_append, run_code_blank spaces, opening, run_open_closed found]
      simp
    rw [last, Option.getD_some, left]
    have cleanText : '\n' ∉ text := fun member => clean (List.mem_append_right _ member)
    exact (ih (cleanRest cleanText)).blank (List.forall_mem_append.mpr ⟨spaces, space_blank⟩)

/-! ### All lines -/

/-- How a line can begin: the character in front of it is a newline. -/
def AtLineStart (m : Mode) : Prop := m ≠ .slash ∧ m ≠ .star

theorem atLineStart_newline (m : Mode) : AtLineStart (run m ['\n']).2 := by
  cases m with
  | literal q => cases q <;> exact ⟨by decide, by decide⟩
  | escape q => exact ⟨Mode.noConfusion, Mode.noConfusion⟩
  | _ => exact ⟨by decide, by decide⟩

theorem atLineStart_behind (m : Mode) (line : Str) : AtLineStart (run m (line ++ ['\n'])).2 := by
  rw [run_append]
  exact atLineStart_newline _

theorem agrees_line {m : Mode} {line : Str} {inCxxComment : Bool} (start : AtLineStart m)
    (sync : inCxxComment = true ↔ m = .comment) (clean : '\n' ∉ line) (ok : LineOk m line) :
    Agrees (rewriteComments inCxxComment line) (run m (line ++ ['\n'])) := by
  by_cases comment : m = .comment
  · have opened := sync.mpr comment
    subst comment opened
    rw [LineOk, if_pos rfl] at ok
    cases found : upTo commentEnd line with
    | none =>
      rw [rewriteComments, if_pos rfl, behindLast_eq_none.mpr ((upTo_eq_none clean).mp found), run_comment_open clean found]
      exact ⟨rfl, iff_of_true rfl rfl⟩
    | some parts =>
      obtain ⟨body, rest⟩ := parts
      obtain ⟨split, _, cleanRest⟩ := upTo_rest found
      have last : behindLast line = some ((behindLast rest).getD rest) := by
        rw [split, behindLast_append]
      have left : run .comment (line ++ ['\n']) = run .code (rest ++ ['\n']) := by
        rw [split, ← List.append_assoc, List.append_assoc, run_append, run_comment_closed found]
        rfl
      rw [rewriteComments, if_pos rfl, last, left]
      exact agrees_of_closes (cleanRest clean) (ok body rest found)
  · have closed : inCxxComment = false := by rw [← Bool.not_eq_true, sync]; exact comment
    subst closed
    rw [LineOk, if_neg comment] at ok
    have mode : m = .code ∨ m.InLiteral := by
      cases m with
      | code => exact Or.inl rfl
      | literal q => exact Or.inr trivial
      | escape q => exact Or.inr trivial
      | slash => exact absurd rfl start.1
      | star => exact absurd rfl start.2
      | comment => exact absurd rfl comment
      | lineComment => exact absurd trivial ok.here.1
      | lineEscape => exact absurd trivial ok.here.1
    exact agrees_of_clear mode clean ok

/-- As long as the lines meet the condition, the stage leaves what the rule leaves, line by line. -/
theorem solid_rewriteLines {m : Mode} {lines : List Str} {inCxxComment : Bool} (start : AtLineStart m)
    (sync : inCxxComment = true ↔ m = .comment) (clean : ∀ line ∈ lines, '\n' ∉ line) (ok : LinesOk m lines) :
    solid (rewriteLines inCxxComment lines) = solid (run m (lines.flatMap (· ++ ['\n']))).1 := by
  induction lines generalizing m inCxxComment with
  | nil => rfl
  | cons line lines ih =>
    obtain ⟨here, later⟩ := List.forall_mem_cons.mp clean
    have agrees := agrees_line start sync here ok.1
    have rest := ih (atLineStart_behind m line) agrees.2 later ok.2
    rw [rewriteLines, List.flatMap_cons, run_append, solid_append, solid_append, agrees.1, rest]

theorem flatMap_splitOn (content : Str) : (content.splitOn '\n').flatMap (· ++ ['\n']) = content ++ ['\n'] := by
  induction content with
  | nil => rfl
  | cons c content ih =>
    rw [List.splitOn_cons_eq_if_modifyHead]
    split
    · rename_i newline
      rw [List.flatMap_cons, ih, eq_of_beq newline]
      rfl
    · obtain ⟨head, parts, split⟩ := List.exists_cons_of_ne_nil (List.splitOn_ne_nil '\n' content)
      rw [split, List.flatMap_cons] at ih
      rw [split, List.modifyHead_cons, List.flatMap_cons, List.cons_append, List.cons_append, ih, List.cons_append]

theorem solid_newline (m : Mode) : solid (run m ['\n']).1 = solid (if m = .slash then ['/'] else []) := by
  cases m with
  | literal q => cases q <;> rfl
  | _ => rfl

/-- The rule leaves the same with a newline at the end, but for the newline. -/
theorem solid_withoutComments (content : Str) :
    solid (withoutComments content) = solid (run .code (content ++ ['\n'])).1 := by
  rw [withoutComments, run_append, solid_append, solid_append, solid_newline]

theorem sameCode_of_linesOk {content : Str} (ok : LinesOk .code (content.splitOn '\n')) : SameCode content := by
  have clean : ∀ line ∈ content.splitOn '\n', '\n' ∉ line := fun line member => (subset_of_mem_splitOn member).2
  have start : AtLineStart .code := ⟨by decide, by decide⟩
  have sync : false = true ↔ Mode.code = .comment := by decide
  rw [SameCode, removeComments, solid_rewriteLines start sync clean ok, flatMap_splitOn, solid_withoutComments]

/-! ### Texts without comments -/

/-- How much of the text is no white space. -/
def weight (text : Str) : Nat := (solid text).length

theorem weight_append (x y : Str) : weight (x ++ y) = weight x + weight y := by
  rw [weight, solid_append, List.length_append, weight, weight]

theorem weight_cons (c : Char) (text : Str) : weight (c :: text) = weight [c] + weight text := by
  rw [← List.singleton_append, weight_append]

theorem removeClosed_weight (text : Str) : removeClosed text = text ∨ weight (removeClosed text) < weight text := by
  obtain ⟨n, length⟩ : ∃ n, text.length < n := ⟨_, Nat.lt_succ_self _⟩
  induction n generalizing text with
  | zero => exact absurd length (Nat.not_lt_zero _)
  | succ n ih =>
    cases text with
    | nil => exact Or.inl rfl
    | cons c text =>
      have short : text.length < n := Nat.lt_of_succ_lt_succ length
      by_cases start : commentStart <+: c :: text
      · obtain ⟨rfl, tail, rfl⟩ := commentStart_prefix_iff.mp start
        cases found : upTo commentEnd tail with
        | none =>
          rw [removeClosed_open found]
          rcases ih tail (Nat.lt_of_succ_lt short) with same | lighter
          · exact Or.inl (by rw [same])
          · rw [weight_cons '/', weight_cons '*', weight_cons '/' ('*' :: tail), weight_cons '*' tail]
            exact Or.inr (by omega)
        | some parts =>
          obtain ⟨body, rest⟩ := parts
          obtain ⟨split, shorter, _⟩ := upTo_rest found
          have most : weight (removeClosed rest) ≤ weight rest := by
            rcases ih rest (Nat.lt_trans shorter (Nat.lt_of_succ_lt short)) with same | lighter
            · rw [same]
            · omega
          have slash : weight ['/'] = 1 := rfl
          rw [removeClosed_match found, weight_cons '/', weight_cons '*', split, weight_append, weight_append]
          exact Or.inr (by omega)
      · rw [removeClosed_cons start, weight_cons c, weight_cons c text]
        rcases ih text short with same | lighter
        · exact Or.inl (by rw [same])
        · exact Or.inr (by omega)

theorem beforeFirst_sound {text front : Str} (found : beforeFirst text = some front) :
    ∃ rest, text = front ++ (commentStart ++ rest) := by
  induction text generalizing front with
  | nil => cases found
  | cons c text ih =>
    rw [beforeFirst] at found
    split at found
    · rename_i here
      obtain rfl := Option.some.inj found
      obtain ⟨rest, split⟩ := here
      exact ⟨rest, split.symm⟩
    · obtain ⟨front', inside, rfl⟩ := Option.map_eq_some_iff.mp found
      obtain ⟨rest, split⟩ := ih inside
      exact ⟨rest, by rw [split]; rfl⟩

theorem beforeFirst_eq_none {text : Str} : beforeFirst text = none ↔ ¬ commentStart <:+: text := by
  induction text with
  | nil => exact iff_of_true rfl (by decide)
  | cons c text ih =>
    rw [beforeFirst, List.infix_cons_iff, not_or]
    by_cases here : commentStart <+: c :: text
    · simp [here]
    · simp [here, ih]

theorem cutOpen_of_absent {text : Str} (absent : ¬ commentStart <:+: text) : cutOpen text = (text ++ ['\n'], false) := by
  rw [cutOpen, beforeFirst_eq_none.mpr absent]

theorem weight_newline (text : Str) : weight (text ++ ['\n']) = weight text := weight_append text ['\n']

theorem weight_cutOpen (text : Str) :
    weight (cutOpen text).1 ≤ weight text ∧ (commentStart <:+: text → weight (cutOpen text).1 < weight text) := by
  cases found : beforeFirst text with
  | none =>
    have absent := beforeFirst_eq_none.mp found
    rw [cutOpen_of_absent absent, weight_newline]
    exact ⟨Nat.le_refl _, fun inside => absurd inside absent⟩
  | some front =>
    obtain ⟨rest, split⟩ := beforeFirst_sound found
    have start : weight commentStart = 2 := rfl
    have lighter : weight (cutOpen text).1 < weight text := by
      rw [cutOpen, found, weight_newline, split, weight_append, weight_append]
      omega
    exact ⟨Nat.le_of_lt lighter, fun _ => lighter⟩

theorem weight_behindLast {text rest : Str} (found : behindLast text = some rest) : weight rest ≤ weight text := by
  induction text with
  | nil => cases found
  | cons c text ih =>
    rw [behindLast] at found
    rw [weight_cons]
    split at found
    · rename_i inside
      have later := ih (inside.trans found)
      omega
    · split at found
      · rename_i here
        obtain rfl := Option.some.inj found
        obtain ⟨_, tail, rfl⟩ := commentEnd_prefix_iff.mp here
        rw [weight_cons '/' tail]
        simp
        omega
      · cases found

/-- A line gets no heavier, and lighter where the marker is found outside a comment. -/
theorem weight_rewriteComments (inCxxComment : Bool) (line : Str) :
    weight (rewriteComments inCxxComment line).1 ≤ weight line ∧
      (inCxxComment = false → commentStart <:+: line → weight (rewriteComments inCxxComment line).1 < weight line) := by
  cases inCxxComment with
  | true =>
    refine ⟨?_, fun same => by cases same⟩
    rw [rewriteComments, if_pos rfl]
    cases found : behindLast line with
    | none => exact Nat.zero_le _
    | some rest => exact Nat.le_trans (weight_cutOpen rest).1 (weight_behindLast found)
  | false =>
    have cut := weight_cutOpen (removeClosed line)
    rw [rewriteComments, if_neg Bool.false_ne_true]
    rcases removeClosed_weight line with same | lighter
    · rw [same] at cut ⊢
      exact ⟨cut.1, fun _ inside => cut.2 inside⟩
    · exact ⟨by omega, fun _ _ => by omega⟩

theorem weight_rewriteLines (inCxxComment : Bool) (lines : List Str) :
    weight (rewriteLines inCxxComment lines) ≤ weight (lines.flatMap (· ++ ['\n'])) := by
  induction lines generalizing inCxxComment with
  | nil => exact Nat.le_refl _
  | cons line lines ih =>
    have here := (weight_rewriteComments inCxxComment line).1
    have later := ih (rewriteComments inCxxComment line).2
    rw [rewriteLines, List.flatMap_cons, weight_append, weight_append, weight_newline]
    omega

theorem removeClosed_of_no_start {text : Str} (absent : ¬ commentStart <:+: text) : removeClosed text = text := by
  induction text with
  | nil => rfl
  | cons c text ih =>
    obtain ⟨here, later⟩ := not_or.mp (List.infix_cons_iff.not.mp absent)
    rw [removeClosed_cons here, ih later]

theorem rewriteComments_of_absent {line : Str} (absent : ¬ commentStart <:+: line) :
    rewriteComments false line = (line ++ ['\n'], false) := by
  rw [rewriteComments, if_neg Bool.false_ne_true, removeClosed_of_no_start absent, cutOpen_of_absent absent]

/-- The stage changes nothing as long as it does not find the marker. -/
theorem rewriteLines_of_absent {lines : List Str} (absent : ∀ line ∈ lines, ¬ commentStart <:+: line) :
    rewriteLines false lines = lines.flatMap (· ++ ['\n']) := by
  induction lines with
  | nil => rfl
  | cons line lines ih =>
    obtain ⟨here, later⟩ := List.forall_mem_cons.mp absent
    rw [rewriteLines, rewriteComments_of_absent here, ih later, List.flatMap_cons]

/-- When it finds the marker, something is lost. -/
theorem weight_rewriteLines_lt {lines : List Str} (found : ∃ line ∈ lines, commentStart <:+: line) :
    weight (rewriteLines false lines) < weight (lines.flatMap (· ++ ['\n'])) := by
  induction lines with
  | nil =>
    obtain ⟨line, member, _⟩ := found
    cases member
  | cons line lines ih =>
    rw [rewriteLines, List.flatMap_cons, weight_append, weight_append, weight_newline]
    by_cases here : commentStart <:+: line
    · have first := (weight_rewriteComments false line).2 rfl here
      have rest := weight_rewriteLines (rewriteComments false line).2 lines
      omega
    · have later : ∃ line ∈ lines, commentStart <:+: line := by
        obtain ⟨other, member, inside⟩ := found
        rcases List.mem_cons.mp member with rfl | member
        · exact absurd inside here
        · exact ⟨other, member, inside⟩
      have rest := ih later
      rw [rewriteComments_of_absent here, weight_newline]
      exact Nat.add_lt_add_left rest _

theorem commentStart_infix_lines (lines : List Str) :
    commentStart <:+: lines.flatMap (· ++ ['\n']) ↔ ∃ line ∈ lines, commentStart <:+: line := by
  have absent : '\n' ∉ commentStart := by decide
  induction lines with
  | nil => simp [commentStart]
  | cons line lines ih =>
    rw [List.flatMap_cons, List.append_assoc, List.singleton_append, infix_append_cons absent, or_congr_right ih]
    simp

theorem commentStart_infix_iff (content : Str) :
    commentStart <:+: content ↔ ∃ line ∈ content.splitOn '\n', commentStart <:+: line := by
  have absent : '\n' ∉ commentStart := by decide
  have empty : ¬ commentStart <:+: [] := by decide
  rw [← commentStart_infix_lines, flatMap_splitOn, infix_append_cons absent, or_iff_left empty]

/-- A text without comments passes unchanged if and only if there is no `/*` in it at all. -/
theorem sameCode_iff_of_commentFree {content : Str} (free : withoutComments content = content) :
    SameCode content ↔ ¬ commentStart <:+: content := by
  rw [SameCode, free, removeComments]
  constructor
  · intro same inside
    have lighter := weight_rewriteLines_lt ((commentStart_infix_iff content).mp inside)
    rw [flatMap_splitOn, weight_newline, weight, weight, same] at lighter
    exact absurd lighter (Nat.lt_irrefl _)
  · intro absent
    have each : ∀ line ∈ content.splitOn '\n', ¬ commentStart <:+: line := fun line member inside =>
      absent ((commentStart_infix_iff content).mpr ⟨line, member, inside⟩)
    rw [rewriteLines_of_absent each, flatMap_splitOn, solid_append]
    exact List.append_nil _

/-- The stage leaves what the comment rule of C leaves if its lines meet the condition. On texts without comments
it does so if and only if there is no `/*` in the text. -/
theorem removeComments_correct (content : Str) :
    (LinesOk .code (content.splitOn '\n') → SameCode content) ∧
      (withoutComments content = content → (SameCode content ↔ ¬ commentStart <:+: content)) :=
  ⟨sameCode_of_linesOk, sameCode_iff_of_commentFree⟩

/-- A comment of two lines. -/
def twoLines : Str := "int a; /* b\nc */ int d;".toList

theorem removeComments_correct_twoLines : SameCode twoLines := by
  have lines : twoLines.splitOn '\n' = ["int a; /* b".toList, "c */ int d;".toList] := by decide
  have second : LineOk .comment "c */ int d;".toList := by
    intro body rest found
    obtain ⟨_, rfl⟩ := Prod.mk.inj (Option.some.inj (found.symm.trans (rfl : _ = some ("c ".toList, " int d;".toList))))
    exact .last (by decide) (by decide)
  have ok : LinesOk .code (twoLines.splitOn '\n') := by
    rw [lines]
    exact ⟨(by decide : Clear .code "int a; /* b".toList), second, trivial⟩
  exact (removeComments_correct twoLines).1 ok

/-- Mistakes can make up for each other: of the second line the stage loses the first `y`, which is code, and keeps
the other one, which is not. -/
example : SameCode "/*\n*/ y /*/ y\n/* z */".toList := by
  rw [SameCode]
  decide

/-- A string with the marker in it, and code behind it. -/
def markerInString : Str := "char *s = \"/*\";\nint x;".toList

theorem markerInString_lost : ¬ SameCode markerInString := by
  have left : removeComments markerInString = "char *s = \"\n".toList := by decide
  have wanted : withoutComments markerInString = markerInString := by decide
  rw [SameCode, left, wanted]
  decide

end Tbf
