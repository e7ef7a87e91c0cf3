import Tbf.AttributeSources

/-!
# The lines of a source

The lines that the stage reads are the lines that the pieces of the source make up.
-/

namespace Tbf.Attributes
open Text Deletion Nesting

/-! ### Marks -/

theorem ofCode_append (x y : Str) : ofCode (x ++ y) = ofCode x ++ ofCode y := List.map_append

theorem ofSpecifier_append (x y : Str) : ofSpecifier (x ++ y) = ofSpecifier x ++ ofSpecifier y := List.map_append

theorem ofSpecifier_cons (c : Char) (x : Str) : ofSpecifier (c :: x) = ⟨c, !isSpace c⟩ :: ofSpecifier x := rfl

theorem ofCode_chars (x : Str) : (ofCode x).map Marked.char = x := by
  rw [ofCode, List.map_map]
  exact List.map_id x

theorem ofSpecifier_chars (x : Str) : (ofSpecifier x).map Marked.char = x := by
  rw [ofSpecifier, List.map_map]
  exact List.map_id x

theorem Clean.ofCode {x : Str} (clean : Clean x) : Clean ((Attributes.ofCode x).map Marked.char) := by
  rwa [ofCode_chars]

theorem Clean.ofSpecifier {x : Str} (clean : Clean x) : Clean ((Attributes.ofSpecifier x).map Marked.char) := by
  rwa [ofSpecifier_chars]

theorem skipSpace_ofCode (x : Str) : skipSpace Marked.char (ofCode x) = ofCode (x.dropWhile isSpace) := by
  rw [ofCode, skipSpace, List.dropWhile_map]
  rfl

theorem delete_simple_ofSpecifier (x : Str) :
    delete (simpleSpecifier Marked.char) (ofSpecifier x) = ofSpecifier (delete (simpleSpecifier id) x) :=
  delete_map (simpleMatch_map fun _ => rfl) x

theorem Piece.marked_chars (p : Piece) : p.marked.map Marked.char = p.text := by
  cases p with
  | code text => exact ofCode_chars text
  | newline => rfl
  | specifier s => exact ofSpecifier_chars s.text

theorem Source.marked_chars (src : Source) : src.marked.map Marked.char = src.text := by
  rw [Source.marked, List.map_flatMap, Source.text]
  exact List.flatMap_congr fun p _ => p.marked_chars

/-- Without the marks, what is left is the result of the stage. -/
theorem Source.kept_chars (src : Source) : src.kept.map Marked.char = removeAttributes src.text := by
  have same : ∀ c : Marked, id c.char = c.char := fun _ => rfl
  have stage := removeAttributesOf_map same ⟨'\n', false⟩ src.marked
  rw [Source.marked_chars] at stage
  exact stage.symm

/-! ### One specifier -/

namespace Specifier

variable (s : Specifier)

/-- The specifier once the specifiers inside it that have nothing but names have been taken out. -/
def reduced : Str := attributeWord ++ (s.gap ++ ("((".toList ++ (delete (simpleSpecifier id) s.body ++ close)))

/-- Behind its first character nothing begins up to the body. -/
theorem clean_front : Clean (attributeWord.tail ++ (s.gap ++ "((".toList)) := by
  have others : ∀ c ∈ s.gap ++ "((".toList, isIdentifierChar c = false := by
    have inParens : ∀ c ∈ "((".toList, isIdentifierChar c = false := forall_mem_of_all (by decide)
    exact List.forall_mem_append.mpr ⟨fun c member => isIdentifierChar_of_isSpace (s.spaces c member), inParens⟩
  refine ⟨fun found => ?_, fun c last => ?_⟩
  · have border : ∀ c ∈ (s.gap ++ "((".toList).head?, isIdentifierChar c = false :=
      fun c first => others c (List.mem_of_head? first)
    rcases Pattern.infix_append attributeWord_chars border found with inWord | behind
    · exact absurd inWord.length_le (by decide)
    · exact (clean_of_others others).1 behind
  · have solid : s.gap ++ "((".toList ≠ [] := by simp
    rw [List.getLast?_append_of_ne_nil _ solid] at last
    exact others c (List.mem_of_getLast? last)

variable {s}

/-- Where the pattern for names matches at the beginning of a specifier, it matches the specifier. -/
theorem names_of_match {rest head behind : Str} (simple : SimpleHead head)
    (split : s.text ++ rest = head ++ (close ++ behind)) :
    isNameList s.body = true ∧ behind = rest := by
  obtain ⟨gap, names, rfl, spaces, listed⟩ := simple
  simp only [Specifier.text, List.append_assoc] at split
  have behindWord := List.append_cancel_left split
  have border : ∀ text : Str, ∀ c ∈ ("((".toList ++ text).head?, isSpace c = false := by
    intro text c first
    obtain rfl := Option.some.inj first
    decide
  obtain ⟨-, behindGap⟩ := Pattern.run_unique s.spaces spaces (border _) (border _) behindWord
  have inner := List.append_cancel_left behindGap
  have noParen : ∀ c ∈ names, c ≠ ')' := fun c member => (quiet_of_isNameList listed c member).1.1
  rcases List.append_eq_append_iff.mp inner with ⟨between, rfl, same⟩ | ⟨between, body, same⟩
  · cases between with
    | nil => exact ⟨by simpa using listed, (List.append_cancel_left same).symm⟩
    | cons c between =>
      have paren : ')' = c := (List.cons.inj same).1
      exact absurd paren.symm (noParen c (by simp))
  · cases between with
    | nil =>
      rw [List.append_nil] at body
      exact ⟨body ▸ listed, List.append_cancel_left same⟩
    | cons c between =>
      have paren : ')' = c := (List.cons.inj same).1
      have balanced := s.balanced
      rw [body, ← paren] at balanced
      exact absurd balanced (Balanced.not_close (quiet_of_isNameList listed))

theorem delete_simple (listed : isNameList s.body = true) (rest : List Marked) :
    delete (simpleSpecifier Marked.char) (ofSpecifier s.text ++ rest) =
      delete (simpleSpecifier Marked.char) (skipSpace Marked.char rest) := by
  have matched : simpleMatch Marked.char (ofSpecifier s.text ++ rest) = some (skipSpace Marked.char rest) := by
    refine simpleMatch_eq_some.mpr ⟨ofSpecifier (attributeWord ++ (s.gap ++ ("((".toList ++ s.body))),
      ofSpecifier close, rest, ?_, ⟨s.gap, s.body, ofSpecifier_chars _, s.spaces, listed⟩, ofSpecifier_chars _, rfl⟩
    simp only [Specifier.text, ofSpecifier_append, List.append_assoc]
  exact delete_match matched

theorem delete_other (noNames : isNameList s.body = false) (rest : List Marked) :
    delete (simpleSpecifier Marked.char) (ofSpecifier s.text ++ rest) =
      ofSpecifier s.reduced ++ delete (simpleSpecifier Marked.char) rest := by
  have missing : simpleMatch Marked.char (ofSpecifier s.text ++ rest) = none := by
    cases found : simpleMatch Marked.char (ofSpecifier s.text ++ rest) with
    | none => rfl
    | some behind =>
      obtain ⟨head, closing, others, split, simple, isClose, _⟩ := simpleMatch_eq_some.mp found
      have chars := congrArg (List.map Marked.char) split
      rw [List.map_append, List.map_append, List.map_append, ofSpecifier_chars, isClose] at chars
      have listed := (names_of_match simple chars).1
      rw [noNames] at listed
      cases listed
  have body : Balanced ([] ++ (ofSpecifier s.body).map Marked.char) := by
    rw [ofSpecifier_chars]
    exact s.balanced
  have first : attributeWord = '_' :: attributeWord.tail := rfl
  have whole : ofSpecifier s.text ++ rest =
      ⟨'_', !isSpace '_'⟩ :: (ofSpecifier (attributeWord.tail ++ (s.gap ++ "((".toList)) ++
        (ofSpecifier s.body ++ (ofSpecifier close ++ rest))) := by
    rw [Specifier.text, first]
    simp only [ofSpecifier_cons, ofSpecifier_append, List.append_assoc, List.cons_append, List.tail_cons]
  rw [whole] at missing ⊢
  rw [delete_cons missing, s.clean_front.ofSpecifier.delete simpleSpecifier_begins,
    delete_inside body (ofSpecifier_chars close), delete_simple_ofSpecifier, reduced, first]
  simp only [ofSpecifier_cons, ofSpecifier_append, List.append_assoc, List.cons_append, List.tail_cons]

end Specifier

/-! ### The lines, marked -/

def specifiersMarked (specifiers : List (Specifier × Str)) : List Marked :=
  specifiers.flatMap fun x => ofSpecifier x.1.text ++ ofCode x.2

def Parts.marked (p : Parts) : List Marked :=
  ofSpecifier p.tail ++ (ofCode p.code ++ (specifiersMarked p.specifiers ++ ofSpecifier p.head))

def Line.marked : Line → List Marked
  | .inside text => ofSpecifier text
  | .parts p => p.marked

section Lines

variable {α : Type} {char : α → Char}

theorem linesOf_newline {c : α} (isNewline : char c = '\n') (newline : α) (text : List α) :
    linesOf char newline (c :: text) = [newline] :: linesOf char newline text := by
  rw [linesOf, List.splitOnP_cons_eq_if_modifyHead, if_pos (by simpa using isNewline)]
  rfl

theorem linesOf_append {front : List α} (line : '\n' ∉ front.map char) (newline : α) (text : List α) :
    linesOf char newline (front ++ text) = (linesOf char newline text).modifyHead (front ++ ·) := by
  induction front with
  | nil =>
    rw [List.nil_append]
    cases linesOf char newline text <;> rfl
  | cons c front ih =>
    obtain ⟨noLine, line⟩ := not_or.mp (List.mem_cons.not.mp line)
    have other : ¬ (char c == '\n') = true := by simpa using Ne.symm noLine
    have later := ih line
    rw [linesOf, linesOf] at later
    rw [linesOf, linesOf, List.cons_append, List.splitOnP_cons_eq_if_modifyHead, if_neg other]
    cases split : (front ++ text).splitOnP fun c => char c == '\n' with
    | nil => exact absurd split (List.splitOnP_ne_nil _ _)
    | cons first others =>
      rw [split] at later
      rw [List.modifyHead_cons, List.map_cons, List.cons_append]
      cases rest : (text.splitOnP fun c => char c == '\n').map (· ++ [newline]) with
      | nil => exact absurd (List.map_eq_nil_iff.mp rest) (List.splitOnP_ne_nil _ _)
      | cons first' others' =>
        rw [rest, List.map_cons, List.modifyHead_cons] at later
        obtain ⟨here, same⟩ := List.cons.inj later
        rw [List.modifyHead_cons, here, same, List.cons_append]

end Lines

theorem piecesLines_tail (pieces : List Piece) : (piecesLines pieces).1.tail = [] := by
  induction pieces with
  | nil => rfl
  | cons p pieces ih =>
    cases p with
    | code text => exact ih
    | newline => rfl
    | specifier s =>
      rw [piecesLines]
      split <;> rfl

theorem Parts.marked_tail {p : Parts} (start : p.tail = []) (text : Str) :
    ({ p with tail := text } : Parts).marked = ofSpecifier text ++ p.marked := by
  rw [Parts.marked, Parts.marked, start]
  rfl

theorem Parts.marked_code {p : Parts} (start : p.tail = []) (text : Str) :
    ({ p with code := text ++ p.code } : Parts).marked = ofCode text ++ p.marked := by
  rw [Parts.marked, Parts.marked, start, ofCode_append, List.append_assoc]
  rfl

theorem linesOf_ofSpecifier {text : Str} (line : '\n' ∉ text) (behind : List Marked) :
    linesOf Marked.char ⟨'\n', false⟩ (ofSpecifier text ++ behind) =
      (linesOf Marked.char ⟨'\n', false⟩ behind).modifyHead (ofSpecifier text ++ ·) := by
  apply linesOf_append
  rwa [ofSpecifier_chars]

/-- A specifier that goes on over the end of the line. -/
theorem linesOf_cut {text next : Str} {rest : List Str} (line : '\n' ∉ text) (behind : List Marked) :
    linesOf Marked.char ⟨'\n', false⟩ (ofSpecifier (['\n'].intercalate (text :: next :: rest)) ++ behind) =
      ofSpecifier (text ++ ['\n']) ::
        linesOf Marked.char ⟨'\n', false⟩ (ofSpecifier (['\n'].intercalate (next :: rest)) ++ behind) := by
  have isNewline : Marked.char ⟨'\n', !isSpace '\n'⟩ = '\n' := rfl
  rw [List.intercalate_cons_cons, List.append_assoc, ofSpecifier_append, List.append_assoc, linesOf_ofSpecifier line,
    List.singleton_append, ofSpecifier_cons, List.cons_append, linesOf_newline isNewline, List.modifyHead_cons,
    ofSpecifier_append]
  rfl

theorem linesOf_continued {first : Parts} {others : List Line} {behind : List Marked} (start : first.tail = [])
    (lines : linesOf Marked.char ⟨'\n', false⟩ behind = (Line.parts first :: others).map Line.marked) {text : Str}
    {rest : List Str} (clean : ∀ part ∈ text :: rest, '\n' ∉ part) :
    linesOf Marked.char ⟨'\n', false⟩ (ofSpecifier (['\n'].intercalate (text :: rest)) ++ behind) =
      (continued first others text rest).map Line.marked := by
  induction rest generalizing text with
  | nil =>
    rw [List.intercalate_singleton, linesOf_ofSpecifier (clean text List.mem_cons_self), lines, continued, List.map_cons,
      List.map_cons, List.modifyHead_cons]
    congr 1
    exact (Parts.marked_tail start text).symm
  | cons next rest ih =>
    obtain ⟨here, later⟩ := List.forall_mem_cons.mp clean
    rw [linesOf_cut here, ih later, continued, List.map_cons, Line.marked]

theorem linesOf_pieces {pieces : List Piece} (code : ∀ text, .code text ∈ pieces → '\n' ∉ text) :
    linesOf Marked.char ⟨'\n', false⟩ (pieces.flatMap Piece.marked) =
      (Line.parts (piecesLines pieces).1 :: (piecesLines pieces).2).map Line.marked := by
  induction pieces with
  | nil => rfl
  | cons p pieces ih =>
    have lines := ih fun text member => code text (List.mem_cons_of_mem p member)
    have start := piecesLines_tail pieces
    rw [List.flatMap_cons]
    cases p with
    | code text =>
      have line : '\n' ∉ (ofCode text).map Marked.char := by
        rw [ofCode_chars]
        exact code text List.mem_cons_self
      rw [Piece.marked, linesOf_append line, lines, List.map_cons, List.modifyHead_cons]
      exact congrArg (· :: _) (Parts.marked_code start text).symm
    | newline =>
      have isNewline : Marked.char ⟨'\n', false⟩ = '\n' := rfl
      show linesOf Marked.char _ (⟨'\n', false⟩ :: pieces.flatMap Piece.marked) = _
      rw [linesOf_newline isNewline, lines]
      rfl
    | specifier s =>
      have whole : ['\n'].intercalate (s.text.splitOn '\n') = s.text := List.intercalate_splitOn '\n'
      have clean : ∀ part ∈ s.text.splitOn '\n', '\n' ∉ part := fun part member => (subset_of_mem_splitOn member).2
      rw [Piece.marked, piecesLines]
      split
      · rename_i head next rest split
        rw [split] at whole clean
        obtain ⟨noLine, later⟩ := List.forall_mem_cons.mp clean
        rw [← whole, linesOf_cut noLine, linesOf_continued start lines later]
        rfl
      · rename_i single
        have line : '\n' ∉ s.text := by
          intro member
          obtain ⟨head, rest, split⟩ := List.append_of_mem member
          have parts : s.text.splitOn '\n' = head.splitOn '\n' ++ rest.splitOn '\n' := by
            rw [split, List.splitOn_append_cons_self]
          obtain ⟨a, as, left⟩ := List.exists_cons_of_ne_nil (List.splitOn_ne_nil '\n' head)
          obtain ⟨b, bs, right⟩ := List.exists_cons_of_ne_nil (List.splitOn_ne_nil '\n' rest)
          rw [left, right] at parts
          cases as with
          | nil => exact single a b bs parts
          | cons c cs => exact single a c _ parts
        rw [linesOf_ofSpecifier line, lines, List.map_cons, List.modifyHead_cons, List.map_cons]
        congr 1
        simp only [Line.marked, Parts.marked, start, specifiersMarked, List.flatMap_cons, List.append_assoc]
        rfl

theorem Source.linesOf_marked (src : Source) :
    linesOf Marked.char ⟨'\n', false⟩ src.marked = src.lines.map Line.marked :=
  linesOf_pieces fun text member => (src.code text member).1

/-- A line ends with its newline, and there is no other on it. -/
theorem Source.one_newline (src : Source) {l : Line} (member : l ∈ src.lines) :
    '\n' ∉ (l.marked.map Marked.char).dropLast := by
  have inLines : l.marked ∈ linesOf Marked.char ⟨'\n', false⟩ src.marked := by
    rw [src.linesOf_marked]
    exact List.mem_map_of_mem member
  obtain ⟨text, inSplit, same⟩ := List.mem_map.mp inLines
  rw [← same, List.map_append, List.map_singleton, List.dropLast_concat]
  intro newline
  obtain ⟨c, inText, isNewline⟩ := List.mem_map.mp newline
  have other := eq_false_of_mem_splitOnP inSplit c inText
  rw [isNewline] at other
  cases other

/-! ### Specifiers that go on -/

/-- The beginning of a specifier, up to the end of the line. -/
structure HeadCut (text : Str) : Prop where
  begins : attributeWord <+: text
  clean : Clean text.tail
  noNames : simpleMatch id text = none
  ends : ∃ line, text = line ++ ['\n']

structure Parts.Regular (p : Parts) : Prop where
  tail : Clean p.tail
  closes : p.tail ≠ [] → close <:+ p.tail
  code : Clean p.code
  codes : ∀ x ∈ p.specifiers, Clean x.2
  head : p.head ≠ [] → HeadCut p.head

/-- A line goes on with a specifier exactly where the line in front of it has left one open. -/
def Follow : Bool → List Line → Prop
  | isOpen, [] => isOpen = false
  | isOpen, .inside text :: lines => isOpen = true ∧ Clean text ∧ Follow true lines
  | isOpen, .parts p :: lines => (p.tail = [] ↔ isOpen = false) ∧ p.Regular ∧ Follow (decide (p.head ≠ [])) lines

theorem clean_newline {text : Str} (absent : ¬ attributeWord <:+: text) : Clean (text ++ ['\n']) := by
  refine ⟨fun found => ?_, fun c last => ?_⟩
  · have border : ∀ c ∈ ['\n'].head?, isIdentifierChar c = false := forall_mem_option_of_all (by decide)
    rcases Pattern.infix_append attributeWord_chars border found with inText | inLine
    · exact absent inText
    · exact absurd inLine (by decide)
  · rw [List.getLast?_concat] at last
    obtain rfl := Option.some.inj last
    decide

theorem close_suffix_of_append {x y : Str} (found : close <:+ x ++ '\n' :: y) : close <:+ y := by
  rcases List.suffix_or_suffix_of_suffix found (List.suffix_append x _) with short | long
  · rcases List.suffix_cons_iff.mp short with same | behind
    · cases same
    · exact behind
  · exact absurd (long.subset List.mem_cons_self) (by decide)

/-- Behind its first character, a specifier with no other one inside is clean. -/
theorem Specifier.clean_tail {s : Specifier} (alone : ¬ attributeWord <:+: s.body) : Clean s.text.tail := by
  have whole : s.text.tail = (attributeWord.tail ++ (s.gap ++ "((".toList)) ++ (s.body ++ close) := by
    simp only [Specifier.text, List.append_assoc]
    rfl
  have behind : Clean (s.body ++ close) := by
    refine ⟨fun found => ?_, fun c last => ?_⟩
    · have border : ∀ c ∈ close.head?, isIdentifierChar c = false := forall_mem_option_of_all (by decide)
      rcases Pattern.infix_append attributeWord_chars border found with inBody | inClose
      · exact alone inBody
      · exact absurd inClose (by decide)
    · rw [List.getLast?_append_of_ne_nil _ (by decide)] at last
      obtain rfl := Option.some.inj last
      decide
  rw [whole]
  exact s.clean_front.append behind

theorem Specifier.close_suffix (s : Specifier) : close <:+ s.text :=
  ⟨attributeWord ++ (s.gap ++ ("((".toList ++ s.body)), by simp only [Specifier.text, List.append_assoc]⟩

theorem Specifier.headCut {s : Specifier} (alone : ¬ attributeWord <:+: s.body) {head behind : Str}
    (cut : s.text = head ++ '\n' :: behind) : HeadCut (head ++ ['\n']) := by
  have begins : attributeWord <+: head := by
    have letters : ∀ c ∈ attributeWord, (c != '\n') = true := forall_mem_of_all (by decide)
    have border : ∀ c ∈ ('\n' :: behind).head?, (c != '\n') = false := by
      intro c first
      obtain rfl := Option.some.inj first
      rfl
    apply Pattern.prefix_in_run letters border
    rw [← cut, Specifier.text]
    exact List.prefix_append _ _
  refine ⟨begins.trans (List.prefix_append _ _), ?_, ?_, head, rfl⟩
  · obtain ⟨rest, rfl⟩ := begins
    apply clean_newline
    intro found
    have inside : attributeWord.tail ++ rest <:+: s.text.tail := by
      rw [cut]
      exact (List.prefix_append (attributeWord.tail ++ rest) ('\n' :: behind)).isInfix
    exact (clean_tail alone).1 (found.trans inside)
  · cases found : simpleMatch id (head ++ ['\n']) with
    | none => rfl
    | some others =>
      obtain ⟨front, closing, rest, split, simple, isClose, _⟩ := simpleMatch_eq_some.mp found
      rw [List.map_id] at simple isClose
      have longer : s.text ++ [] = front ++ (close ++ (rest ++ behind)) := by
        rw [List.append_nil, cut, ← isClose, List.append_cons, split]
        simp only [List.append_assoc]
      obtain ⟨rfl, rfl⟩ := List.append_eq_nil_iff.mp (names_of_match simple longer).2
      rw [List.append_nil] at split
      have last := congrArg List.getLast? split
      rw [List.getLast?_concat, isClose, List.getLast?_append_of_ne_nil _ (by decide)] at last
      cases last

theorem follow_continued {first : Parts} {others : List Line} (regular : first.Regular)
    (later : Follow (decide (first.head ≠ [])) others) {text : Str} {rest : List Str}
    (clean : Clean (['\n'].intercalate (text :: rest))) (closes : close <:+ ['\n'].intercalate (text :: rest)) :
    Follow true (continued first others text rest) := by
  induction rest generalizing text with
  | nil =>
    rw [List.intercalate_singleton] at clean closes
    have solid : text ≠ [] := by
      rintro rfl
      exact absurd (List.suffix_nil.mp closes) (by decide)
    exact ⟨by simp [solid], ⟨clean, fun _ => closes, regular.code, regular.codes, regular.head⟩, later⟩
  | cons next rest ih =>
    have split : ['\n'].intercalate (text :: next :: rest) = text ++ '\n' :: ['\n'].intercalate (next :: rest) := by
      rw [List.intercalate_cons_cons, List.append_assoc]
      rfl
    rw [split] at clean closes
    refine ⟨rfl, clean_newline fun found => ?_, ih (clean.suffix ?_) (close_suffix_of_append closes)⟩
    · exact clean.1 (found.trans (List.prefix_append text _).isInfix)
    · exact (List.suffix_cons '\n' _).trans (List.suffix_append text _)

/-- A piece of code goes to the end of the line, or a specifier follows. -/
theorem clean_code {text : Str} {pieces : List Piece} (absent : ¬ attributeWord <:+: text)
    (chain : (Piece.code text :: pieces).IsChain Piece.Follows) : Clean (text ++ (piecesLines pieces).1.code) := by
  cases pieces with
  | nil => exact clean_newline absent
  | cons p pieces =>
    have follows := (List.isChain_cons_cons.mp chain).1
    cases p with
    | code other => exact follows.elim
    | newline => exact clean_newline absent
    | specifier s =>
      have nothing : (piecesLines (.specifier s :: pieces)).1.code = [] := by
        rw [piecesLines]
        split <;> rfl
      rw [nothing, List.append_nil]
      exact ⟨absent, follows⟩

theorem follow_pieces {pieces : List Piece} (code : ∀ text, .code text ∈ pieces → ¬ attributeWord <:+: text)
    (chain : pieces.IsChain Piece.Follows)
    (plain : ∀ s, .specifier s ∈ pieces → '\n' ∈ s.text → ¬ attributeWord <:+: s.body) :
    (piecesLines pieces).1.Regular ∧ Follow (decide ((piecesLines pieces).1.head ≠ [])) (piecesLines pieces).2 := by
  have newlineClean : Clean ([] ++ ['\n']) := clean_newline (by decide)
  have newline : Parts.Regular ⟨[], ['\n'], [], []⟩ :=
    ⟨clean_nil, fun some => absurd rfl some, newlineClean, by simp, fun some => absurd rfl some⟩
  induction pieces with
  | nil => exact ⟨newline, rfl⟩
  | cons p pieces ih =>
    obtain ⟨regular, later⟩ := ih (fun text member => code text (List.mem_cons_of_mem p member)) chain.tail
      fun s member => plain s (List.mem_cons_of_mem p member)
    have start := piecesLines_tail pieces
    cases p with
    | code text =>
      have clean := clean_code (code text List.mem_cons_self) chain
      exact ⟨⟨regular.tail, regular.closes, clean, regular.codes, regular.head⟩, later⟩
    | newline => exact ⟨newline, iff_of_true start (decide_eq_false fun some => some rfl), regular, later⟩
    | specifier s =>
      rw [piecesLines]
      split
      · rename_i head next rest split
        have whole : s.text = head ++ '\n' :: ['\n'].intercalate (next :: rest) := by
          have joined : ['\n'].intercalate (s.text.splitOn '\n') = s.text := List.intercalate_splitOn '\n'
          rw [← joined, split, List.intercalate_cons_cons, List.append_assoc]
          rfl
        have alone := plain s List.mem_cons_self (by rw [whole]; simp)
        have cut := s.headCut alone whole
        have inside : ['\n'].intercalate (next :: rest) <:+ s.text.tail := by
          rw [whole]
          cases head with
          | nil => exact List.suffix_refl _
          | cons c head => exact (List.suffix_cons '\n' _).trans (List.suffix_append head _)
        refine ⟨⟨clean_nil, fun some => absurd rfl some, clean_nil, by simp, fun _ => cut⟩, ?_⟩
        have closes := s.close_suffix
        rw [whole] at closes
        simpa using follow_continued regular later ((s.clean_tail alone).suffix inside) (close_suffix_of_append closes)
      · exact ⟨⟨clean_nil, fun some => absurd rfl some, clean_nil, List.forall_mem_cons.mpr ⟨regular.code, regular.codes⟩,
          regular.head⟩, later⟩

theorem Source.Plain.follow {src : Source} (plain : src.Plain) : Follow false src.lines := by
  obtain ⟨regular, later⟩ := follow_pieces (fun text member => (src.code text member).2) src.apart plain
  exact ⟨by simp [piecesLines_tail], regular, later⟩

/-! ### The code of a line -/

def Marked.isCode (c : Marked) : Bool := !c.inSpecifier && !isSpace c.char

theorem countP_ofCode (x : Str) : (ofCode x).countP Marked.isCode = x.countP (!isSpace ·) := by
  rw [ofCode, List.countP_map]
  rfl

theorem countP_ofSpecifier (x : Str) : (ofSpecifier x).countP Marked.isCode = 0 := by
  rw [List.countP_eq_zero]
  intro c member
  obtain ⟨d, _, rfl⟩ := List.mem_map.mp member
  cases space : isSpace d <;> simp [Marked.isCode, space]

def Parts.codeTokens (p : Parts) : List Str :=
  tokens isIdentifierChar p.code ++ p.specifiers.flatMap fun x => tokens isIdentifierChar x.2

def Line.codeTokens : Line → List Str
  | .inside _ => []
  | .parts p => p.codeTokens

theorem countP_specifiersMarked (specifiers : List (Specifier × Str)) :
    (specifiersMarked specifiers).countP Marked.isCode =
      (specifiers.flatMap fun x => tokens isIdentifierChar x.2).flatten.countP (!isSpace ·) := by
  induction specifiers with
  | nil => rfl
  | cons x specifiers ih =>
    rw [specifiersMarked] at ih
    rw [specifiersMarked, List.flatMap_cons, List.flatMap_cons, List.flatten_append, List.countP_append,
      List.countP_append, List.countP_append, countP_ofSpecifier, countP_ofCode, countP_tokens, ih, Nat.zero_add]

theorem Line.countP_marked (l : Line) : l.marked.countP Marked.isCode = l.codeTokens.flatten.countP (!isSpace ·) := by
  cases l with
  | inside text => exact countP_ofSpecifier text
  | parts p =>
    rw [Line.marked, Parts.marked, Line.codeTokens, Parts.codeTokens, List.flatten_append]
    simp only [List.countP_append, countP_ofSpecifier, countP_ofCode, countP_specifiersMarked, countP_tokens]
    rw [Nat.zero_add, Nat.add_zero]

theorem tokens_space {c : Char} (space : isSpace c = true) (x : Str) :
    tokens isIdentifierChar (c :: x) = tokens isIdentifierChar x := by
  have solid := tokens_dropWhile (fun _ => isIdentifierChar_of_isSpace) (c :: x)
  rw [List.dropWhile_cons_of_pos space, tokens_dropWhile fun _ => isIdentifierChar_of_isSpace] at solid
  exact solid.symm

theorem codeTokens_continued {first : Parts} {others : List Line} (text : Str) (rest : List Str) :
    (continued first others text rest).flatMap Line.codeTokens = first.codeTokens ++ others.flatMap Line.codeTokens := by
  induction rest generalizing text with
  | nil => rfl
  | cons next rest ih => exact ih next

theorem code_border {text : Str} {pieces : List Piece} (chain : (Piece.code text :: pieces).IsChain Piece.Follows) :
    (∀ c ∈ (pieces.flatMap Piece.codeText).head?, isIdentifierChar c = false) ∧
      ∀ c ∈ (piecesLines pieces).1.code.head?, isIdentifierChar c = false := by
  have newline : ∀ c ∈ some '\n', isIdentifierChar c = false := forall_mem_option_of_all (by decide)
  cases pieces with
  | nil => exact ⟨by simp, newline⟩
  | cons p pieces =>
    cases p with
    | code other => exact (List.isChain_cons_cons.mp chain).1.elim
    | newline => exact ⟨newline, newline⟩
    | specifier s =>
      refine ⟨?_, ?_⟩
      · have blank : ∀ c ∈ some ' ', isIdentifierChar c = false := forall_mem_option_of_all (by decide)
        exact blank
      · rw [piecesLines]
        split <;> simp

theorem tokens_pieces {pieces : List Piece} (chain : pieces.IsChain Piece.Follows) :
    tokens isIdentifierChar (pieces.flatMap Piece.codeText) =
      (piecesLines pieces).1.codeTokens ++ (piecesLines pieces).2.flatMap Line.codeTokens := by
  induction pieces with
  | nil => rfl
  | cons p pieces ih =>
    have later := ih chain.tail
    rw [List.flatMap_cons]
    cases p with
    | code text =>
      obtain ⟨border, border'⟩ := code_border chain
      show tokens isIdentifierChar (text ++ _) = (tokens isIdentifierChar (text ++ (piecesLines pieces).1.code) ++ _) ++ _
      rw [tokens_append (Or.inr border), tokens_append (Or.inr border'), later, Parts.codeTokens]
      simp only [List.append_assoc]
      rfl
    | newline =>
      show tokens isIdentifierChar ('\n' :: pieces.flatMap Piece.codeText) = _
      rw [tokens_space rfl, later]
      rfl
    | specifier s =>
      show tokens isIdentifierChar (' ' :: pieces.flatMap Piece.codeText) = _
      rw [tokens_space rfl, later, piecesLines]
      split
      · exact (codeTokens_continued _ _).symm
      · rfl

/-- Nothing else is on the lines. -/
theorem Source.codeTokens_lines (src : Source) :
    src.lines.flatMap Line.codeTokens = tokens isIdentifierChar src.codeText := (tokens_pieces src.apart).symm

end Tbf.Attributes
