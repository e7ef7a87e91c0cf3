import Tbf.AttributeLines

/-!
# The attribute stage on one line

What each of the patterns leaves of a line: first the specifiers with nothing but names go, then everything from the first
other specifier to the last `))`, and then what a specifier that is left open, or one that ends here, leaves on the line.
-/

namespace Tbf.Attributes
open Text Deletion

/-! ### Specifiers with nothing but names -/

section SkipSpace

variable {α : Type} {char : α → Char}

theorem head_skipSpace (text : List α) : ∀ c ∈ (skipSpace char text).head?, isSpace (char c) = false := by
  intro c first
  have stops := List.head?_dropWhile_not (fun c => isSpace (char c)) text
  rw [skipSpace] at first
  rw [Option.mem_def.mp first] at stops
  simpa using stops

theorem solid_delete_simple {text : List α} (solid : ∀ c ∈ text.head?, isSpace (char c) = false) :
    ∀ c ∈ (delete (simpleSpecifier char) text).head?, isSpace (char c) = false := by
  induction text using delete_induction (simpleSpecifier char) with
  | nil => exact solid
  | here text rest found ih =>
    obtain ⟨_, _, behind, _, _, _, rfl⟩ := simpleMatch_eq_some.mp found
    rw [delete_match found]
    exact ih (head_skipSpace behind)
  | cons c text missing _ =>
    rw [delete_cons missing]
    exact solid

/-- The white space behind a specifier goes with it, whatever else goes. -/
theorem delete_simple_skipSpace (text : List α) :
    delete (simpleSpecifier char) (skipSpace char text) = skipSpace char (delete (simpleSpecifier char) text) := by
  have spaces : ∀ c ∈ text.takeWhile fun c => isSpace (char c), isSpace (char c) = true :=
    fun c member => List.mem_takeWhile_imp (p := fun c => isSpace (char c)) member
  have clean : Clean ((text.takeWhile fun c => isSpace (char c)).map char) := by
    apply clean_of_others
    intro c member
    obtain ⟨d, inside, rfl⟩ := List.mem_map.mp member
    exact isIdentifierChar_of_isSpace (spaces d inside)
  have whole : (text.takeWhile fun c => isSpace (char c)) ++ skipSpace char text = text := List.takeWhile_append_dropWhile
  have gone := clean.delete simpleSpecifier_begins (skipSpace char text)
  rw [whole] at gone
  rw [gone, skipSpace_append spaces]
  exact (skipSpace_of_solid (solid_delete_simple (head_skipSpace text))).symm

end SkipSpace

theorem skipSpace_code_append (x : Str) {rest : List Marked} (solid : ∀ c ∈ rest.head?, isSpace c.char = false) :
    skipSpace Marked.char (ofCode x ++ rest) = ofCode (x.dropWhile isSpace) ++ rest := by
  rw [skipSpace_append_solid _ solid, skipSpace_ofCode]

/-- The specifiers that the pattern for names leaves, with the code behind each. -/
def othersMarked (others : List (Specifier × Str)) : List Marked :=
  others.flatMap fun x => ofSpecifier x.1.reduced ++ ofCode x.2

variable {specifiers others : List (Specifier × Str)} {code head : Str}

theorem head_underscore (cut : head ≠ [] → HeadCut head) : ∀ c ∈ head.head?, c = '_' := by
  cases head with
  | nil => simp
  | cons c head =>
    obtain ⟨rest, split⟩ := (cut (List.cons_ne_nil c head)).begins
    intro d first
    obtain rfl := Option.some.inj first
    exact (List.cons.inj split).1.symm

/-- Specifiers begin with a solid character. -/
theorem solid_othersMarked (cut : head ≠ [] → HeadCut head) (others : List (Specifier × Str)) :
    ∀ c ∈ (othersMarked others ++ ofSpecifier head).head?, isSpace c.char = false := by
  have underscore : isSpace '_' = false := by decide
  intro c first
  cases others with
  | nil =>
    have char : c.char ∈ ((ofSpecifier head).map Marked.char).head? := by
      rw [List.head?_map]
      exact Option.mem_map_of_mem _ first
    rw [ofSpecifier_chars] at char
    rw [head_underscore cut _ char]
    exact underscore
  | cons x others =>
    obtain rfl := Option.some.inj first
    exact underscore

/-- A pattern that does not match at the beginning of the head does not match in it. -/
theorem delete_head {p : Deletion.Pattern Marked}
    (begins : ∀ text, opening Marked.char text = none → p.behind text = none) (cut : head ≠ [] → HeadCut head) (missing : p.behind (ofSpecifier head) = none) :
    delete p (ofSpecifier head) = ofSpecifier head := by
  cases head with
  | nil => rfl
  | cons c head =>
    have clean : Clean head := (cut (List.cons_ne_nil c head)).clean
    have alone := clean.ofSpecifier.delete begins []
    rw [List.append_nil, delete_nil, List.append_nil] at alone
    rw [ofSpecifier_cons] at missing ⊢
    rw [delete_cons missing, alone]

theorem delete_simple_head (cut : head ≠ [] → HeadCut head) :
    delete (simpleSpecifier Marked.char) (ofSpecifier head) = ofSpecifier head := by
  apply delete_head simpleSpecifier_begins cut
  by_cases empty : head = []
  · rw [empty]
    rfl
  · show simpleMatch Marked.char (ofSpecifier head) = none
    have chars : simpleMatch Marked.char (ofSpecifier head) = (simpleMatch id head).map (List.map _) :=
      simpleMatch_map (fun _ => rfl) head
    rw [chars, (cut empty).noNames]
    rfl

theorem delete_simple_parts (clean : Clean code) (codes : ∀ x ∈ specifiers, Clean x.2) (cut : head ≠ [] → HeadCut head) :
    delete (simpleSpecifier Marked.char) (ofCode code ++ (specifiersMarked specifiers ++ ofSpecifier head)) =
      ofCode (withoutSimple code specifiers).1 ++
        (othersMarked (withoutSimple code specifiers).2 ++ ofSpecifier head) := by
  rw [clean.ofCode.delete simpleSpecifier_begins]
  induction specifiers generalizing code with
  | nil =>
    show _ ++ delete _ ([] ++ ofSpecifier head) = _
    rw [List.nil_append, delete_simple_head cut]
    rfl
  | cons x specifiers ih =>
    obtain ⟨s, text⟩ := x
    obtain ⟨here, later⟩ := List.forall_mem_cons.mp codes
    have rest := ih here later
    rw [← here.ofCode.delete simpleSpecifier_begins] at rest
    have split : specifiersMarked ((s, text) :: specifiers) ++ ofSpecifier head =
        ofSpecifier s.text ++ (ofCode text ++ (specifiersMarked specifiers ++ ofSpecifier head)) := by
      simp only [specifiersMarked, List.flatMap_cons, List.append_assoc]
    rw [split, withoutSimple]
    cases listed : isNameList s.body with
    | true =>
      rw [s.delete_simple listed, delete_simple_skipSpace, rest, skipSpace_code_append _ (solid_othersMarked cut _),
        ← List.append_assoc, ← ofCode_append]
      rfl
    | false =>
      rw [s.delete_other listed, rest]
      show _ = ofCode code ++ (othersMarked ((s, _) :: _) ++ _)
      simp only [othersMarked, List.flatMap_cons, List.append_assoc]

theorem clean_withoutSimple (clean : Clean code) (codes : ∀ x ∈ specifiers, Clean x.2) :
    Clean (withoutSimple code specifiers).1 ∧ ∀ x ∈ (withoutSimple code specifiers).2, Clean x.2 := by
  induction specifiers generalizing code with
  | nil => exact ⟨clean, codes⟩
  | cons x specifiers ih =>
    obtain ⟨s, text⟩ := x
    obtain ⟨here, later⟩ := List.forall_mem_cons.mp codes
    obtain ⟨first, rest⟩ := ih here later
    rw [withoutSimple]
    cases isNameList s.body with
    | true => exact ⟨clean.append (first.suffix (List.dropWhile_suffix _)), rest⟩
    | false => exact ⟨clean, List.forall_mem_cons.mpr ⟨first, rest⟩⟩

/-- No token of the code goes with these specifiers. -/
theorem tokens_withoutSimple (clean : Clean code) (codes : ∀ x ∈ specifiers, Clean x.2) :
    tokens isIdentifierChar (withoutSimple code specifiers).1 ++
        ((withoutSimple code specifiers).2.flatMap fun x => tokens isIdentifierChar x.2) =
      tokens isIdentifierChar code ++ specifiers.flatMap fun x => tokens isIdentifierChar x.2 := by
  induction specifiers generalizing code with
  | nil => rfl
  | cons x specifiers ih =>
    obtain ⟨s, text⟩ := x
    obtain ⟨here, later⟩ := List.forall_mem_cons.mp codes
    have rest := ih here later
    rw [withoutSimple, List.flatMap_cons, ← rest]
    cases isNameList s.body with
    | true =>
      show tokens isIdentifierChar (code ++ (withoutSimple text specifiers).1.dropWhile isSpace) ++ _ = _
      rw [tokens_append (Or.inl clean.2), tokens_dropWhile fun _ => isIdentifierChar_of_isSpace, List.append_assoc]
      rfl
    | false => rfl

/-! ### The last `))` of the line -/

theorem opening_reduced (s : Specifier) (rest : List Marked) :
    opening Marked.char (ofSpecifier s.reduced ++ rest) =
      some (ofSpecifier (delete (simpleSpecifier id) s.body) ++ (ofSpecifier close ++ rest)) := by
  have spaces : ∀ c ∈ ofSpecifier s.gap, isSpace c.char = true := by
    intro c member
    obtain ⟨d, inGap, rfl⟩ := List.mem_map.mp member
    exact s.spaces d inGap
  simp only [Specifier.reduced, ofSpecifier_append, List.append_assoc]
  exact opening_append (ofSpecifier_chars attributeWord) spaces (ofSpecifier_chars _) _

/-- The specifiers that are left begin with `__attribute__((` and end with `))` and the code behind the last. -/
theorem opening_others (init : List (Specifier × Str)) (s : Specifier) (text : Str) (rest : List Marked) :
    ∃ inner, opening Marked.char (othersMarked (init ++ [(s, text)]) ++ rest) =
      some (inner ++ (ofSpecifier close ++ (ofCode text ++ rest))) := by
  cases init with
  | nil =>
    refine ⟨ofSpecifier (delete (simpleSpecifier id) s.body), ?_⟩
    rw [← opening_reduced]
    simp [othersMarked]
  | cons x init =>
    have ends : s.reduced =
        (attributeWord ++ (s.gap ++ ("((".toList ++ delete (simpleSpecifier id) s.body))) ++ close := by
      simp only [Specifier.reduced, List.append_assoc]
    refine ⟨ofSpecifier (delete (simpleSpecifier id) x.1.body) ++ (ofSpecifier close ++ (ofCode x.2 ++
      (othersMarked init ++
        ofSpecifier (attributeWord ++ (s.gap ++ ("((".toList ++ delete (simpleSpecifier id) s.body)))))), ?_⟩
    have split : othersMarked (x :: init ++ [(s, text)]) ++ rest =
        ofSpecifier x.1.reduced ++
          (ofCode x.2 ++ (othersMarked init ++ (ofSpecifier s.reduced ++ (ofCode text ++ rest)))) := by
      simp [othersMarked]
    rw [split, opening_reduced, ends, ofSpecifier_append _ close]
    simp only [List.append_assoc]

/-- The code behind the last specifier. -/
def lastCode (others : List (Specifier × Str)) : Str := (others.getLast?.map Prod.snd).getD []

/-- How far the longest match goes behind the last specifier that is left: over `passed`, to a parenthesis. -/
structure Reach (others : List (Specifier × Str)) (head : Str) (passed rest : List Marked) : Prop where
  split : ofCode (lastCode others) ++ ofSpecifier head = passed ++ rest
  stops : (∀ x ∈ others.getLast?, NoClose x.2) → ¬ close <:+: head → passed = []
  behind : passed = [] → ∀ x ∈ others.getLast?, NoClose x.2
  absent : passed = [] → (opening id head).isSome → ¬ close <:+: head
  last : ∀ c ∈ passed.getLast?, c.char = ')'

theorem opening_ofSpecifier (text : Str) :
    opening Marked.char (ofSpecifier text) = (opening id text).map ofSpecifier := opening_map (fun _ => rfl) text

theorem delete_longest_head (cut : head ≠ [] → HeadCut head)
    (line : '\n' ∉ ((ofSpecifier head).map Marked.char).dropLast) :
    ∃ passed rest, Reach [] head passed rest ∧
      delete (longestSpecifier Marked.char) (ofSpecifier head) = skipSpace Marked.char rest := by
  have chars := opening_ofSpecifier head
  by_cases closed : (opening id head).isSome ∧ close <:+: head
  · obtain ⟨opens, found⟩ := closed
    obtain ⟨inner, opens⟩ := Option.isSome_iff_exists.mp opens
    rw [opens] at chars
    have found' : close <:+: (ofSpecifier head).map Marked.char := by rwa [ofSpecifier_chars]
    obtain ⟨front, closing, behind, split, isClose⟩ := opening_closed chars found'
    obtain ⟨start, whole⟩ := opening_isSuffix chars
    rw [Option.map_some, split] at chars
    rw [split] at whole
    obtain ⟨passed, rest, rfl, gone, _, last⟩ := delete_longestSpecifier line chars isClose
    obtain ⟨a, b, rfl, _, paren⟩ := map_eq_close isClose
    have solid : start ++ (front ++ ([a, b] ++ passed)) ≠ [] := by simp
    refine ⟨start ++ (front ++ ([a, b] ++ passed)), rest, ⟨?_, fun _ absent => absurd found absent, ?_, ?_, ?_⟩, gone⟩
    · rw [← whole]
      simp [lastCode, ofCode]
    · exact fun nothing => absurd nothing solid
    · exact fun nothing => absurd nothing solid
    · intro c final
      rw [← List.append_assoc front, ← List.append_assoc start] at final
      by_cases nothing : passed = []
      · rw [nothing, List.append_nil] at final
        have isB : some b = some c := by simpa using final
        obtain rfl := Option.some.inj isB
        exact paren
      · rw [List.getLast?_append_of_ne_nil _ nothing] at final
        exact last c final
  · have missing : greedyMatch Marked.char (ofSpecifier head) = none := by
      cases opens : opening id head with
      | none =>
        rw [opens] at chars
        exact longestSpecifier_begins _ chars
      | some inner =>
        have absent : ¬ close <:+: head := fun found => closed ⟨by rw [opens]; rfl, found⟩
        apply greedyMatch_eq_none
        rwa [ofSpecifier_chars]
    have alone : delete (longestSpecifier Marked.char) (ofSpecifier head) = ofSpecifier head :=
      delete_head longestSpecifier_begins cut missing
    have solid := skipSpace_of_solid (solid_othersMarked cut [])
    refine ⟨[], ofSpecifier head, ⟨rfl, fun _ _ => rfl, fun _ => by simp, fun _ opens found => ?_, by simp⟩, ?_⟩
    · exact closed ⟨opens, found⟩
    · exact alone.trans solid.symm

/-- From the first specifier that is left, the pattern goes to the last `))`. -/
theorem delete_longest_others (cut : head ≠ [] → HeadCut head)
    (line : '\n' ∉ ((othersMarked others ++ ofSpecifier head).map Marked.char).dropLast) :
    ∃ covered passed rest, othersMarked others = covered ++ ofCode (lastCode others) ∧ Reach others head passed rest ∧
      delete (longestSpecifier Marked.char) (othersMarked others ++ ofSpecifier head) = skipSpace Marked.char rest := by
  rcases List.eq_nil_or_concat others with rfl | ⟨init, ⟨s, text⟩, rfl⟩
  · obtain ⟨passed, rest, reach, gone⟩ := delete_longest_head cut line
    exact ⟨[], passed, rest, rfl, reach, gone⟩
  · rw [List.concat_eq_append] at line ⊢
    obtain ⟨inner, opens⟩ := opening_others init s text (ofSpecifier head)
    obtain ⟨passed, rest, split, gone, none, last⟩ := delete_longestSpecifier line opens (ofSpecifier_chars close)
    have lastText : lastCode (init ++ [(s, text)]) = text := by simp [lastCode]
    have lastOne : (init ++ [(s, text)]).getLast? = some (s, text) := List.getLast?_concat
    have border : ∀ c ∈ head.head?, c ≠ ')' := by
      intro c first
      rw [head_underscore cut c first]
      decide
    rw [List.map_append, ofCode_chars, ofSpecifier_chars, noClose_append border] at none
    refine ⟨othersMarked init ++ ofSpecifier s.reduced, passed, rest, ?_, ⟨?_, ?_, ?_, ?_, last⟩, gone⟩
    · simp [othersMarked, lastCode]
    · rwa [lastText]
    · intro noClose absent
      exact none.mpr ⟨noClose (s, text) lastOne, absent⟩
    · intro nothing x isLast
      rw [lastOne] at isLast
      obtain rfl := Option.some.inj isLast
      exact (none.mp nothing).1
    · exact fun nothing _ => (none.mp nothing).2

/-! ### What is left of a line -/

/-- The line behind the two patterns for whole specifiers. -/
def withoutSpecifiers (line : List Marked) : List Marked :=
  delete (longestSpecifier Marked.char) (delete (simpleSpecifier Marked.char) line)

theorem rewriteAttributes_eq (isOpen : Bool) (line : List Marked) :
    rewriteAttributes Marked.char isOpen line =
      if occurs (openingPattern Marked.char) (withoutSpecifiers line) then
        (delete (openSpecifier Marked.char) (withoutSpecifiers line), true)
      else if isOpen then (delete (upToClose Marked.char) (withoutSpecifiers line), false)
      else (withoutSpecifiers line, false) := rfl

theorem rewriteAttributes_sublist (isOpen : Bool) (line : List Marked) :
    (rewriteAttributes Marked.char isOpen line).1.Sublist (withoutSpecifiers line) := by
  rw [rewriteAttributes_eq]
  split
  · exact delete_sublist _ _
  · split
    · exact delete_sublist _ _
    · exact List.Sublist.refl _

theorem withoutSpecifiers_sublist (line : List Marked) : (withoutSpecifiers line).Sublist line :=
  (delete_sublist _ _).trans (delete_sublist _ _)

variable {p : Parts}

theorem Parts.codeLeft_eq (p : Parts) :
    p.codeLeft = (withoutSimple p.code p.specifiers).1 ++ (lastCode p.others).dropWhile isSpace := by
  rw [Parts.codeLeft, lastCode]
  cases p.others.getLast? <;> rfl

theorem Parts.Regular.delete_simple (regular : p.Regular) :
    delete (simpleSpecifier Marked.char) p.marked = ofSpecifier p.tail ++
      (ofCode (withoutSimple p.code p.specifiers).1 ++ (othersMarked p.others ++ ofSpecifier p.head)) := by
  rw [Parts.marked, regular.tail.ofSpecifier.delete simpleSpecifier_begins,
    delete_simple_parts regular.code regular.codes regular.head]
  rfl

theorem Parts.Regular.withoutSpecifiers (regular : p.Regular) (line : '\n' ∉ (p.marked.map Marked.char).dropLast) :
    ∃ covered passed rest, othersMarked p.others = covered ++ ofCode (lastCode p.others) ∧
      Reach p.others p.head passed rest ∧ Attributes.withoutSpecifiers p.marked = ofSpecifier p.tail ++
        (ofCode (withoutSimple p.code p.specifiers).1 ++ skipSpace Marked.char rest) := by
  have split := regular.delete_simple
  have clean := (clean_withoutSimple regular.code regular.codes).1
  have inside : (othersMarked p.others ++ ofSpecifier p.head).Sublist p.marked := by
    have gone := delete_sublist (simpleSpecifier Marked.char) p.marked
    rw [split] at gone
    exact ((List.sublist_append_right _ _).trans (List.sublist_append_right _ _)).trans gone
  obtain ⟨covered, passed, rest, first, reach, gone⟩ := delete_longest_others regular.head (line_of_sublist inside line)
  refine ⟨covered, passed, rest, first, reach, ?_⟩
  rw [Attributes.withoutSpecifiers, split, regular.tail.ofSpecifier.delete longestSpecifier_begins,
    clean.ofCode.delete longestSpecifier_begins, gone]

theorem occurs_clean {text : List Marked} (clean : Clean (text.map Marked.char)) :
    occurs (openingPattern Marked.char) text = false := by
  apply occurs_eq_false
  intro back solid inside
  have missing := clean.opening [] solid inside
  rwa [List.append_nil] at missing

theorem occurs_front {front : List Marked} (clean : Clean (front.map Marked.char)) (text : List Marked) :
    occurs (openingPattern Marked.char) (front ++ text) = occurs (openingPattern Marked.char) text :=
  occurs_append fun _ solid inside => clean.opening text solid inside

theorem occurs_head (cut : head ≠ [] → HeadCut head) :
    occurs (openingPattern Marked.char) (ofSpecifier head) = (opening id head).isSome := by
  cases head with
  | nil => rfl
  | cons c head =>
    have clean : Clean head := (cut (List.cons_ne_nil c head)).clean
    have here := opening_ofSpecifier (c :: head)
    rw [ofSpecifier_cons] at here ⊢
    rw [occurs, occurs_clean clean.ofSpecifier, Bool.or_false]
    show (opening Marked.char _).isSome = _
    rw [here, Option.isSome_map]

theorem ofSpecifier_nil : ofSpecifier [] = [] := rfl

/-- A specifier that is left open leaves the newline. -/
theorem delete_open_head (cut : HeadCut head) (line : '\n' ∉ head.dropLast) (opens : (opening id head).isSome) :
    delete (openSpecifier Marked.char) (ofSpecifier head) = ofCode ['\n'] := by
  obtain ⟨inner, opens⟩ := Option.isSome_iff_exists.mp opens
  obtain ⟨text, rfl⟩ := cut.ends
  rw [List.dropLast_concat] at line
  obtain ⟨word, gap, parens, split, _, _, isParens⟩ := opening_eq_some.mp opens
  have ends : ∃ inner', inner = inner' ++ ['\n'] ∧ '\n' ∉ inner' := by
    rcases List.eq_nil_or_concat inner with rfl | ⟨inner', c, rfl⟩
    · rw [List.map_id] at isParens
      have last := congrArg List.getLast? split
      rw [isParens] at last
      simp at last
    · rw [List.concat_eq_append, ← List.append_assoc, ← List.append_assoc, ← List.append_assoc] at split
      obtain ⟨same, newline⟩ := List.append_inj' split rfl
      obtain rfl := List.cons.inj newline |>.1
      refine ⟨inner', List.concat_eq_append, fun member => line ?_⟩
      rw [same]
      exact List.mem_append_right _ member
  obtain ⟨inner', rfl, noLine⟩ := ends
  have matched : restMatch Marked.char (ofSpecifier (text ++ ['\n'])) = some (ofCode ['\n']) := by
    have others : ∀ c ∈ ofSpecifier inner', (c.char != '\n') = true := by
      intro c member
      obtain ⟨d, inside, rfl⟩ := List.mem_map.mp member
      have other : d ≠ '\n' := fun same => noLine (same ▸ inside)
      simpa using other
    rw [restMatch, opening_ofSpecifier, opens]
    show some ((ofSpecifier (inner' ++ ['\n'])).dropWhile fun c => c.char != '\n') = _
    rw [ofSpecifier_append, List.dropWhile_append_of_pos others]
    rfl
  exact delete_match (p := openSpecifier Marked.char) matched

theorem rewriteAttributes_shape {tail code : Str} {line : List Marked} {isOpen : Bool} (before : Clean tail)
    (clean : Clean code) (cut : head ≠ [] → HeadCut head) (one : '\n' ∉ head.dropLast)
    (shape : withoutSpecifiers line = ofSpecifier tail ++ (ofCode code ++ ofSpecifier head)) :
    rewriteAttributes Marked.char isOpen line =
      if (opening id head).isSome then (ofSpecifier tail ++ (ofCode code ++ ofCode ['\n']), true)
      else if isOpen then (delete (upToClose Marked.char) (withoutSpecifiers line), false)
      else (withoutSpecifiers line, false) := by
  have search : occurs (openingPattern Marked.char) (withoutSpecifiers line) = (opening id head).isSome := by
    rw [shape, occurs_front before.ofSpecifier, occurs_front clean.ofCode, occurs_head cut]
  rw [rewriteAttributes_eq, search]
  cases opens : (opening id head).isSome with
  | true =>
    have solid : head ≠ [] := by
      rintro rfl
      cases opens
    rw [shape, before.ofSpecifier.delete openSpecifier_begins, clean.ofCode.delete openSpecifier_begins,
      delete_open_head (cut solid) one opens]
  | false => rfl

/-- Where a specifier ends, the last `))` of the line goes with everything in front of it. -/
theorem delete_upToClose_tail {tail : Str} {text : List Marked} (closes : close <:+ tail)
    (line : '\n' ∉ ((ofSpecifier tail ++ text).map Marked.char).dropLast) :
    ∃ passed rest, text = passed ++ rest ∧ delete (upToClose Marked.char) (ofSpecifier tail ++ text) = rest ∧
      (passed = [] ↔ NoClose (text.map Marked.char)) ∧ ∀ c ∈ passed.getLast?, c.char = ')' := by
  obtain ⟨front, rfl⟩ := closes
  rw [ofSpecifier_append, List.append_assoc] at line ⊢
  obtain ⟨passed, rest, rfl, found, none, last⟩ := lastClose_behind line (ofSpecifier_chars close)
  refine ⟨passed, rest, rfl, ?_, none, last⟩
  have matched : (upToClose Marked.char).behind (ofSpecifier front ++ (ofSpecifier close ++ (passed ++ rest))) =
      some rest := found
  rw [delete_match matched, delete_upToClose_of_absent (lastClose_rest line found)]

end Tbf.Attributes
