import Tbf.AttributeLineStage

/-!
# Which attribute specifiers are removed

The stage is right about a line where its last `))` closes the last specifier, and about a specifier that goes on over the
end of one line. Where no specifier that goes on has another one inside, it is right about nothing else.
-/

namespace Tbf.Attributes
open Text Deletion Nesting

variable {others : List (Specifier × Str)} {p : Parts}

/-! ### Lines that are right -/

def Parts.left (p : Parts) : Str := p.codeLeft ++ if p.head = [] then [] else ['\n']

theorem clean_lastCode (codes : ∀ x ∈ others, Clean x.2) : Clean (lastCode others) := by
  rw [lastCode]
  cases last : others.getLast? with
  | none => exact clean_nil
  | some x => exact codes x (List.mem_of_getLast? last)

theorem Parts.Regular.clean_codeLeft (regular : p.Regular) : Clean p.codeLeft := by
  obtain ⟨first, others⟩ := clean_withoutSimple regular.code regular.codes
  rw [Parts.codeLeft_eq]
  apply first.append
  exact (clean_lastCode others).suffix (List.dropWhile_suffix _)

theorem one_newline_head (line : '\n' ∉ (p.marked.map Marked.char).dropLast) : '\n' ∉ p.head.dropLast := by
  have inside : (ofSpecifier p.head).Sublist p.marked := by
    rw [Parts.marked]
    exact ((List.sublist_append_right _ _).trans (List.sublist_append_right _ _)).trans (List.sublist_append_right _ _)
  have last := line_of_sublist inside line
  rwa [ofSpecifier_chars] at last

/-- Where no pattern has gone too far, all of the code is left. -/
theorem shape_of_reach {rest : List Marked} (regular : p.Regular) (reach : Reach p.others p.head [] rest) :
    ofSpecifier p.tail ++ (ofCode (withoutSimple p.code p.specifiers).1 ++ skipSpace Marked.char rest) =
      ofSpecifier p.tail ++ (ofCode p.codeLeft ++ ofSpecifier p.head) := by
  have split := reach.split
  rw [List.nil_append] at split
  have solid : ∀ c ∈ (ofSpecifier p.head).head?, isSpace c.char = false := solid_othersMarked regular.head []
  rw [← split, skipSpace_code_append _ solid, Parts.codeLeft_eq, ofCode_append, List.append_assoc]

theorem Parts.Ok.rewriteAttributes (ok : p.Ok) (regular : p.Regular) (line : '\n' ∉ (p.marked.map Marked.char).dropLast)
    {isOpen : Bool} (goesOn : p.tail = [] ↔ isOpen = false) :
    Attributes.rewriteAttributes Marked.char isOpen p.marked = (ofCode p.left, decide (p.head ≠ [])) := by
  obtain ⟨covered, passed, rest, _, reach, gone⟩ := regular.withoutSpecifiers line
  have absent : ¬ close <:+: p.head := by
    by_cases empty : p.head = []
    · rw [empty]
      decide
    · exact (ok.opens empty).2.1
  obtain rfl := reach.stops ok.behind absent
  have shape := gone.trans (shape_of_reach regular reach)
  have clean := regular.clean_codeLeft
  rw [rewriteAttributes_shape regular.tail clean regular.head (one_newline_head line) shape, Parts.left]
  by_cases empty : p.head = []
  · have none : (opening id p.head).isSome = false := by rw [empty]; rfl
    rw [empty, ofSpecifier_nil, List.append_nil] at shape
    rw [none, if_neg Bool.false_ne_true, if_pos empty, List.append_nil, decide_eq_false (not_not.mpr empty)]
    cases isOpen with
    | false =>
      rw [goesOn.mpr rfl, ofSpecifier_nil, List.nil_append] at shape
      rw [shape]
      rfl
    | true =>
      have solid : p.tail ≠ [] := fun nothing => absurd (goesOn.mp nothing) (by decide)
      have line' := line_of_sublist (withoutSpecifiers_sublist p.marked) line
      rw [shape] at line'
      obtain ⟨passed, rest, split, gone, none, _⟩ := delete_upToClose_tail (regular.closes solid) line'
      rw [ofCode_chars] at none
      rw [none.mpr (ok.closes solid), List.nil_append] at split
      rw [shape, gone, ← split]
      rfl
  · obtain ⟨opens, _, start⟩ := ok.opens empty
    rw [if_pos opens, start, if_neg empty, ofCode_append, decide_eq_true empty]
    rfl

/-! ### Lines that come out right -/

/-- What is left of a line has no character of a specifier, and every character of the code. -/
structure Exact (line left : List Marked) : Prop where
  deletes : ∀ c ∈ left, c.inSpecifier = false
  keeps : left.countP Marked.isCode = line.countP Marked.isCode

theorem close_marked {tail : Str} (closes : close <:+ tail) : ⟨')', true⟩ ∈ ofSpecifier tail :=
  List.mem_map.mpr ⟨')', closes.subset (by decide), rfl⟩

/-- Nothing of the code has been passed that ends with a parenthesis of the code. -/
theorem passed_eq_nil {passed : List Marked} {text : Str} (inside : passed ⊆ ofCode text)
    (none : passed.countP Marked.isCode = 0) (last : ∀ c ∈ passed.getLast?, c.char = ')') : passed = [] := by
  by_contra solid
  have member := List.getLast_mem solid
  have paren := last _ (List.getLast?_eq_some_getLast solid)
  have noCode := List.countP_eq_zero.mp none _ member
  obtain ⟨d, _, same⟩ := List.mem_map.mp (inside member)
  rw [← same] at paren noCode
  obtain rfl : d = ')' := paren
  exact noCode (by decide)

theorem Exact.nothing_passed {out covered passed rest : List Marked} (exact : Exact p.marked out)
    (inside : out.Sublist (withoutSpecifiers p.marked)) (regular : p.Regular)
    (first : othersMarked p.others = covered ++ ofCode (lastCode p.others)) (reach : Reach p.others p.head passed rest)
    (gone : withoutSpecifiers p.marked = ofSpecifier p.tail ++
      (ofCode (withoutSimple p.code p.specifiers).1 ++ skipSpace Marked.char rest)) :
    covered.countP Marked.isCode = 0 ∧ passed.countP Marked.isCode = 0 := by
  have outer : (delete (simpleSpecifier Marked.char) p.marked).countP Marked.isCode ≤ p.marked.countP Marked.isCode :=
    (delete_sublist _ _).countP_le
  have inner : out.countP Marked.isCode ≤ (withoutSpecifiers p.marked).countP Marked.isCode := inside.countP_le
  have trimmed : (skipSpace Marked.char rest).countP Marked.isCode ≤ rest.countP Marked.isCode :=
    (skipSpace_suffix rest).sublist.countP_le
  have parts := congrArg (List.countP Marked.isCode) reach.split
  rw [exact.keeps, gone] at inner
  rw [regular.delete_simple, first] at outer
  simp only [List.countP_append, countP_ofSpecifier] at outer inner parts
  omega

/-- Nothing but white space is between specifiers that are taken out together. -/
theorem between_of_covered {covered : List Marked} (first : othersMarked others = covered ++ ofCode (lastCode others))
    (none : covered.countP Marked.isCode = 0) : ∀ x ∈ others.dropLast, ∀ c ∈ x.2, isSpace c = true := by
  rcases List.eq_nil_or_concat others with rfl | ⟨init, ⟨s, text⟩, rfl⟩
  · simp
  · rw [List.concat_eq_append] at first ⊢
    have split : othersMarked (init ++ [(s, text)]) = (othersMarked init ++ ofSpecifier s.reduced) ++ ofCode text := by
      simp [othersMarked]
    have lastText : lastCode (init ++ [(s, text)]) = text := by simp [lastCode]
    rw [split, lastText] at first
    rw [← List.append_cancel_right first, List.countP_append] at none
    have noCode := List.countP_eq_zero.mp (Nat.eq_zero_of_add_eq_zero_right none)
    rw [List.dropLast_concat]
    intro x member c inText
    have inInit : ⟨c, false⟩ ∈ othersMarked init :=
      List.mem_flatMap.mpr ⟨x, member, List.mem_append_right _ (List.mem_map_of_mem inText)⟩
    simpa [Marked.isCode] using noCode _ inInit

/-- Where the pattern has gone into the head, no specifier is left open. -/
theorem Reach.nothing_or_clean {passed rest : List Marked} (reach : Reach p.others p.head passed rest)
    (regular : p.Regular) (none : passed.countP Marked.isCode = 0) :
    passed = [] ∨ p.head ≠ [] ∧ Clean (rest.map Marked.char) := by
  rcases List.append_eq_append_iff.mp reach.split with ⟨y, same, inHead⟩ | ⟨y, same, _⟩
  · cases y with
    | nil =>
      rw [List.append_nil] at same
      exact Or.inl (passed_eq_nil (fun c member => same ▸ member) none reach.last)
    | cons c y =>
      have chars := congrArg (List.map Marked.char) inHead
      rw [ofSpecifier_chars, List.cons_append, List.map_cons, List.map_append] at chars
      have solid : p.head ≠ [] := by
        rw [chars]
        exact List.cons_ne_nil _ _
      have clean := (regular.head solid).clean
      rw [chars] at clean
      exact Or.inr ⟨solid, clean.suffix (List.suffix_append _ _)⟩
  · have inside : passed ⊆ ofCode (lastCode p.others) := by
      rw [same]
      exact List.subset_append_left _ _
    exact Or.inl (passed_eq_nil inside none reach.last)

theorem state_of_clean {line : List Marked} (clean : Clean ((withoutSpecifiers line).map Marked.char)) (isOpen : Bool) :
    (rewriteAttributes Marked.char isOpen line).2 = false := by
  rw [rewriteAttributes_eq, occurs_clean clean]
  cases isOpen <;> rfl

/-- Where nothing is left of the beginning of a specifier, none is left open. -/
theorem state_of_rest {isOpen : Bool} {rest : List Marked} (regular : p.Regular)
    (gone : withoutSpecifiers p.marked = ofSpecifier p.tail ++
      (ofCode (withoutSimple p.code p.specifiers).1 ++ skipSpace Marked.char rest))
    (clean : Clean (rest.map Marked.char)) : (rewriteAttributes Marked.char isOpen p.marked).2 = false := by
  have code := (clean_withoutSimple regular.code regular.codes).1
  apply state_of_clean
  rw [gone, List.map_append, List.map_append]
  exact regular.tail.ofSpecifier.append (code.ofCode.append (clean.suffix ((skipSpace_suffix rest).map _)))

theorem state_of_closed {isOpen : Bool} (regular : p.Regular) (line : '\n' ∉ (p.marked.map Marked.char).dropLast)
    (empty : p.head = []) : (rewriteAttributes Marked.char isOpen p.marked).2 = false := by
  obtain ⟨_, passed, rest, _, reach, gone⟩ := regular.withoutSpecifiers line
  have codes := (clean_withoutSimple regular.code regular.codes).2
  have split := reach.split
  rw [empty, ofSpecifier_nil, List.append_nil] at split
  have inside : rest <:+ ofCode (lastCode p.others) := ⟨passed, split.symm⟩
  exact state_of_rest regular gone ((clean_lastCode codes).ofCode.suffix (inside.map _))

theorem Exact.ok {isOpen : Bool} (exact : Exact p.marked (Attributes.rewriteAttributes Marked.char isOpen p.marked).1)
    (regular : p.Regular) (line : '\n' ∉ (p.marked.map Marked.char).dropLast) (goesOn : p.tail = [] ↔ isOpen = false)
    (state : (Attributes.rewriteAttributes Marked.char isOpen p.marked).2 = decide (p.head ≠ [])) : p.Ok := by
  obtain ⟨covered, passed, rest, first, reach, gone⟩ := regular.withoutSpecifiers line
  have inside := rewriteAttributes_sublist isOpen p.marked
  obtain ⟨noCovered, noPassed⟩ := exact.nothing_passed inside regular first reach gone
  have nothing : passed = [] := by
    rcases reach.nothing_or_clean regular noPassed with nothing | ⟨solid, clean⟩
    · exact nothing
    · rw [state_of_rest regular gone clean, decide_eq_true solid] at state
      cases state
  subst nothing
  have shape := gone.trans (shape_of_reach regular reach)
  have result : Attributes.rewriteAttributes Marked.char isOpen p.marked = _ :=
    rewriteAttributes_shape regular.tail regular.clean_codeLeft regular.head (one_newline_head line) shape
  have opens : p.head ≠ [] → (opening id p.head).isSome ∧ ¬ close <:+: p.head ∧ p.tail = [] := by
    intro solid
    have isSome : (opening id p.head).isSome = true := by
      cases opens : (opening id p.head).isSome with
      | true => rfl
      | false =>
        rw [result, opens, decide_eq_true solid] at state
        cases isOpen <;> cases state
    refine ⟨isSome, reach.absent rfl isSome, ?_⟩
    by_contra goes
    have deletes := exact.deletes ⟨')', true⟩
    rw [result, if_pos isSome] at deletes
    cases deletes (List.mem_append_left _ (close_marked (regular.closes goes)))
  refine ⟨between_of_covered first noCovered, reach.behind rfl, opens, fun solid => ?_⟩
  have empty : p.head = [] := by
    by_contra goes
    exact solid (opens goes).2.2
  have open' : isOpen = true := by
    cases isOpen with
    | true => rfl
    | false => exact absurd (goesOn.mpr rfl) solid
  have none : (opening id p.head).isSome = false := by rw [empty]; rfl
  have line' := line_of_sublist (withoutSpecifiers_sublist p.marked) line
  rw [empty, ofSpecifier_nil, List.append_nil] at shape
  rw [shape] at line'
  obtain ⟨passed', rest', split', gone', none', last'⟩ := delete_upToClose_tail (regular.closes solid) line'
  rw [ofCode_chars] at none'
  have keeps := exact.keeps
  rw [result, none, open', if_neg Bool.false_ne_true, if_pos rfl, shape, gone'] at keeps
  dsimp only at keeps
  have whole : (withoutSpecifiers p.marked).countP Marked.isCode ≤ p.marked.countP Marked.isCode :=
    (withoutSpecifiers_sublist p.marked).countP_le
  rw [shape, split', List.countP_append, List.countP_append, countP_ofSpecifier] at whole
  have inCode : passed' ⊆ ofCode p.codeLeft := by
    rw [split']
    exact List.subset_append_left _ _
  exact none'.mp (passed_eq_nil inCode (by omega) last')

/-! ### Lines inside a specifier -/

theorem withoutSpecifiers_clean {line : List Marked} (clean : Clean (line.map Marked.char)) :
    withoutSpecifiers line = line := by
  have simple := clean.delete simpleSpecifier_begins []
  have longest := clean.delete longestSpecifier_begins []
  rw [List.append_nil, delete_nil, List.append_nil] at simple longest
  rw [withoutSpecifiers, simple, longest]

/-- Inside a specifier the stage forgets that it is open. -/
theorem state_of_inside {text : Str} (clean : Clean text) (isOpen : Bool) :
    (rewriteAttributes Marked.char isOpen (ofSpecifier text)).2 = false := by
  apply state_of_clean
  rw [withoutSpecifiers_clean clean.ofSpecifier]
  exact clean.ofSpecifier

/-- The end of a specifier stays where the stage has forgotten that one is open. -/
theorem tail_stays (regular : p.Regular) (line : '\n' ∉ (p.marked.map Marked.char).dropLast) (goesOn : p.tail ≠ []) :
    ⟨')', true⟩ ∈ (rewriteAttributes Marked.char false p.marked).1 := by
  obtain ⟨_, _, rest, _, _, gone⟩ := regular.withoutSpecifiers line
  have paren := close_marked (regular.closes goesOn)
  rw [rewriteAttributes_eq, gone]
  split
  · rw [regular.tail.ofSpecifier.delete openSpecifier_begins]
    exact List.mem_append_left _ paren
  · exact List.mem_append_left _ paren

/-! ### Runs -/

variable {lines : List Line} {isOpen : Bool}

def Line.left : Line → Str
  | .inside _ => []
  | .parts p => p.left

theorem tokens_others (between : ∀ x ∈ others.dropLast, ∀ c ∈ x.2, isSpace c = true) :
    (others.flatMap fun x => tokens isIdentifierChar x.2) = tokens isIdentifierChar (lastCode others) := by
  rcases List.eq_nil_or_concat others with rfl | ⟨init, ⟨s, text⟩, rfl⟩
  · rfl
  · rw [List.concat_eq_append] at between ⊢
    rw [List.dropLast_concat] at between
    have blank : (init.flatMap fun x => tokens isIdentifierChar x.2) = [] := by
      rw [List.flatMap_eq_nil_iff]
      exact fun x member => tokens_blank (between x member)
    rw [List.flatMap_append, blank]
    simp [lastCode]

theorem Parts.Regular.tokens_left (regular : p.Regular) (between : ∀ x ∈ p.others.dropLast, ∀ c ∈ x.2, isSpace c = true) :
    tokens isIdentifierChar p.left = p.codeTokens := by
  have newline : tokens isIdentifierChar (if p.head = [] then [] else ['\n']) = [] := by
    apply tokens_blank
    split <;> simp [isSpace]
  have first := (clean_withoutSimple regular.code regular.codes).1
  have whole := tokens_withoutSimple regular.code regular.codes
  have last := tokens_others between
  rw [Parts.others] at last
  rw [last] at whole
  rw [Parts.left, tokens_append (Or.inl regular.clean_codeLeft.2), newline, List.append_nil, Parts.codeLeft_eq,
    tokens_append (Or.inl first.2), tokens_dropWhile fun _ => isIdentifierChar_of_isSpace]
  exact whole

theorem Parts.Regular.clean_left (regular : p.Regular) : Clean p.left := by
  apply regular.clean_codeLeft.append
  split
  · exact clean_nil
  · have newline : Clean ([] ++ ['\n']) := clean_newline (by decide)
    exact newline

theorem rewriteAttributeLines_of_ok (follow : Follow isOpen lines)
    (one : ∀ l ∈ lines, '\n' ∉ (l.marked.map Marked.char).dropLast) (ok : ∀ l ∈ lines, l.Ok) :
    rewriteAttributeLines Marked.char isOpen (lines.map Line.marked) = ofCode (lines.flatMap Line.left) ∧
      tokens isIdentifierChar (lines.flatMap Line.left) = lines.flatMap Line.codeTokens := by
  induction lines generalizing isOpen with
  | nil => exact ⟨rfl, rfl⟩
  | cons l lines ih =>
    obtain ⟨here, later⟩ := List.forall_mem_cons.mp ok
    obtain ⟨one, ones⟩ := List.forall_mem_cons.mp one
    cases l with
    | inside text => exact here.elim
    | parts p =>
      obtain ⟨goesOn, regular, follow⟩ := follow
      obtain ⟨result, kept⟩ := ih follow ones later
      have right : p.Ok := here
      have step := right.rewriteAttributes regular one goesOn
      constructor
      · rw [List.map_cons, rewriteAttributeLines, Line.marked, step, result, List.flatMap_cons, ofCode_append]
        rfl
      · show tokens isIdentifierChar (p.left ++ lines.flatMap Line.left) = p.codeTokens ++ lines.flatMap Line.codeTokens
        rw [tokens_append (Or.inl regular.clean_left.2), kept, regular.tokens_left right.between]

/-- Where the stage has forgotten that a specifier is open, some of it stays. -/
theorem specifier_stays (follow : Follow true lines) (one : ∀ l ∈ lines, '\n' ∉ (l.marked.map Marked.char).dropLast) :
    ∃ c ∈ rewriteAttributeLines Marked.char false (lines.map Line.marked), c.inSpecifier = true := by
  induction lines with
  | nil => cases follow
  | cons l lines ih =>
    obtain ⟨here, later⟩ := List.forall_mem_cons.mp one
    rw [List.map_cons, rewriteAttributeLines]
    cases l with
    | inside text =>
      obtain ⟨_, clean, follow⟩ := follow
      obtain ⟨c, member, inSpecifier⟩ := ih follow later
      rw [Line.marked, state_of_inside clean]
      exact ⟨c, List.mem_append_right _ member, inSpecifier⟩
    | parts p =>
      obtain ⟨goesOn, regular, _⟩ := follow
      have solid : p.tail ≠ [] := fun nothing => absurd (goesOn.mp nothing) (by decide)
      exact ⟨_, List.mem_append_left _ (tail_stays regular here solid), rfl⟩

theorem Exact.append {line line' left left' : List Marked} (exact : Exact (line ++ line') (left ++ left'))
    (shorter : left.countP Marked.isCode ≤ line.countP Marked.isCode)
    (shorter' : left'.countP Marked.isCode ≤ line'.countP Marked.isCode) : Exact line left ∧ Exact line' left' := by
  have keeps := exact.keeps
  rw [List.countP_append, List.countP_append] at keeps
  obtain ⟨deletes, deletes'⟩ := List.forall_mem_append.mp exact.deletes
  exact ⟨⟨deletes, by omega⟩, deletes', by omega⟩

theorem countP_rewriteAttributes (isOpen : Bool) (line : List Marked) :
    (rewriteAttributes Marked.char isOpen line).1.countP Marked.isCode ≤ line.countP Marked.isCode :=
  ((rewriteAttributes_sublist isOpen line).trans (withoutSpecifiers_sublist line)).countP_le

theorem countP_rewriteAttributeLines (isOpen : Bool) (lines : List (List Marked)) :
    (rewriteAttributeLines Marked.char isOpen lines).countP Marked.isCode ≤ lines.flatten.countP Marked.isCode := by
  induction lines generalizing isOpen with
  | nil => exact Nat.le_refl _
  | cons line lines ih =>
    rw [rewriteAttributeLines, List.flatten_cons, List.countP_append, List.countP_append]
    exact Nat.add_le_add (countP_rewriteAttributes isOpen line) (ih _)

theorem ok_of_exact (follow : Follow isOpen lines) (one : ∀ l ∈ lines, '\n' ∉ (l.marked.map Marked.char).dropLast)
    (exact : Exact (lines.map Line.marked).flatten
      (rewriteAttributeLines Marked.char isOpen (lines.map Line.marked))) : ∀ l ∈ lines, l.Ok := by
  induction lines generalizing isOpen with
  | nil => simp
  | cons l lines ih =>
    obtain ⟨line, ones⟩ := List.forall_mem_cons.mp one
    rw [List.map_cons, List.flatten_cons, rewriteAttributeLines] at exact
    obtain ⟨here, later⟩ := exact.append (countP_rewriteAttributes _ _) (countP_rewriteAttributeLines _ _)
    have remembered : Follow true lines → (rewriteAttributes Marked.char isOpen l.marked).2 = true := by
      intro follow
      cases state : (rewriteAttributes Marked.char isOpen l.marked).2 with
      | true => rfl
      | false =>
        rw [state] at later
        obtain ⟨c, member, inSpecifier⟩ := specifier_stays follow ones
        rw [later.deletes c member] at inSpecifier
        cases inSpecifier
    cases l with
    | inside text =>
      obtain ⟨_, clean, follow⟩ := follow
      have forgotten := remembered follow
      rw [Line.marked, state_of_inside clean] at forgotten
      cases forgotten
    | parts p =>
      obtain ⟨goesOn, regular, follow⟩ := follow
      have state : (rewriteAttributes Marked.char isOpen p.marked).2 = decide (p.head ≠ []) := by
        by_cases empty : p.head = []
        · rw [state_of_closed regular line empty, decide_eq_false (not_not.mpr empty)]
        · rw [decide_eq_true empty] at follow ⊢
          exact remembered follow
      rw [Line.marked, state] at later
      exact List.forall_mem_cons.mpr ⟨here.ok regular line goesOn state, ih follow ones later⟩

/-! ### Sources -/

theorem Source.kept_eq (src : Source) :
    src.kept = rewriteAttributeLines Marked.char false (src.lines.map Line.marked) := by
  rw [Source.kept, removeAttributesOf, src.linesOf_marked]

theorem countP_lines (lines : List Line) : (lines.map Line.marked).flatten.countP Marked.isCode =
    (lines.flatMap Line.codeTokens).flatten.countP (!isSpace ·) := by
  induction lines with
  | nil => rfl
  | cons l lines ih =>
    rw [List.map_cons, List.flatten_cons, List.countP_append, List.flatMap_cons, List.flatten_append, List.countP_append,
      l.countP_marked, ih]

theorem RemovesSpecifiers.exact {src : Source} (removes : RemovesSpecifiers src) :
    Exact (src.lines.map Line.marked).flatten src.kept where
  deletes := removes.deletes
  keeps := by
    have code : src.kept.countP Marked.isCode = (src.kept.map Marked.char).countP (!isSpace ·) := by
      rw [List.countP_map]
      apply List.countP_congr
      intro c member
      simp [Marked.isCode, removes.deletes c member]
    rw [code, countP_lines, src.codeTokens_lines, ← removes.keeps, src.kept_chars, countP_tokens]

/-- Among the sources in which no specifier that goes on over the end of a line has another `__attribute__` inside, the
stage deletes exactly the specifiers of those whose lines are all `Ok`. -/
theorem removeAttributes_correct (src : Source) :
    (src.Plain ∧ (∀ l ∈ src.lines, l.Ok) → RemovesSpecifiers src) ∧
      (src.Plain → RemovesSpecifiers src → ∀ l ∈ src.lines, l.Ok) := by
  have one : ∀ l ∈ src.lines, '\n' ∉ (l.marked.map Marked.char).dropLast := fun l member => src.one_newline member
  constructor
  · intro condition
    obtain ⟨plain, ok⟩ := condition
    obtain ⟨result, kept⟩ := rewriteAttributeLines_of_ok plain.follow one ok
    rw [← src.kept_eq] at result
    constructor
    · intro c member
      rw [result] at member
      obtain ⟨d, _, rfl⟩ := List.mem_map.mp member
      rfl
    · rw [← src.kept_chars, result, ofCode_chars, kept, src.codeTokens_lines]
  · intro plain removes
    have exact := removes.exact
    rw [src.kept_eq] at exact
    exact ok_of_exact plain.follow one exact

/-- `__attribute__((aligned(n)))` -/
def aligned (n : Str) (balanced : Balanced ("aligned(".toList ++ (n ++ ")".toList))) : Specifier where
  gap := []
  spaces := by simp
  body := "aligned(".toList ++ (n ++ ")".toList)
  balanced := balanced

/-- Two declarations on a line. -/
def twoOnALine : Source where
  pieces := [.code "int a ".toList, .specifier (aligned "4".toList (by decide)), .code "; int b ".toList,
    .specifier (aligned "8".toList (by decide)), .code ";".toList]
  code := by
    intro text member
    simp only [List.mem_cons, List.not_mem_nil, or_false, reduceCtorEq, false_or, Piece.code.injEq] at member
    rcases member with rfl | rfl | rfl <;> decide
  apart := by
    simp only [List.isChain_cons_cons, List.isChain_singleton, Piece.Follows, and_true, true_and]
    exact ⟨forall_mem_option_of_all (by decide), forall_mem_option_of_all (by decide)⟩

/-- One declaration on a line, and one whose specifier goes on over the end of the line. -/
def oneOnALine : Source where
  pieces := [.code "int a ".toList, .specifier (aligned "4".toList (by decide)), .code ";".toList, .newline,
    .code "int b ".toList, .specifier (aligned "\n8".toList (by decide)), .code ";".toList]
  code := by
    intro text member
    simp only [List.mem_cons, List.not_mem_nil, or_false, reduceCtorEq, false_or, Piece.code.injEq] at member
    rcases member with rfl | rfl | rfl | rfl <;> decide
  apart := by
    simp only [List.isChain_cons_cons, List.isChain_singleton, Piece.Follows, and_true, true_and]
    exact ⟨forall_mem_option_of_all (by decide), forall_mem_option_of_all (by decide)⟩

theorem removeAttributes_correct_declarations : RemovesSpecifiers oneOnALine ∧ ¬ RemovesSpecifiers twoOnALine := by
  have right : oneOnALine.Plain ∧ ∀ l ∈ oneOnALine.lines, l.Ok := by decide +kernel
  have wrong : twoOnALine.Plain ∧ ¬ ∀ l ∈ twoOnALine.lines, l.Ok := by decide +kernel
  exact ⟨(removeAttributes_correct oneOnALine).1 right,
    fun removes => wrong.2 ((removeAttributes_correct twoOnALine).2 wrong.1 removes)⟩

/-- The second declaration is swallowed. -/
theorem second_declaration_swallowed :
    removeAttributes "int a __attribute__((aligned(4))); int b __attribute__((aligned(8)));".toList = "int a ;\n".toList ∧
      twoOnALine.text = "int a __attribute__((aligned(4))); int b __attribute__((aligned(8)));".toList ∧
      ¬ ∀ src : Source, RemovesSpecifiers src := by
  refine ⟨by decide +kernel, by decide, fun all => ?_⟩
  have keeps := (all twoOnALine).keeps
  revert keeps
  decide +kernel

def alone (body : Str) (balanced : Balanced body) : Source where
  pieces := [.specifier ⟨[], by simp, body, balanced⟩]
  code := by simp
  apart := by simp

/-- A specifier inside another can make up for a line that is not right, and can spoil lines that are. -/
example : (∃ src, RemovesSpecifiers src ∧ ¬ ∀ l ∈ src.lines, l.Ok) ∧
    ∃ src, (∀ l ∈ src.lines, l.Ok) ∧ ¬ RemovesSpecifiers src :=
  ⟨⟨alone "aligned(sizeof(int))\n__attribute__((b(c))) ".toList (by decide), by decide +kernel⟩,
    ⟨alone "\nx __attribute__((b(1))) ".toList (by decide), by decide +kernel⟩⟩

end Tbf.Attributes
