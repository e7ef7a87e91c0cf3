import Tbf.DeclaratorText

/-!
# Heads of functions with nested declarators

Arrays and pointers to functions each leave a place for a name in the text of a type; `get_method_head`
fills one.
-/

namespace Tbf
open Text CDeclaration

mutual

/-- A type without qualifiers. -/
def Unqualified : CType → Prop
  | .base quals _ => quals = ∅
  | .pointer quals t => quals = ∅ ∧ Unqualified t
  | .array _ t => Unqualified t
  | .function params result => Unqualified result ∧ UnqualifiedParams params

def UnqualifiedParams : CParams → Prop
  | .nil | .ellipsis => True
  | .cons t rest => Unqualified t ∧ UnqualifiedParams rest

end

/-- One array of a chain, or one pointer to a function of chains without an ellipsis: nothing is deeper. -/
def NameFits : CType → Prop
  | .array _ t => IsChain t
  | .pointer _ (.function params result) => IsChain result ∧ ChainParams params ∧ variadic params = false
  | t => IsChain t

def NamesFit : CParams → Prop
  | .nil | .ellipsis => True
  | .cons t rest => NameFits t ∧ NamesFit rest

/-! ### Heads and their parts -/

theorem count_intercalate {c : Char} (other : c ∉ ", ".toList) (pieces : List Str) :
    (", ".toList.intercalate pieces).count c = (pieces.map (List.count c)).sum := by
  induction pieces with
  | nil => rfl
  | cons piece pieces ih =>
    by_cases stop : pieces = []
    · subst stop
      simp
    · rw [List.intercalate_cons_of_ne_nil stop, List.count_append, List.count_append, List.count_eq_zero.mpr other, ih]
      simp

theorem count_head {c : Char} (other : c ∉ " ()".toList) (result name params : Str) :
    (result ++ ' ' :: name ++ '(' :: params ++ [')']).count c = result.count c + name.count c + params.count c := by
  have marks : ' ' ≠ c ∧ '(' ≠ c ∧ ')' ≠ c := by
    refine ⟨?_, ?_, ?_⟩ <;> rintro rfl <;> exact other (by decide)
  simp [marks, Nat.add_assoc]

theorem infix_intercalate {pieces : List Str} {piece : Str} (member : piece ∈ pieces) :
    piece <:+: ", ".toList.intercalate pieces := by
  induction pieces with
  | nil => cases member
  | cons first pieces ih =>
    by_cases stop : pieces = []
    · subst stop
      obtain rfl := List.mem_singleton.mp member
      simp
    · rw [List.intercalate_cons_of_ne_nil stop]
      rcases List.mem_cons.mp member with rfl | member
      · exact ⟨[], ", ".toList ++ ", ".toList.intercalate pieces, by simp⟩
      · exact (ih member).trans (List.suffix_append _ _).isInfix

theorem variadic_of_paramsEllipsis : ∀ {ps : CParams}, paramsEllipsis ps = false → variadic ps = false
  | .nil, _ => rfl
  | .ellipsis, free => free
  | .cons _ rest, free => @variadic_of_paramsEllipsis rest (Bool.or_eq_false_iff.mp free).2

theorem NameFits.of_chain {t : CType} (chain : IsChain t) : NameFits t := by
  cases t with
  | base quals b => trivial
  | pointer quals t =>
    cases t with
    | function params result => cases chain
    | _ => exact chain
  | array length t => cases chain
  | function params result => cases chain

/-! ### Qualifiers that are not there -/

theorem no_texts {texts : List Str} (written : QualTexts texts ∅) : texts = [] := by
  obtain ⟨list, empty, rfl⟩ := written
  rw [List.toFinset_eq_empty_iff] at empty
  rw [empty]
  rfl

theorem qualify_nil (isDecl : Bool) (parts : List Str) : qualify isDecl [] parts = joinWords parts := by
  cases isDecl <;> rfl

theorem baseQuals_unqualified : ∀ {t : CType}, Unqualified t → baseQuals t = ∅
  | .base _ _, free => free
  | .pointer _ t, free => @baseQuals_unqualified t free.2
  | .array _ t, free => @baseQuals_unqualified t free
  | .function _ result, free => @baseQuals_unqualified result free.1

/-- The text of a parameter is the text of its type. -/
theorem exists_type_node {t : CType} (free : Unqualified t) {n : Node} (node : IsParamNode t n) :
    ∃ declname m, IsTypeNode t declname m ∧ getType n = getType m := by
  have alone : ∀ (isDecl : Bool) (m : Node), (do return qualify isDecl [] [← getType m]) = getType m := by
    intro isDecl m
    cases getType m with
    | error e => rfl
    | ok text =>
      have same := qualify_nil isDecl [text]
      rw [joinWords, List.intercalate_singleton] at same
      change Except.ok (qualify isDecl [] [text]) = _
      rw [same]
  obtain ⟨texts, m, written, ⟨name, rfl, target⟩ | ⟨rfl, target⟩⟩ := node
  all_goals
    obtain rfl := no_texts (baseQuals_unqualified free ▸ written)
    refine ⟨_, m, target, ?_⟩
    rw [getType, alone]

/-! ### What a head shows of its declaration -/

/-- A star behind a bracket that closes. -/
def Broken (text : Str) : Prop := ∃ c, (c = ')' ∨ c = ']') ∧ [c, ' ', '*'] <:+: text

theorem Broken.of_infix {s t : Str} (broken : Broken s) (inside : s <:+: t) : Broken t := by
  obtain ⟨c, closes, found⟩ := broken
  exact ⟨c, closes, found.trans inside⟩

/-- A text with one place for a name, and what is behind the place. -/
structure OneHole (t : CType) (text front back : Str) : Prop where
  text : text = front ++ '\x7b' :: '\x7d' :: back
  before : Holes 0 front
  behind : Holes 0 back
  shape : (NameFits t ∧ ∃ c init, (c = ')' ∨ c = ']') ∧ back = init ++ [c]) ∨ Broken back

theorem OneHole.point {quals : Finset Qualifier} {t : CType} {text front back : Str} (one : OneHole t text front back) :
    OneHole (.pointer quals t) (text ++ [' ', '*']) front (back ++ [' ', '*']) where
  text := by simp [one.text]
  before := one.before
  behind := one.behind.append (.of_brace_free (by decide) (by decide))
  shape := by
    rcases one.shape with ⟨_, c, init, closes, rfl⟩ | broken
    · exact Or.inr ⟨c, closes, init, [], by simp⟩
    · exact Or.inr (broken.of_infix (List.prefix_append _ _).isInfix)

theorem oneHole_pointer {t : CType} (object : ∀ params result, t ≠ .function params result)
    (one : ∀ {declname n text}, IsTypeNode t declname n → getType n = .ok text → ∃ front back, OneHole t text front back)
    {quals : Finset Qualifier} (free : quals = ∅) {declname : Option Str} {n : Node} {text : Str}
    (node : IsTypeNode (.pointer quals t) declname n) (made : getType n = .ok text) :
    ∃ front back, OneHole (.pointer quals t) text front back := by
  obtain ⟨texts, m, rfl, written, target⟩ := node
  obtain rfl := no_texts (free ▸ written)
  rw [getType_ptrDecl (not_funcDecl object target)] at made
  obtain ⟨targetText, targetMade, made⟩ := bind_ok.mp made
  obtain rfl := Except.ok.inj made
  obtain ⟨front, back, inside⟩ := one target targetMade
  refine ⟨front, back ++ [' ', '*'], ?_⟩
  rw [qualify_nil, joinWords, List.intercalate_cons_cons, List.intercalate_singleton, List.append_assoc]
  exact inside.point

theorem exists_oneHole : ∀ {t : CType} {declname : Option Str} {n : Node} {text : Str}, WellNamed t → Unqualified t →
    typeHoles t = 1 → hasEllipsis t = false → IsTypeNode t declname n → getType n = .ok text →
    ∃ front back, OneHole t text front back
  | .base _ _, _, _, _, _, _, one, _, _, _ => by cases one
  | .pointer quals (.function params result), _, _, _, named, free, one, plain, node, made => by
    obtain ⟨texts, m, rfl, written, args, type, rfl, target, listed⟩ := node
    obtain ⟨nodes, paramNodes, same⟩ := exists_param_nodes listed
    obtain rfl := no_texts (free.1 ▸ written)
    rw [getType_functionPointer, same] at made
    obtain ⟨resultText, resultMade, made⟩ := bind_ok.mp made
    obtain ⟨paramTexts, paramsMade, made⟩ := bind_ok.mp made
    obtain rfl := Except.ok.inj made
    simp only [typeHoles] at one
    have noHoles : typeHoles result = 0 ∧ paramsHoles params = 0 := by omega
    obtain ⟨_, noEllipsis⟩ := Bool.or_eq_false_iff.mp (show (hasEllipsis result || paramsEllipsis params) = false from plain)
    have before := (getType_prints named.1 target resultMade).holes
    have behind := (getTypes_prints named.2 paramNodes paramsMade).joined.holes
    rw [noHoles.1] at before
    rw [noHoles.2] at behind
    refine ⟨resultText ++ ['(', '*'], ")(".toList ++ ", ".toList.intercalate paramTexts ++ [')'], ?_, ?_, ?_, Or.inl ?_⟩
    · rw [qualify_nil, joinWords, List.intercalate_singleton]
      simp
    · exact before.append (.of_brace_free (by decide) (by decide))
    · have opening : Holes 0 ")(".toList := .of_brace_free (by decide) (by decide)
      exact (opening.append behind).append (.of_brace_free (by decide) (by decide))
    · exact ⟨⟨isChain_of_typeHoles noHoles.1, chainParams_of_paramsHoles noHoles.2, variadic_of_paramsEllipsis noEllipsis⟩,
        ')', _, Or.inl rfl, rfl⟩
  | .pointer _ (.base quals b), _, _, _, named, free, one, plain, node, made =>
    oneHole_pointer (by simp) (fun target targetMade =>
      @exists_oneHole (.base quals b) _ _ _ named free.2 one plain target targetMade) free.1 node made
  | .pointer _ (.pointer quals t), _, _, _, named, free, one, plain, node, made =>
    oneHole_pointer (by simp) (fun target targetMade =>
      @exists_oneHole (.pointer quals t) _ _ _ named free.2 one plain target targetMade) free.1 node made
  | .pointer _ (.array length t), _, _, _, named, free, one, plain, node, made =>
    oneHole_pointer (by simp) (fun target targetMade =>
      @exists_oneHole (.array length t) _ _ _ named free.2 one plain target targetMade) free.1 node made
  | .array length t, _, _, _, named, _, one, _, node, made => by
    obtain ⟨m, dim, rfl, _, element⟩ := node
    obtain ⟨elementText, elementMade, made⟩ := bind_ok.mp made
    obtain rfl := Except.ok.inj made
    have noHoles : typeHoles t = 0 := Nat.succ.inj one
    have before := (@getType_prints t _ _ _ named element elementMade).holes
    rw [noHoles] at before
    refine ⟨elementText ++ [' ', ' '], ['[', ']'], ?_, ?_, ?_, Or.inl ?_⟩
    · simp [joinWords, List.intercalate_cons_cons]
    · exact before.append (.of_brace_free (by decide) (by decide))
    · exact .of_brace_free (by decide) (by decide)
    · exact ⟨isChain_of_typeHoles noHoles, ']', ['['], Or.inr rfl, rfl⟩
  | .function _ _, _, _, _, _, _, _, _, node, made => by
    obtain ⟨args, type, rfl, _⟩ := node
    rw [getType] at made
    obtain ⟨_, _, made⟩ := bind_ok.mp made
    cases made

theorem stars_of_ellipsis : ∀ {t : CType} {declname : Option Str} {n : Node} {text : Str}, IsTypeNode t declname n →
    getType n = .ok text → hasEllipsis t = true → 0 < t.stars
  | .base _ _, _, _, _, _, _, inside => by cases inside
  | .pointer _ t, _, _, _, _, _, _ => Nat.succ_pos t.stars
  | .array _ t, _, _, _, node, made, inside => by
    obtain ⟨m, dim, rfl, _, element⟩ := node
    obtain ⟨_, elementMade, _⟩ := bind_ok.mp made
    exact @stars_of_ellipsis t _ m _ element elementMade inside
  | .function _ _, _, _, _, node, made, _ => by
    obtain ⟨args, type, rfl, _⟩ := node
    rw [getType] at made
    obtain ⟨_, _, made⟩ := bind_ok.mp made
    cases made

/-- A piece that shows every star of its type, and breaks nothing, is of a type whose name fits. -/
theorem param_back {t : CType} (named : WellNamed t) (free : Unqualified t) {n : Node} (node : IsParamNode t n)
    {text piece : Str} (made : getType n = .ok text) {idx : Nat} (shown : headPiece idx text = .ok piece) :
    piece.count '*' ≤ t.stars ∧ (piece.count '*' = t.stars → ¬ Broken piece → NameFits t) := by
  obtain ⟨declname, m, target, same⟩ := exists_type_node free node
  rw [same] at made
  have printed := getType_prints named target made
  have noStar := List.count_eq_zero.mpr (star_not_mem_paramName idx)
  cases ellipsis : hasEllipsis t with
  | true =>
    rw [headPiece, if_pos (printed.dots ellipsis)] at shown
    obtain rfl := Except.ok.inj shown
    have some := stars_of_ellipsis target made ellipsis
    have none : "...".toList.count '*' = 0 := by decide
    rw [none]
    exact ⟨Nat.zero_le _, fun same => absurd some (by omega)⟩
  | false =>
    have noDots := printed.noDots ellipsis
    obtain ⟨front, back, noBrace, rfl, ⟨count, rfl, rfl⟩ | ⟨count, rfl⟩⟩ := headPiece_filled printed.holes noDots shown
    · refine ⟨le_of_eq ?_, fun _ _ => .of_chain (isChain_of_typeHoles count)⟩
      simp [printed.stars, noStar]
    · obtain ⟨front', back', one⟩ := exists_oneHole named free count ellipsis target made
      obtain ⟨rfl, backs⟩ := split_first noBrace one.before.brace_free.1 one.text
      obtain rfl := (List.cons.inj backs).2
      refine ⟨le_of_eq ?_, fun _ sound => ?_⟩
      · rw [← printed.stars]
        simp [noStar]
      · rcases one.shape with ⟨fits, _⟩ | broken
        · exact fits
        · exact absurd (broken.of_infix (List.suffix_append _ _).isInfix) sound

theorem params_back {idx : Nat} {ps : CParams} {pieces : List Str} (shown : Pieces idx ps pieces)
    (named : WellNamedParams ps) (free : UnqualifiedParams ps) :
    (pieces.map (List.count '*')).sum ≤ ps.stars ∧
      ((pieces.map (List.count '*')).sum = ps.stars → (∀ piece ∈ pieces, ¬ Broken piece) → NamesFit ps) := by
  induction shown with
  | nil => exact ⟨Nat.le_refl _, fun _ _ => trivial⟩
  | ellipsis => exact ⟨by decide, fun _ _ => trivial⟩
  | cons here made pieceShown _ ih =>
    obtain ⟨most, fits⟩ := param_back named.1 free.1 here made pieceShown
    obtain ⟨mostRest, fitsRest⟩ := ih named.2 free.2
    rw [List.map_cons, List.sum_cons, CParams.stars]
    refine ⟨Nat.add_le_add most mostRest, fun all sound => ?_⟩
    obtain ⟨soundHere, soundRest⟩ := List.forall_mem_cons.mp sound
    exact ⟨fits (by omega) soundHere, fitsRest (by omega) soundRest⟩

/-! ### What a head of such types declares -/

/-- A text that reads as a declaration of one parameter. -/
def ReadsAs (piece : Str) (name : Option Str) (t : CType) : Prop :=
  ∃ (spec : Specifiers) (d : Declarator), d.Valid ∧ lex piece = spec.tokens ++ d.tokens ∧ d.declared = name ∧
    d.type spec.type = t

/-- The texts of a parameter list, the ellipsis last. -/
inductive ReadParams : CParams → List (Option Str) → List Str → Prop
  | nil : ReadParams .nil [] []
  | ellipsis : ReadParams .ellipsis [] ["...".toList]
  | cons {t : CType} {ps : CParams} {name : Option Str} {names : List (Option Str)} {piece : Str} {pieces : List Str} :
      ReadsAs piece name t → ReadParams ps names pieces → ReadParams (.cons t ps) (name :: names) (piece :: pieces)

theorem ReadParams.tree {ps : CParams} {names : List (Option Str)} {pieces : List Str} (read : ReadParams ps names pieces) :
    ∃ params : Params, params.Valid ∧ lex (", ".toList.intercalate pieces) = params.tokens ∧ params.types = ps ∧
      params.names = names ∧ (pieces = [] ↔ params = .nil) := by
  induction read with
  | nil => exact ⟨.nil, trivial, rfl, rfl, rfl, iff_of_true rfl rfl⟩
  | ellipsis => exact ⟨.ellipsis, trivial, by decide, rfl, rfl, by simp⟩
  | @cons t ps name names piece pieces here rest ih =>
    obtain ⟨spec, d, valid, tokens, rfl, rfl⟩ := here
    obtain ⟨params, validRest, tokensRest, rfl, rfl, empty⟩ := ih
    refine ⟨.cons spec d params, ⟨valid, validRest⟩, ?_, rfl, rfl, by simp⟩
    rw [lex_intercalate, Params.tokens_cons, tokens]
    congr 1
    by_cases stop : pieces = []
    · rw [if_pos stop, empty.mp stop]
      rfl
    · rw [if_neg stop, tokensRest]
      cases params with
      | nil => exact absurd (empty.mpr rfl) stop
      | ellipsis => rfl
      | cons _ _ _ => rfl

theorem noLoss_unqualified : ∀ {t : CType}, Unqualified t → NoLoss t
  | .base _ _, free => by simp [NoLoss, show _ = ∅ from free]
  | .pointer _ t, free => ⟨by simp [free.1], @noLoss_unqualified t free.2⟩
  | .array _ _, _ => trivial
  | .function _ _, _ => trivial

theorem chain_reading {t : CType} (chain : IsChain t) (named : WellNamed t) (free : Unqualified t) {declname : Option Str}
    {n : Node} (node : IsTypeNode t declname n) : ∃ (text : Str) (spec : Specifiers) (levels : List (List Qualifier)),
      getType n = .ok text ∧ PlainText text ∧ lex text = spec.tokens ++ levelTokens levels ∧
      levels.foldl (fun t quals => .pointer quals.toFinset t) spec.type = t := by
  obtain ⟨_, text, made, tokens, plain⟩ := getType_chain chain named node
  have base := printed_base chain named
  refine ⟨text, (printed t).spec base, (printed t).levels, made, plain, ?_, ?_⟩
  · rw [tokens, ChainText.tokens_spec]
  · have whole := (@prepend_type_eq_iff t chain [] nofun).mpr ⟨noLoss_unqualified free, nofun⟩
    rw [ChainText.type_spec]
    exact whole

/-- A chain in front of a declarator that is not a pointer itself. -/
theorem reads_pointers {spec : Specifiers} {levels : List (List Qualifier)} {d : Declarator} {piece : Str} {name : Option Str}
    {t : CType} (valid : d.Valid) (tokens : lex piece = spec.tokens ++ levelTokens levels ++ d.tokens) (declared : d.declared = name)
    (type : d.type (levels.foldl (fun t quals => .pointer quals.toFinset t) spec.type) = t) : ReadsAs piece name t := by
  refine ⟨spec, .pointers levels d, valid_pointers.mpr valid, ?_, (declared_pointers _ _).trans declared,
    (type_pointers _ _ _).trans type⟩
  rw [tokens, tokens_pointers, List.append_assoc]

theorem chainParams_reading {ps : CParams} (chain : ChainParams ps) (named : WellNamedParams ps) (free : UnqualifiedParams ps)
    {nodes : List Node} (node : IsParams ps nodes) : ∃ pts names, getTypes nodes = .ok pts ∧ ReadParams ps names pts := by
  induction ps using variadic.induct generalizing nodes with
  | case1 =>
    obtain rfl := node
    exact ⟨[], [], rfl, .nil⟩
  | case2 =>
    obtain rfl := node
    exact ⟨_, [], rfl, .ellipsis⟩
  | case3 t rest ih =>
    obtain ⟨n, more, rfl, later, here⟩ := node
    obtain ⟨declname, m, target, same⟩ := exists_type_node free.1 here
    obtain ⟨text, spec, levels, made, _, tokens, type⟩ := chain_reading chain.1 named.1 free.1 target
    obtain ⟨pts, names, madeRest, read⟩ := ih chain.2 named.2 free.2 later
    refine ⟨text :: pts, none :: names, ?_, .cons ?_ read⟩
    · rw [getTypes, same, made, madeRest]
      rfl
    · exact @reads_pointers spec levels .abstract _ _ _ trivial (by simpa [Declarator.tokens] using tokens) rfl type

/-- What is known of a parameter whose name fits: its text, its piece of the head, and what the piece declares. -/
structure FittingPiece (idx : Nat) (t : CType) (n : Node) (text piece : Str) : Prop where
  made : getType n = .ok text
  shown : headPiece idx text = .ok piece
  reads : ∃ t', asParameter t' = asParameter t ∧ ReadsAs piece (some (paramName idx)) t'

theorem chain_piece {t : CType} (chain : IsChain t) (named : WellNamed t) (free : Unqualified t) {declname : Option Str} {n : Node}
    (node : IsTypeNode t declname n) (idx : Nat) : ∃ text piece, FittingPiece idx t n text piece := by
  obtain ⟨text, spec, levels, made, plain, tokens, type⟩ := chain_reading chain named free node
  refine ⟨text, text ++ ' ' :: paramName idx, made, headPiece_plain idx plain, t, rfl, ?_⟩
  refine @reads_pointers spec levels (.name (paramName idx)) _ _ _ (paramName_identifier idx) ?_ rfl type
  rw [lex_blank, tokens, lex_paramName]
  rfl

theorem array_piece {length : Option Nat} {t : CType} (chain : IsChain t) (named : WellNamed t) (free : Unqualified t)
    {declname : Option Str} {n : Node} (node : IsTypeNode (.array length t) declname n) (idx : Nat) :
    ∃ text piece, FittingPiece idx (.array length t) n text piece := by
  obtain ⟨m, dim, rfl, _, element⟩ := node
  obtain ⟨text, spec, levels, made, plain, tokens, type⟩ := chain_reading chain named free element
  have printed := getType_prints named element made
  rw [typeHoles_of_chain chain, hasEllipsis_of_chain chain] at printed
  have whole : getType (.arrayDecl m dim) = .ok ((text ++ [' ', ' ']) ++ '\x7b' :: '\x7d' :: ['[', ']']) := by
    rw [getType, made]
    simp [joinWords, List.intercalate_cons_cons, bind, Except.bind, pure, Except.pure]
  refine ⟨_, _, whole, headPiece_one idx ?_ ?_ ?_, .array none t, rfl, ?_⟩
  · exact printed.holes.append (.of_brace_free (by decide) (by decide))
  · exact .of_brace_free (by decide) (by decide)
  · have noDots := printed.noDots rfl
    simp [noDots]
  · refine @reads_pointers spec levels (.array (.name (paramName idx)) none) _ _ _ ⟨rfl, paramName_identifier idx⟩ ?_ rfl ?_
    · have shape : text ++ [' ', ' '] ++ paramName idx ++ ['[', ']'] =
          text ++ ' ' :: ([] ++ ' ' :: (paramName idx ++ '[' :: ([] ++ ']' :: []))) := by simp
      rw [shape, lex_blank, lex_blank, lex_punct _ _ (by decide) (by decide), lex_punct _ _ (by decide) (by decide), tokens,
        lex_paramName]
      rfl
    · rw [Declarator.type, Declarator.type, type]

theorem function_piece {quals : Finset Qualifier} {params : CParams} {result : CType} (chain : IsChain result)
    (chains : ChainParams params) (fixed : variadic params = false) (named : WellNamed (.function params result))
    (free : Unqualified (.pointer quals (.function params result))) {declname : Option Str} {n : Node}
    (node : IsTypeNode (.pointer quals (.function params result)) declname n) (idx : Nat) :
    ∃ text piece, FittingPiece idx (.pointer quals (.function params result)) n text piece := by
  obtain ⟨texts, m, rfl, written, args, type, rfl, target, listed⟩ := node
  obtain ⟨nodes, paramNodes, same⟩ := exists_param_nodes listed
  obtain rfl := no_texts (free.1 ▸ written)
  obtain ⟨text, spec, levels, made, plain, tokens, typeRead⟩ := chain_reading chain named.1 free.2.1 target
  obtain ⟨pts, names, paramsMade, read⟩ := chainParams_reading chains named.2 free.2.2 paramNodes
  obtain ⟨tree, valid, paramTokens, types, _⟩ := read.tree
  have printed := getType_prints named.1 target made
  have printedParams := (getTypes_prints named.2 paramNodes paramsMade).joined
  rw [typeHoles_of_chain chain, hasEllipsis_of_chain chain] at printed
  rw [paramsHoles_of_chain chains, paramsEllipsis_of_chain chains, fixed] at printedParams
  have whole : getType (.ptrDecl [] (.funcDecl args type)) =
      .ok ((text ++ ['(', '*']) ++ '\x7b' :: '\x7d' :: (")(".toList ++ ", ".toList.intercalate pts ++ [')'])) := by
    rw [getType_functionPointer, made, same, paramsMade]
    change Except.ok (qualify false [] _) = _
    rw [qualify_nil, joinWords, List.intercalate_singleton]
    simp
  refine ⟨_, _, whole, headPiece_one idx ?_ ?_ ?_, _, rfl, ?_⟩
  · exact printed.holes.append (.of_brace_free (by decide) (by decide))
  · have opening : Holes 0 ")(".toList := .of_brace_free (by decide) (by decide)
    exact (opening.append printedParams.holes).append (.of_brace_free (by decide) (by decide))
  · have noDots := printed.noDots rfl
    have noDots' := printedParams.noDots rfl
    exact List.not_mem_append (by simp [noDots]) (by
      simp only [List.mem_cons, List.mem_append, not_or]
      exact ⟨by decide, by decide, ⟨by decide, noDots'⟩, by decide, List.not_mem_nil⟩)
  · refine @reads_pointers spec levels (.function (.paren (.pointer [] (.name (paramName idx)))) tree) _ _ _
      ⟨rfl, ⟨rfl, paramName_identifier idx⟩, valid⟩ ?_ rfl ?_
    · have shape : text ++ ['(', '*'] ++ paramName idx ++ (")(".toList ++ ", ".toList.intercalate pts ++ [')']) =
          text ++ '(' :: ([] ++ '*' :: (paramName idx ++ ')' :: ([] ++ '(' :: (", ".toList.intercalate pts ++ ')' :: [])))) := by
        simp
      rw [shape]
      iterate 5 rw [lex_punct _ _ (by decide) (by decide)]
      rw [tokens, lex_paramName, paramTokens]
      simp [lex, Declarator.tokens]
    · rw [Declarator.type, typeRead, types, show quals = ∅ from free.1]
      rfl

theorem fitting_piece : ∀ {t : CType}, NameFits t → WellNamed t → Unqualified t → ∀ {declname : Option Str} {n : Node},
    IsTypeNode t declname n → ∀ idx, ∃ text piece, FittingPiece idx t n text piece
  | .base _ _, fits, named, free, _, _, node, idx => chain_piece fits named free node idx
  | .pointer _ (.function _ _), fits, named, free, _, _, node, idx =>
    function_piece fits.1 fits.2.1 fits.2.2 named free node idx
  | .pointer _ (.base _ _), fits, named, free, _, _, node, idx => chain_piece fits named free node idx
  | .pointer _ (.pointer _ _), fits, named, free, _, _, node, idx => chain_piece fits named free node idx
  | .pointer _ (.array _ _), fits, _, _, _, _, _, _ => by cases fits
  | .array _ _, fits, named, free, _, _, node, idx => array_piece fits named free node idx
  | .function _ _, fits, _, _, _, _, _, _ => by cases fits

theorem fitting_pieces {ps : CParams} (fit : NamesFit ps) (named : WellNamedParams ps) (free : UnqualifiedParams ps)
    {nodes : List Node} (node : IsParams ps nodes) (idx : Nat) : ∃ pts pieces ps', getTypes nodes = .ok pts ∧
      (pts.zipIdx idx).mapM (fun item => headPiece item.2 item.1) = .ok pieces ∧
      ReadParams ps' (paramNames idx ps) pieces ∧ adjusted ps' = adjusted ps := by
  induction idx, ps using paramNames.induct generalizing nodes with
  | case1 idx =>
    obtain rfl := node
    exact ⟨[], [], .nil, rfl, rfl, .nil, rfl⟩
  | case2 idx =>
    obtain rfl := node
    refine ⟨_, ["...".toList], .ellipsis, rfl, ?_, .ellipsis, rfl⟩
    rw [List.zipIdx_cons, List.zipIdx_nil, List.mapM_cons, List.mapM_nil, headPiece_ellipsis]
    rfl
  | case3 idx t rest ih =>
    obtain ⟨n, more, rfl, later, here⟩ := node
    obtain ⟨declname, m, target, same⟩ := exists_type_node free.1 here
    obtain ⟨text, piece, ⟨made, shown, t', type, reads⟩⟩ := fitting_piece fit.1 named.1 free.1 target idx
    obtain ⟨pts, pieces, ps', madeRest, shownRest, read, types⟩ := ih fit.2 named.2 free.2 later
    refine ⟨text :: pts, piece :: pieces, .cons t' ps', ?_, ?_, .cons reads read, ?_⟩
    · rw [getTypes, same, made, madeRest]
      rfl
    · rw [List.zipIdx_cons, List.mapM_cons, shown, shownRest]
      rfl
    · rw [adjusted, adjusted, type, types]

/-! ### Declarations without qualifiers -/

/-- A declaration without qualifiers, of any types, and the tree pycparser builds for it. -/
structure NestedDecl (d : FunctionDecl) (args : Option Node) (type : Node) : Prop where
  proper : d.Proper
  result : Unqualified d.result
  params : UnqualifiedParams d.params
  node : d.IsNode args type

theorem stars_adjusted : ∀ ps : CParams, (adjusted ps).stars = ps.stars
  | .nil => rfl
  | .ellipsis => rfl
  | .cons t rest => by
    have here : (asParameter t).stars = t.stars := by cases t <;> rfl
    rw [adjusted, CParams.stars, CParams.stars, here, stars_adjusted rest]

theorem NestedDecl.fits {d : FunctionDecl} {args : Option Node} {type : Node} (decl : NestedDecl d args type)
    (faithful : Faithful d args type) : IsChain d.result ∧ NamesFit (effective d.params) ∧ Unhidden 0 (effective d.params) := by
  obtain ⟨head, made, params, declares, names, same⟩ := faithful
  obtain ⟨name, result, pts, pieces, nameMade, resultMade, ptsMade, piecesMade, rfl⟩ := stubHead_ok.mp made
  obtain ⟨nodes, paramNodes, shown⟩ := decl.proper.pieces decl.node
  have named := effective_params decl.proper.params trivial
  have free := effective_params decl.params trivial
  obtain ⟨pts', ptsMade', shown'⟩ := (shown pieces).mp ⟨pts, ptsMade, piecesMade⟩
  have resultNode := decl.node.result
  obtain rfl := Option.some.inj (getName_ok resultNode nameMade)
  have printed := getType_prints decl.proper.result resultNode resultMade
  have head_brace := declares.no_brace
  have head_stars := declares.stars
  refine ⟨?_, ?_, ?_⟩
  · refine isChain_of_typeHoles (not_not.mp fun some => ?_)
    have inside := ((hole_infix_iff printed.holes).mpr some).subset (show '\x7b' ∈ _ by decide)
    exact head_brace (by simp [inside])
  · obtain ⟨_, fit⟩ := params_back (pieces_of_made paramNodes ptsMade' shown') named free
    refine fit ?_ fun piece member broken => ?_
    · have nameStars : d.name.count '*' = 0 :=
        List.count_eq_zero.mpr fun member => absurd (decl.proper.name.1.2 _ member) (by decide)
      have paramStars : params.types.stars = (effective d.params).stars := by
        rw [← stars_adjusted params.types, same, stars_adjusted]
      rw [← count_intercalate (by decide) pieces, ← paramStars]
      rw [count_head (by decide), printed.stars, nameStars] at head_stars
      omega
    · have inside : piece <:+: result ++ ' ' :: d.name ++ '(' :: ", ".toList.intercalate pieces ++ [')'] := by
        refine (infix_intercalate member).trans ?_
        exact ⟨result ++ ' ' :: d.name ++ ['('], [')'], by simp⟩
      obtain ⟨c, closes, found⟩ := broken.of_infix inside
      exact declares.no_star_behind closes found
  · obtain ⟨_, _, _, _, _, _, _, visible⟩ := declares
    rw [names] at visible
    exact (scoped_iff_unhidden same).mp visible

/-- Declarations without qualifiers come back exactly where the result is a chain, every parameter has one
place for its name at most, and nothing behind the place is a star. -/
theorem nested_faithful_iff {d : FunctionDecl} {args : Option Node} {type : Node} (decl : NestedDecl d args type) :
    Faithful d args type ↔ IsChain d.result ∧ NamesFit (effective d.params) ∧ Unhidden 0 (effective d.params) := by
  refine ⟨decl.fits, ?_⟩
  rintro ⟨chain, fit, unhidden⟩
  obtain ⟨nodes, paramNodes, shown⟩ := decl.proper.pieces decl.node
  have named := effective_params decl.proper.params trivial
  have free := effective_params decl.params trivial
  obtain ⟨pts, pieces, ps', ptsMade, piecesShown, read, same⟩ := fitting_pieces fit named free paramNodes 0
  obtain ⟨pts', ptsMade', piecesMade⟩ := (shown pieces).mpr ⟨pts, ptsMade, piecesShown⟩
  have resultNode := decl.node.result
  obtain ⟨text, spec, levels, made, _, tokens, resultType⟩ :=
    chain_reading chain decl.proper.result decl.result resultNode
  obtain ⟨params, valid, paramTokens, rfl, names, _⟩ := read.tree
  refine ⟨_, stubHead_ok.mpr ⟨d.name, text, pts', pieces, getName_chain chain resultNode, made, ptsMade', piecesMade, rfl⟩,
    params, ⟨spec, .pointers levels (.function (.name d.name) params), ?_, ?_, ?_, ?_, ?_, ?_⟩, names, same⟩
  · exact valid_pointers.mpr ⟨rfl, decl.proper.name, valid⟩
  · rw [lex_head decl.proper.name.1, tokens, paramTokens, tokens_pointers, List.append_assoc]
    simp [Declarator.tokens]
  · exact declared_pointers _ _
  · exact ownParams_pointers _ _
  · rw [type_pointers, resultType]
    rfl
  · rw [names]
    exact (scoped_iff_unhidden same).mpr unhidden

theorem not_faithful_of_raised {d : FunctionDecl} {args : Option Node} {type : Node} {e : Raised}
    (raised : stubHead args type = .error e) : ¬ Faithful d args type :=
  fun ⟨_, made, _⟩ => nomatch raised.symm.trans made

/-- `int f(int (*p)(int), int q[2])` -/
def callbackDecl : FunctionDecl :=
  ⟨['f'], .cons (.pointer ∅ (.function (.cons intType .nil) intType)) (.cons (.array (some 2) intType) .nil), intType⟩

theorem callbackDecl_faithful : ∃ args type, NestedDecl callbackDecl args type ∧ Faithful callbackDecl args type := by
  have name : Identifier ['f'] := .of (by decide)
  have callback : IsTypeNode (.pointer ∅ (.function (.cons intType .nil) intType)) (some ['p'])
      (.ptrDecl [] (.funcDecl (some (.paramList [.typename [] (intNode none)])) (intNode (some ['p'])))) :=
    ⟨_, _, rfl, no_quals, _, _, rfl, isTypeNode_int _,
      Or.inl ⟨_, rfl, List.cons_ne_nil _ _, _, _, rfl, rfl, _, _, no_quals, Or.inr ⟨rfl, isTypeNode_int _⟩⟩⟩
  have array : IsTypeNode (.array (some 2) intType) (some ['q']) (.arrayDecl (intNode (some ['q'])) (some (.other []))) :=
    ⟨_, _, rfl, rfl, isTypeNode_int _⟩
  have decl : NestedDecl callbackDecl
      (some (.paramList [.decl (some ['p']) []
        (.ptrDecl [] (.funcDecl (some (.paramList [.typename [] (intNode none)])) (intNode (some ['p'])))) none none,
        .decl (some ['q']) [] (.arrayDecl (intNode (some ['q'])) (some (.other []))) none none]))
      (intNode (some ['f'])) :=
    ⟨⟨name, ⟨⟨wellNamed_int, wellNamed_int, trivial⟩, wellNamed_int, trivial⟩, wellNamed_int, ⟨rfl, rfl, trivial⟩⟩, rfl,
      ⟨⟨rfl, rfl, rfl, trivial⟩, rfl, trivial⟩,
      ⟨_, _, rfl, isTypeNode_int _, Or.inl ⟨_, rfl, List.cons_ne_nil _ _,
        _, _, rfl, ⟨_, _, rfl, rfl, _, _, no_quals, Or.inl ⟨_, rfl, array⟩⟩, _, _, no_quals, Or.inl ⟨_, rfl, callback⟩⟩⟩⟩
  exact ⟨_, _, decl, (nested_faithful_iff decl).mpr ⟨trivial, ⟨⟨trivial, ⟨trivial, trivial⟩, rfl⟩, trivial, trivial⟩, nofun, nofun,
    trivial⟩⟩

/-- `int f(int a[2][3])` -/
def matrixDecl : FunctionDecl := ⟨['f'], .cons (.array (some 2) (.array (some 3) intType)) .nil, intType⟩

theorem matrixDecl_unfaithful : ∃ args type, NestedDecl matrixDecl args type ∧ stubHead args type = .error .indexError ∧
    ¬ Faithful matrixDecl args type := by
  have name : Identifier ['f'] := .of (by decide)
  have decl : NestedDecl matrixDecl
      (some (.paramList [.decl (some ['a']) []
        (.arrayDecl (.arrayDecl (intNode (some ['a'])) (some (.other []))) (some (.other []))) none none]))
      (intNode (some ['f'])) :=
    ⟨⟨name, ⟨wellNamed_int, trivial⟩, wellNamed_int, ⟨rfl, trivial⟩⟩, rfl, ⟨rfl, trivial⟩,
      ⟨_, _, rfl, isTypeNode_int _, Or.inl ⟨_, rfl, List.cons_ne_nil _ _, _, _, rfl, rfl, _, _, no_quals,
        Or.inl ⟨_, rfl, _, _, rfl, rfl, _, _, rfl, rfl, isTypeNode_int _⟩⟩⟩⟩
  exact ⟨_, _, decl, by decide, not_faithful_of_raised (e := .indexError) (by decide)⟩

end Tbf
