import Tbf.DeclaratorText

/-!
# The ellipsis in a head

`get_method_head` looks for `...` in the whole text of a parameter.
-/

namespace Tbf
open Text CDeclaration

mutual

/-- Functions stand behind pointers only: the types that `get_type` has a text for. -/
def printable : CType → Bool
  | .base _ _ => true
  | .pointer _ (.function params result) => printable result && printables params
  | .pointer _ t | .array _ t => printable t
  | .function _ _ => false

def printables : CParams → Bool
  | .nil | .ellipsis => true
  | .cons t rest => printable t && printables rest

end

/-- No array stands between a function and its name, where `get_name` looks for it. -/
def nameFound : CType → Bool
  | .base _ _ => true
  | .pointer _ t => nameFound t
  | .array _ _ => false
  | .function _ result => nameFound result

/-- Each parameter has a text, at most one place for a name in it, and no variadic function. -/
def ParamsShown : CParams → Prop
  | .nil | .ellipsis => True
  | .cons t rest => (printable t = true ∧ typeHoles t ≤ 1 ∧ hasEllipsis t = false) ∧ ParamsShown rest

/-- Piece `i` is an ellipsis where node `i` is one, and there is one exactly in the pieces of a variadic function; as
many other pieces are there as the declaration has named parameters. -/
structure PiecesKeep (d : FunctionDecl) (args : Option Node) (pieces : List Str) : Prop where
  each : ∀ nodes, args = some (.paramList nodes) → ∀ (idx : Nat) n, nodes[idx]? = some n →
    (pieces[idx]? = some "...".toList ↔ n = .ellipsisParam)
  dots : "...".toList ∈ pieces ↔ variadic d.params = true
  named : (pieces.filter fun piece => piece ≠ "...".toList).length = (paramNames 0 (effective d.params)).length

/-- A head is made, and its pieces keep the ellipsis. -/
def EllipsisKept (d : FunctionDecl) (args : Option Node) (type : Node) : Prop :=
  ∃ result pts pieces, paramTypes args = .ok pts ∧ headParams pts = .ok pieces ∧
    stubHead args type = .ok (result ++ ' ' :: d.name ++ '(' :: ", ".toList.intercalate pieces ++ [')']) ∧
    PiecesKeep d args pieces

/-! ### Types that have a text -/

theorem getType_ok_pointer {t : CType} (object : ∀ params result, t ≠ .function params result)
    (target_ok : ∀ {declname n}, IsTypeNode t declname n → ((∃ text, getType n = .ok text) ↔ printable t = true))
    {quals : Finset Qualifier} {declname : Option Str} {n : Node} (node : IsTypeNode (.pointer quals t) declname n) :
    (∃ text, getType n = .ok text) ↔ printable t = true := by
  obtain ⟨texts, m, rfl, written, target⟩ := node
  rw [getType_ptrDecl (not_funcDecl object target), ← target_ok target]
  constructor
  · rintro ⟨text, made⟩
    obtain ⟨targetText, targetMade, _⟩ := bind_ok.mp made
    exact ⟨targetText, targetMade⟩
  · rintro ⟨text, made⟩
    exact ⟨_, bind_ok.mpr ⟨text, made, rfl⟩⟩

theorem getParam_ok {t : CType}
    (type_ok : ∀ {declname n}, IsTypeNode t declname n → ((∃ text, getType n = .ok text) ↔ printable t = true))
    {n : Node} (node : IsParamNode t n) : (∃ text, getType n = .ok text) ↔ printable t = true := by
  obtain ⟨texts, m, written, ⟨name, rfl, target⟩ | ⟨rfl, target⟩⟩ := node
  all_goals
    rw [← type_ok target]
    constructor
    · rintro ⟨text, made⟩
      obtain ⟨typeText, typeMade, _⟩ := bind_ok.mp made
      exact ⟨typeText, typeMade⟩
    · rintro ⟨text, made⟩
      exact ⟨_, bind_ok.mpr ⟨text, made, rfl⟩⟩

mutual

theorem getType_ok : ∀ {t : CType} {declname : Option Str} {n : Node}, IsTypeNode t declname n →
    ((∃ text, getType n = .ok text) ↔ printable t = true)
  | .base _ _, _, _, node => by
    obtain ⟨texts, m, rfl, _, base⟩ := node
    exact iff_of_true ⟨_, bind_ok.mpr ⟨_, getType_base base, rfl⟩⟩ rfl
  | .pointer _ (.function params result), _, _, node => by
    obtain ⟨texts, m, rfl, _, args, type, rfl, target, listed⟩ := node
    obtain ⟨nodes, paramNodes, same⟩ := exists_param_nodes listed
    rw [getType_functionPointer, same, printable, Bool.and_eq_true, ← getType_ok target, ← getTypes_ok paramNodes]
    constructor
    · rintro ⟨text, made⟩
      obtain ⟨resultText, resultMade, made⟩ := bind_ok.mp made
      obtain ⟨paramTexts, paramsMade, _⟩ := bind_ok.mp made
      exact ⟨⟨resultText, resultMade⟩, paramTexts, paramsMade⟩
    · rintro ⟨⟨resultText, resultMade⟩, paramTexts, paramsMade⟩
      exact ⟨_, bind_ok.mpr ⟨_, resultMade, bind_ok.mpr ⟨_, paramsMade, rfl⟩⟩⟩
  | .pointer _ (.base quals b), _, _, node => getType_ok_pointer (by simp) (@getType_ok (.base quals b)) node
  | .pointer _ (.pointer quals t), _, _, node => getType_ok_pointer (by simp) (@getType_ok (.pointer quals t)) node
  | .pointer _ (.array length t), _, _, node => getType_ok_pointer (by simp) (@getType_ok (.array length t)) node
  | .array _ t, _, _, node => by
    obtain ⟨m, dim, rfl, _, element⟩ := node
    rw [printable, ← @getType_ok t _ m element]
    constructor
    · rintro ⟨text, made⟩
      obtain ⟨elementText, elementMade, _⟩ := bind_ok.mp made
      exact ⟨elementText, elementMade⟩
    · rintro ⟨text, made⟩
      exact ⟨_, bind_ok.mpr ⟨text, made, rfl⟩⟩
  | .function _ _, _, _, node => by
    obtain ⟨args, type, rfl, _⟩ := node
    refine iff_of_false ?_ Bool.false_ne_true
    rintro ⟨text, made⟩
    rw [getType] at made
    obtain ⟨_, _, made⟩ := bind_ok.mp made
    cases made

theorem getTypes_ok : ∀ {ps : CParams} {nodes : List Node}, IsParams ps nodes →
    ((∃ texts, getTypes nodes = .ok texts) ↔ printables ps = true)
  | .nil, _, node => by
    obtain rfl := node
    exact iff_of_true ⟨_, rfl⟩ rfl
  | .ellipsis, _, node => by
    obtain rfl := node
    exact iff_of_true ⟨_, rfl⟩ rfl
  | .cons t rest, _, node => by
    obtain ⟨n, more, rfl, later, here⟩ := node
    rw [printables, Bool.and_eq_true, ← getParam_ok (@getType_ok t) here, ← getTypes_ok later]
    constructor
    · rintro ⟨texts, made⟩
      obtain ⟨text, textMade, made⟩ := bind_ok.mp made
      obtain ⟨texts, textsMade, _⟩ := bind_ok.mp made
      exact ⟨⟨text, textMade⟩, texts, textsMade⟩
    · rintro ⟨⟨text, textMade⟩, texts, textsMade⟩
      exact ⟨_, bind_ok.mpr ⟨_, textMade, bind_ok.mpr ⟨_, textsMade, rfl⟩⟩⟩

end

theorem getName_found : ∀ {t : CType} {declname : Option Str} {n : Node}, IsTypeNode t declname n →
    ((∃ name, getName n = .ok name) ↔ nameFound t = true)
  | .base _ _, _, _, node => by
    obtain ⟨_, _, rfl, _⟩ := node
    exact iff_of_true ⟨_, rfl⟩ rfl
  | .pointer _ t, _, _, node => by
    obtain ⟨_, m, rfl, _, target⟩ := node
    exact @getName_found t _ m target
  | .array _ _, _, _, node => by
    obtain ⟨_, _, rfl, _⟩ := node
    exact iff_of_false (fun ⟨_, made⟩ => nomatch made) Bool.false_ne_true
  | .function _ result, _, _, node => by
    obtain ⟨_, m, rfl, target, _⟩ := node
    exact @getName_found result _ m target

/-! ### What is shown as an ellipsis -/

theorem piece_ne_dots {n idx : Nat} {text piece : Str} (holes : Holes n text) (noDots : '.' ∉ text)
    (shown : headPiece idx text = .ok piece) : piece ≠ "...".toList := by
  obtain ⟨front, back, _, rfl, _⟩ := headPiece_filled holes noDots shown
  intro same
  have letter : 'p' ∈ paramName idx := by
    delta paramName
    exact List.mem_append_left _ (by decide)
  have inside : 'p' ∈ "...".toList := same ▸ List.mem_append_left _ (List.mem_append_right _ letter)
  exact absurd inside (by decide)

/-- A text without an ellipsis becomes a piece if it has no second place for a name. -/
theorem headPiece_ok_iff {n idx : Nat} {text : Str} (holes : Holes n text) (noDots : '.' ∉ text) :
    (∃ piece, headPiece idx text = .ok piece) ↔ n ≤ 1 := by
  constructor
  · rintro ⟨piece, shown⟩
    obtain ⟨_, _, _, _, ⟨none, _⟩ | ⟨one, _⟩⟩ := headPiece_filled holes noDots shown <;> omega
  · intro few
    match n with
    | 0 => exact ⟨_, headPiece_none idx holes noDots⟩
    | 1 =>
      obtain ⟨front, back, rfl, before, behind⟩ := holes.split
      exact ⟨_, headPiece_one idx before behind noDots⟩

/-- At most one piece other than an ellipsis is made of each parameter, and none of one that is not shown. -/
theorem pieces_shown {idx : Nat} {ps : CParams} {pieces : List Str} (made : Pieces idx ps pieces) (named : WellNamedParams ps) :
    (pieces.filter fun piece => piece ≠ "...".toList).length ≤ (paramNames idx ps).length ∧
      ((pieces.filter fun piece => piece ≠ "...".toList).length = (paramNames idx ps).length → ParamsShown ps) := by
  induction made with
  | nil => exact ⟨Nat.le_refl _, fun _ => trivial⟩
  | ellipsis => exact ⟨Nat.le_refl _, fun _ => trivial⟩
  | @cons idx t rest n text piece pieces here textMade pieceMade _ ih =>
    obtain ⟨most, shown⟩ := ih named.2
    have printed := getParam_prints named.1 here textMade
    rw [paramNames, List.length_cons]
    cases ellipsis : hasEllipsis t with
    | true =>
      rw [headPiece, if_pos (printed.dots ellipsis)] at pieceMade
      obtain rfl := Except.ok.inj pieceMade
      rw [List.filter_cons_of_neg (by simp)]
      exact ⟨Nat.le_succ_of_le most, fun same => absurd most (by omega)⟩
    | false =>
      have noDots := printed.noDots ellipsis
      rw [List.filter_cons_of_pos (by simpa using piece_ne_dots printed.holes noDots pieceMade), List.length_cons]
      refine ⟨Nat.succ_le_succ most, fun same => ⟨⟨?_, ?_, ellipsis⟩, shown (Nat.succ.inj same)⟩⟩
      · exact (getParam_ok (@getType_ok t) here).mp ⟨text, textMade⟩
      · exact (headPiece_ok_iff printed.holes noDots).mp ⟨piece, pieceMade⟩

/-- The pieces of parameters that are shown. -/
structure PiecesOf (idx : Nat) (ps : CParams) (nodes : List Node) (pieces : List Str) : Prop where
  each : ∀ (k : Nat) n, nodes[k]? = some n → (pieces[k]? = some "...".toList ↔ n = .ellipsisParam)
  dots : "...".toList ∈ pieces ↔ variadic ps = true
  named : (pieces.filter fun piece => piece ≠ "...".toList).length = (paramNames idx ps).length

theorem ParamsShown.pieces {ps : CParams} (shown : ParamsShown ps) (named : WellNamedParams ps) {nodes : List Node}
    (node : IsParams ps nodes) (idx : Nat) : ∃ pts pieces, getTypes nodes = .ok pts ∧
      (pts.zipIdx idx).mapM (fun item => headPiece item.2 item.1) = .ok pieces ∧ PiecesOf idx ps nodes pieces := by
  induction idx, ps using paramNames.induct generalizing nodes with
  | case1 idx =>
    obtain rfl := node
    exact ⟨[], [], rfl, rfl, by simp, iff_of_false List.not_mem_nil Bool.false_ne_true, rfl⟩
  | case2 idx =>
    obtain rfl := node
    refine ⟨["...".toList], ["...".toList], rfl, ?_, ?_, iff_of_true List.mem_cons_self rfl, rfl⟩
    · rw [List.zipIdx_singleton, List.mapM_cons, headPiece_ellipsis]
      rfl
    · intro k n there
      cases k with
      | zero => exact iff_of_true rfl (Option.some.inj there).symm
      | succ k => cases there
  | case3 idx t rest ih =>
    obtain ⟨n, more, rfl, later, here⟩ := node
    obtain ⟨⟨text, few, plain⟩, shownRest⟩ := shown
    obtain ⟨pts, pieces, ptsMade, piecesMade, of⟩ := ih shownRest named.2 later
    obtain ⟨pt, ptMade⟩ := (getParam_ok (@getType_ok t) here).mpr text
    have printed := getParam_prints named.1 here ptMade
    have noDots := printed.noDots plain
    obtain ⟨piece, pieceMade⟩ := (@headPiece_ok_iff _ idx _ printed.holes noDots).mpr few
    have other := piece_ne_dots printed.holes noDots pieceMade
    have node : n ≠ .ellipsisParam := by
      rintro rfl
      obtain ⟨_, _, _, ⟨_, same, _⟩ | ⟨same, _⟩⟩ := here <;> cases same
    refine ⟨pt :: pts, piece :: pieces, bind_ok.mpr ⟨_, ptMade, bind_ok.mpr ⟨_, ptsMade, rfl⟩⟩, ?_, ?_, ?_, ?_⟩
    · rw [List.zipIdx_cons, List.mapM_cons, pieceMade, piecesMade]
      rfl
    · intro k n' there
      cases k with
      | zero =>
        obtain rfl := Option.some.inj there
        exact iff_of_false (fun same => other (Option.some.inj same)) node
      | succ k => exact of.each k n' there
    · rw [List.mem_cons, or_iff_right (Ne.symm other), of.dots]
      rfl
    · rw [List.filter_cons_of_pos (by simpa using other), List.length_cons, of.named]
      rfl

/-- The pieces of a declaration whose parameters are shown. -/
theorem shown_pieces {d : FunctionDecl} (proper : d.Proper) {args : Option Node} {type : Node} (node : d.IsNode args type)
    (shown : ParamsShown (effective d.params)) :
    ∃ pts pieces, paramTypes args = .ok pts ∧ headParams pts = .ok pieces ∧ PiecesKeep d args pieces := by
  obtain ⟨args', m, same, _, listed⟩ := node
  obtain ⟨rfl, rfl⟩ := Node.funcDecl.inj same
  have nodes : ∃ nodes, IsParams d.params nodes ∧ paramTypes args = getTypes nodes ∧
      ∀ nodes', args = some (.paramList nodes') → nodes' = nodes := by
    rcases listed with ⟨nodes, rfl, _, params⟩ | ⟨rfl, params⟩
    · exact ⟨nodes, params, rfl, fun _ same => (Node.paramList.inj (Option.some.inj same)).symm⟩
    · exact ⟨[], params, rfl, fun _ wrong => by cases wrong⟩
  obtain ⟨nodes, params, types, unique⟩ := nodes
  rcases effective_cases d.params with ⟨void, none⟩ | whole
  · rw [void] at params
    obtain ⟨n, more, rfl, rfl, param⟩ := params
    refine ⟨["void".toList], [], ?_, rfl, ?_, ?_, ?_⟩
    · rw [types, getTypes, isTypeNode_void param]
      rfl
    · intro nodes' listed idx n' there
      rw [unique nodes' listed] at there
      obtain rfl := List.mem_singleton.mp (List.mem_of_getElem? there)
      obtain ⟨_, _, _, ⟨_, rfl, _⟩ | ⟨rfl, _⟩⟩ := param
      all_goals exact iff_of_false (fun wrong => by cases wrong) (fun wrong => by cases wrong)
    · rw [void]
      exact iff_of_false List.not_mem_nil Bool.false_ne_true
    · rw [none]
      rfl
  · have objects := proper.objects
    rw [whole] at shown objects
    obtain ⟨pts, pieces, ptsMade, piecesMade, keep⟩ := shown.pieces proper.params params 0
    refine ⟨pts, pieces, types.trans ptsMade, ?_, ?_, keep.dots, ?_⟩
    · rw [headParams_eq (params_ne_void proper.params objects params ptsMade), piecesMade]
    · intro nodes' listed idx n there
      exact keep.each idx n (unique nodes' listed ▸ there)
    · rw [whole]
      exact keep.named

/-- A head keeps the ellipsis exactly where `get_type` and `get_name` have a text for the result, and each parameter has
a text with at most one place for its name and without a variadic function. -/
theorem ellipsisKept_iff {d : FunctionDecl} (proper : d.Proper) {args : Option Node} {type : Node} (node : d.IsNode args type) :
    EllipsisKept d args type ↔
      printable d.result = true ∧ nameFound d.result = true ∧ ParamsShown (effective d.params) := by
  constructor
  · rintro ⟨result, pts, pieces, ptsMade, piecesMade, head, keep⟩
    obtain ⟨name, text, _, _, nameMade, textMade, _⟩ := stubHead_ok.mp head
    refine ⟨(getType_ok node.result).mp ⟨text, textMade⟩, (getName_found node.result).mp ⟨_, nameMade⟩, ?_⟩
    obtain ⟨nodes, params, shown⟩ := proper.pieces node
    obtain ⟨pts', made, pieces'⟩ := (shown pieces).mp ⟨pts, ptsMade, piecesMade⟩
    exact (pieces_shown (pieces_of_made params made pieces') (effective_params proper.params trivial)).2 keep.named
  · rintro ⟨text, found, shown⟩
    obtain ⟨pts, pieces, ptsMade, piecesMade, keep⟩ := shown_pieces proper node shown
    obtain ⟨result, resultMade⟩ := (getType_ok node.result).mpr text
    obtain ⟨name, nameMade⟩ := (getName_found node.result).mpr found
    obtain rfl := getName_ok node.result nameMade
    exact ⟨result, pts, pieces, ptsMade, piecesMade,
      stubHead_ok.mpr ⟨d.name, result, pts, pieces, nameMade, resultMade, ptsMade, piecesMade, rfl⟩, keep⟩

def callbackType (params : CParams) : CType := .pointer ∅ (.function params intType)

def callbackNode (name : Str) (params : List Node) : Node :=
  .decl (some name) [] (.ptrDecl [] (.funcDecl (some (.paramList params)) (intNode (some name)))) none none

theorem isParamNode_callback (name : Str) {ps : CParams} {nodes : List Node} (some' : nodes ≠ []) (params : IsParams ps nodes) :
    IsParamNode (callbackType ps) (callbackNode name nodes) :=
  ⟨_, _, no_quals, Or.inl ⟨_, rfl, _, _, rfl, no_quals, _, _, rfl, isTypeNode_int _, Or.inl ⟨_, rfl, some', params⟩⟩⟩

theorem isParams_int {ps : CParams} {nodes : List Node} (rest : IsParams ps nodes) :
    IsParams (.cons intType ps) (.typename [] (intNode none) :: nodes) :=
  ⟨_, _, rfl, rest, _, _, no_quals, Or.inr ⟨rfl, isTypeNode_int _⟩⟩

/-- `int f(int (*cb)(int), ...)` -/
def formatDecl : FunctionDecl := ⟨['f'], .cons (callbackType (.cons intType .nil)) .ellipsis, intType⟩

theorem formatDecl_kept : ∃ args type, formatDecl.IsNode args type ∧ EllipsisKept formatDecl args type := by
  have name : Identifier ['f'] := .of (by decide)
  have proper : formatDecl.Proper :=
    ⟨name, ⟨⟨wellNamed_int, wellNamed_int, trivial⟩, trivial⟩, wellNamed_int, ⟨rfl, trivial⟩⟩
  have callback := isParamNode_callback ['c', 'b'] (List.cons_ne_nil _ _) (@isParams_int .nil [] rfl)
  have node : formatDecl.IsNode (some (.paramList [callbackNode ['c', 'b'] [.typename [] (intNode none)], .ellipsisParam]))
      (intNode (some ['f'])) :=
    ⟨_, _, rfl, isTypeNode_int _, Or.inl ⟨_, rfl, List.cons_ne_nil _ _, _, _, rfl, rfl, callback⟩⟩
  exact ⟨_, _, node, (ellipsisKept_iff proper node).mpr ⟨rfl, rfl, ⟨rfl, by decide, rfl⟩, trivial⟩⟩

/-- `int f(int (*cb)(int, ...))` -/
def loggerDecl : FunctionDecl := ⟨['f'], .cons (callbackType (.cons intType .ellipsis)) .nil, intType⟩

theorem loggerDecl_not_kept : ∃ args type, loggerDecl.Proper ∧ loggerDecl.IsNode args type ∧
    ¬ EllipsisKept loggerDecl args type := by
  have name : Identifier ['f'] := .of (by decide)
  have proper : loggerDecl.Proper :=
    ⟨name, ⟨⟨wellNamed_int, wellNamed_int, trivial⟩, trivial⟩, wellNamed_int, ⟨rfl, trivial⟩⟩
  have callback := isParamNode_callback ['c', 'b'] (List.cons_ne_nil _ _) (@isParams_int .ellipsis [.ellipsisParam] rfl)
  have node : loggerDecl.IsNode
      (some (.paramList [callbackNode ['c', 'b'] [.typename [] (intNode none), .ellipsisParam]])) (intNode (some ['f'])) :=
    ⟨_, _, rfl, isTypeNode_int _, Or.inl ⟨_, rfl, List.cons_ne_nil _ _, _, _, rfl, rfl, callback⟩⟩
  refine ⟨_, _, proper, node, ?_⟩
  rintro ⟨result, pts, pieces, ptsMade, piecesMade, _, keep⟩
  obtain rfl : ["int(*\x7b\x7d)(int, ...)".toList] = pts := Except.ok.inj ptsMade
  obtain rfl : ["...".toList] = pieces := Except.ok.inj piecesMade
  cases (keep.each _ rfl 0 _ rfl).mp rfl

end Tbf
