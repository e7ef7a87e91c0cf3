import Tbf.Ast
import Tbf.Library.CDeclaration

/-!
# The head of a stub, read as C

`get_type` prints a type into one string, with `{}` where the name goes, and `get_method_head` puts the
strings together. Here the text is read back by the grammar of C.
-/

namespace Tbf
open Text CDeclaration

/-! ### Declarations and their trees -/

/-- The type at the end of the spine: the words in front of the declarator qualify it. -/
def baseQuals : CType → Finset Qualifier
  | .base quals _ => quals
  | .pointer _ t | .array _ t => baseQuals t
  | .function _ result => baseQuals result

/-- A list of qualifiers as pycparser keeps it, in any order and with repetitions. -/
def QualTexts (texts : List Str) (quals : Finset Qualifier) : Prop :=
  ∃ list : List Qualifier, list.toFinset = quals ∧ texts = list.map Qualifier.text

def IsBaseNode : Base → Node → Prop
  | .builtin words, n => n = .identifierType words
  | .named name, n => n = .identifierType [name]
  | .tagged .struct tag, n => ∃ decls, n = .struct (some tag) decls
  | .tagged .union tag, n => ∃ decls, n = .union (some tag) decls
  | .tagged .enum tag, n => ∃ values, n = .enum (some tag) values

mutual

/-- The tree of a declarator with this name and type: from the outermost part of the type to the base. -/
def IsTypeNode : CType → Option Str → Node → Prop
  | .base quals b, declname, n => ∃ texts m, n = .typeDecl declname texts m ∧ QualTexts texts quals ∧ IsBaseNode b m
  | .pointer quals t, declname, n =>
    ∃ texts m, n = .ptrDecl texts m ∧ QualTexts texts quals ∧ IsTypeNode t declname m
  | .array length t, declname, n =>
    ∃ m dim, n = .arrayDecl m dim ∧ dim.isSome = length.isSome ∧ IsTypeNode t declname m
  | .function params result, declname, n => ∃ args m, n = .funcDecl args m ∧ IsTypeNode result declname m ∧
      ((∃ nodes, args = some (.paramList nodes) ∧ nodes ≠ [] ∧ IsParams params nodes) ∨
        args = none ∧ IsParams params [])

/-- The nodes of a parameter list. A `Decl`, or a `Typename` where the parameter has no name, repeats the
qualifiers of the base. -/
def IsParams : CParams → List Node → Prop
  | .nil, nodes => nodes = []
  | .ellipsis, nodes => nodes = [.ellipsisParam]
  | .cons t rest, nodes => ∃ n more, nodes = n :: more ∧ IsParams rest more ∧ ∃ texts m,
      QualTexts texts (baseQuals t) ∧
        ((∃ name, n = .decl (some name) texts m none none ∧ IsTypeNode t (some name) m) ∨
          n = .typename texts m ∧ IsTypeNode t none m)

end

structure FunctionDecl where
  name : Str
  params : CParams
  result : CType

def FunctionDecl.IsNode (d : FunctionDecl) (args : Option Node) (type : Node) : Prop :=
  IsTypeNode (.function d.params d.result) (some d.name) (.funcDecl args type)

theorem FunctionDecl.IsNode.result {d : FunctionDecl} {args : Option Node} {type : Node} (node : d.IsNode args type) :
    IsTypeNode d.result (some d.name) type := by
  obtain ⟨args', m, same, result, _⟩ := node
  obtain ⟨rfl, rfl⟩ := Node.funcDecl.inj same
  exact result

/-! ### What a head has to say -/

def voidType : CType := .base ∅ (.builtin ["void".toList])

/-- The list `(void)` has no parameters in it. -/
def effective : CParams → CParams
  | .cons (.base quals (.builtin words)) .nil => if quals = ∅ ∧ words = ["void".toList] then .nil else
      .cons (.base quals (.builtin words)) .nil
  | params => params

/-- The type of a parameter apart from the qualifiers of the parameter itself, and from the length of an
array, which C adjusts to a pointer anyway. -/
def asParameter : CType → CType
  | .base _ b => .base ∅ b
  | .pointer _ t => .pointer ∅ t
  | .array _ t => .array none t
  | .function params result => .function params result

def adjusted : CParams → CParams
  | .nil => .nil
  | .ellipsis => .ellipsis
  | .cons t rest => .cons (asParameter t) (adjusted rest)

def paramNames (idx : Nat) : CParams → List (Option Str)
  | .nil | .ellipsis => []
  | .cons _ rest => some (paramName idx) :: paramNames (idx + 1) rest

/-- The text declares the function again, with its parameters named `param0`, `param1` and so on. -/
def Redeclares (d : FunctionDecl) (head : Str) : Prop :=
  ∃ params : Params, DeclaresFunction head d.name params d.result ∧ params.names = paramNames 0 (effective d.params) ∧
    adjusted params.types = adjusted (effective d.params)

/-- What the stub of the function starts with. -/
def stubHead (args : Option Node) (type : Node) : Except Raised Str := do
  let info ← prettify args type
  match info.name with
  | some name => getMethodHead name info.type info.params
  | none => .error .typeError

/-- There is a head, and it declares the function again. -/
def Faithful (d : FunctionDecl) (args : Option Node) (type : Node) : Prop :=
  ∃ head, stubHead args type = .ok head ∧ Redeclares d head

mutual

/-- All names in the type are names in C. -/
def WellNamed : CType → Prop
  | .base _ b => b.Valid
  | .pointer _ t => WellNamed t
  | .array _ t => WellNamed t
  | .function params result => WellNamed result ∧ WellNamedParams params

def WellNamedParams : CParams → Prop
  | .nil | .ellipsis => True
  | .cons t rest => WellNamed t ∧ WellNamedParams rest

end

def isVoid : CType → Bool
  | .base _ b => b == .builtin ["void".toList]
  | _ => false

/-- Parameters are not of type `void`. -/
def Objects : CParams → Prop
  | .nil | .ellipsis => True
  | .cons t rest => isVoid t = false ∧ Objects rest

/-- A declaration as C has it: a named function whose parameters are objects. -/
structure FunctionDecl.Proper (d : FunctionDecl) : Prop where
  name : Identifier d.name
  params : WellNamedParams d.params
  result : WellNamed d.result
  objects : Objects (effective d.params)

/-- No parameter uses a typedef that has the name of an earlier parameter of the head. -/
def Unhidden (idx : Nat) : CParams → Prop
  | .nil | .ellipsis => True
  | .cons t rest => (∀ name ∈ t.typedefs, ∀ j < idx, name ≠ paramName j) ∧ Unhidden (idx + 1) rest

/-! ### The text of a type as tokens -/

theorem lex_joinWords (words : List Str) : lex (joinWords words) = words.flatMap lex := by
  unfold joinWords
  induction words with
  | nil => rfl
  | cons w words ih =>
    cases words with
    | nil => simp
    | cons v words =>
      rw [List.intercalate_cons_cons, List.flatMap_cons, ← ih, List.append_assoc]
      exact lex_blank w _

theorem lex_isWord {w : Str} (word : IsWord w) : lex w = [.word w] := lex_word word.1 word.2

theorem isWord_keyword {w : Str} (member : w ∈ keywords) : IsWord w := by
  have all : ∀ w ∈ keywords, w ≠ [] ∧ w.all isWordChar = true := by
    unfold keywords typeKeywords
    decide
  obtain ⟨nonempty, chars⟩ := all w member
  exact ⟨nonempty, fun c inside => List.all_eq_true.mp chars c inside⟩

theorem qualifier_mem_keywords (q : Qualifier) : q.text ∈ keywords := by
  cases q <;> decide

theorem kind_mem_keywords (kind : TagKind) : kind.text ∈ keywords := by
  cases kind <;> decide

theorem isWord_of_mem_words {b : Base} (valid : b.Valid) {w : Str} (member : w ∈ b.words) : IsWord w := by
  cases b with
  | builtin words => exact isWord_keyword (List.mem_append_left _ (valid.2 w member))
  | named name =>
    obtain rfl := List.mem_singleton.mp member
    exact valid.1
  | tagged kind tag =>
    rcases List.mem_cons.mp member with rfl | member
    · exact isWord_keyword (kind_mem_keywords kind)
    · obtain rfl := List.mem_singleton.mp member
      exact valid.1

theorem kind_ne_qualifier (kind : TagKind) (q : Qualifier) : kind.text ≠ q.text := by
  cases kind <;> cases q <;> decide

theorem typeKeyword_ne_qualifier {w : Str} (member : w ∈ typeKeywords) (q : Qualifier) : w ≠ q.text := by
  rintro rfl
  revert member
  cases q <;> decide

theorem not_qualifier_of_mem_words {b : Base} (valid : b.Valid) {w : Str} (member : w ∈ b.words) :
    (Qualifier.ofText w).isNone = true := by
  have ofIdentifier : ∀ {w}, Identifier w → ∀ q : Qualifier, w ≠ q.text :=
    fun free q same => free.2 (same ▸ qualifier_mem_keywords q)
  apply Qualifier.ofText_eq_none
  cases b with
  | builtin words => exact typeKeyword_ne_qualifier (valid.2 w member)
  | named name =>
    obtain rfl := List.mem_singleton.mp member
    exact ofIdentifier valid
  | tagged kind tag =>
    rcases List.mem_cons.mp member with rfl | member
    · exact kind_ne_qualifier kind
    · obtain rfl := List.mem_singleton.mp member
      exact ofIdentifier valid

/-- `get_type` of the node at the end of a spine. -/
theorem getType_base {b : Base} {n : Node} (node : IsBaseNode b n) : getType n = .ok (joinWords b.words) := by
  cases b with
  | builtin words =>
    obtain rfl := node
    rfl
  | named name =>
    obtain rfl := node
    rfl
  | tagged kind tag =>
    have joined : joinWords [kind.text, tag] = kind.text ++ ' ' :: tag := by
      simp [joinWords, List.intercalate_cons_cons]
    cases kind with
    | struct =>
      obtain ⟨decls, rfl⟩ := node
      rw [Base.words, joined]
      rfl
    | union =>
      obtain ⟨decls, rfl⟩ := node
      rw [Base.words, joined]
      rfl
    | enum =>
      obtain ⟨values, rfl⟩ := node
      rw [Base.words, joined]
      rfl

theorem flatMap_lex {words : List Str} (all : ∀ w ∈ words, IsWord w) : words.flatMap lex = words.map .word := by
  induction words with
  | nil => rfl
  | cons w words ih =>
    obtain ⟨here, rest⟩ := List.forall_mem_cons.mp all
    rw [List.flatMap_cons, lex_isWord here, ih rest]
    rfl

theorem lex_base {b : Base} (valid : b.Valid) : lex (joinWords b.words) = b.words.map .word := by
  rw [lex_joinWords, flatMap_lex fun w member => isWord_of_mem_words valid member]

/-- What of the qualifiers is printed behind, and what is printed in front. -/
def behind (quals : Finset Qualifier) : List Qualifier := if .const ∈ quals then [.const] else []

def inFront (quals : Finset Qualifier) : List Qualifier := if .volatile ∈ quals then [.volatile] else []

theorem contains_qualTexts {texts : List Str} {quals : Finset Qualifier} (written : QualTexts texts quals)
    (q : Qualifier) : texts.contains q.text = decide (q ∈ quals) := by
  obtain ⟨list, rfl, rfl⟩ := written
  rw [Bool.eq_iff_iff, List.contains_iff_mem, decide_eq_true_eq, List.mem_toFinset]
  constructor
  · intro member
    obtain ⟨p, inList, same⟩ := List.mem_map.mp member
    exact Qualifier.text_injective same ▸ inList
  · exact fun member => List.mem_map_of_mem member

theorem static_not_written {texts : List Str} {quals : Finset Qualifier} (written : QualTexts texts quals) :
    texts.contains "static".toList = false := by
  obtain ⟨list, rfl, rfl⟩ := written
  rw [← Bool.not_eq_true, List.contains_iff_mem]
  intro member
  obtain ⟨p, _, same⟩ := List.mem_map.mp member
  revert same
  cases p <;> decide

theorem qualify_written {texts : List Str} {quals : Finset Qualifier} (written : QualTexts texts quals) (isDecl : Bool)
    (parts : List Str) : qualify isDecl texts parts = joinWords ((inFront quals).map Qualifier.text ++
      (parts ++ if isDecl then [] else (behind quals).map Qualifier.text)) := by
  have hasConst : texts.contains "const".toList = _ := contains_qualTexts written .const
  have hasVolatile : texts.contains "volatile".toList = _ := contains_qualTexts written .volatile
  unfold qualify
  rw [hasConst, hasVolatile, static_not_written written, behind, inFront]
  cases isDecl <;> by_cases c : Qualifier.const ∈ quals <;> by_cases v : Qualifier.volatile ∈ quals <;>
    simp only [c, v, if_true, if_false, decide_true, decide_false, Bool.not_true, Bool.not_false, Bool.and_true,
      Bool.and_false, Bool.false_eq_true, List.map_nil, List.append_nil, List.nil_append] <;> rfl

theorem flatMap_lex_quals (quals : List Qualifier) : (quals.map Qualifier.text).flatMap lex = qualTokens quals := by
  rw [flatMap_lex, qualTokens, List.map_map]
  · rfl
  · intro w member
    obtain ⟨q, _, rfl⟩ := List.mem_map.mp member
    exact isWord_keyword (qualifier_mem_keywords q)

theorem lex_qualify {texts : List Str} {quals : Finset Qualifier} (written : QualTexts texts quals) (isDecl : Bool)
    (parts : List Str) : lex (qualify isDecl texts parts) =
      qualTokens (inFront quals) ++ parts.flatMap lex ++ if isDecl then [] else qualTokens (behind quals) := by
  rw [qualify_written written, lex_joinWords, List.flatMap_append, List.flatMap_append, flatMap_lex_quals,
    List.append_assoc]
  cases isDecl with
  | false => rw [if_neg Bool.false_ne_true, if_neg Bool.false_ne_true, flatMap_lex_quals]
  | true => rfl

/-! ### Chains of pointers -/

def IsChain : CType → Prop
  | .base _ _ => True
  | .pointer _ t => IsChain t
  | .array _ _ | .function _ _ => False

def ChainParams : CParams → Prop
  | .nil | .ellipsis => True
  | .cons t rest => IsChain t ∧ ChainParams rest

/-- The text of a chain: the qualifiers around the words of the base, and those behind each star. -/
structure ChainText where
  before : List Qualifier
  base : Base
  behind : List Qualifier
  levels : List (List Qualifier)

namespace ChainText

def tokens (c : ChainText) : List Token :=
  qualTokens c.before ++ c.base.words.map .word ++ qualTokens c.behind ++ levelTokens c.levels

def prepend (quals : List Qualifier) (c : ChainText) : ChainText := { c with before := quals ++ c.before }

def point (quals : List Qualifier) (c : ChainText) : ChainText := { c with levels := c.levels ++ [quals] }

/-- Qualifiers at the very end: those of the last star, or of the base if there is none. -/
def append (quals : List Qualifier) (c : ChainText) : ChainText :=
  match c.levels.getLast? with
  | none => { c with behind := c.behind ++ quals }
  | some last => { c with levels := c.levels.dropLast ++ [last ++ quals] }

def type (c : ChainText) : CType :=
  c.levels.foldl (fun t quals => .pointer quals.toFinset t) (.base (c.before ++ c.behind).toFinset c.base)

theorem qualTokens_append (quals more : List Qualifier) :
    qualTokens (quals ++ more) = qualTokens quals ++ qualTokens more := List.map_append

theorem tokens_prepend (quals : List Qualifier) (c : ChainText) :
    (c.prepend quals).tokens = qualTokens quals ++ c.tokens := by
  simp [tokens, prepend, qualTokens_append]

theorem levelTokens_concat (levels : List (List Qualifier)) (quals : List Qualifier) :
    levelTokens (levels ++ [quals]) = levelTokens levels ++ .punct '*' :: qualTokens quals := by
  simp [levelTokens]

theorem tokens_point (quals : List Qualifier) (c : ChainText) :
    (c.point quals).tokens = c.tokens ++ .punct '*' :: qualTokens quals := by
  simp [tokens, point, levelTokens_concat]

theorem tokens_append (quals : List Qualifier) (c : ChainText) :
    (c.append quals).tokens = c.tokens ++ qualTokens quals := by
  rcases List.eq_nil_or_concat c.levels with none | ⟨levels, last, some⟩
  · simp [tokens, append, none, levelTokens, qualTokens_append]
  · simp [tokens, append, some, levelTokens_concat, qualTokens_append]

def spec (c : ChainText) (valid : c.base.Valid) : Specifiers where
  words := c.before.map Qualifier.text ++ c.base.words ++ c.behind.map Qualifier.text
  base := c.base
  valid := valid
  split := by
    have qualifiers : ∀ quals : List Qualifier,
        (quals.map Qualifier.text).filter (fun w => (Qualifier.ofText w).isNone) = [] := by
      intro quals
      rw [List.filter_eq_nil_iff]
      intro w member
      obtain ⟨q, _, rfl⟩ := List.mem_map.mp member
      simp [Qualifier.ofText_text]
    rw [List.filter_append, List.filter_append, qualifiers, qualifiers, List.nil_append, List.append_nil,
      List.filter_eq_self.mpr fun w member => not_qualifier_of_mem_words valid member]

theorem tokens_spec (c : ChainText) (valid : c.base.Valid) : (c.spec valid).tokens ++ levelTokens c.levels = c.tokens := by
  simp only [spec, Specifiers.tokens, tokens, qualTokens, List.map_append, List.map_map]
  rfl

theorem type_spec (c : ChainText) (valid : c.base.Valid) : (c.spec valid).type = .base (c.before ++ c.behind).toFinset c.base := by
  have qualifiers : ∀ quals : List Qualifier, (quals.map Qualifier.text).filterMap Qualifier.ofText = quals := by
    intro quals
    have back : Qualifier.ofText ∘ Qualifier.text = some := funext Qualifier.ofText_text
    rw [List.filterMap_map, back, List.filterMap_some]
  have words : c.base.words.filterMap Qualifier.ofText = [] :=
    List.filterMap_eq_nil_iff.mpr fun w member => Option.isNone_iff_eq_none.mp (not_qualifier_of_mem_words valid member)
  simp [Specifiers.type, Specifiers.quals, spec, qualifiers, words]

end ChainText

/-- What `get_type` makes of a chain. -/
def printed : CType → ChainText
  | .base quals b => ⟨inFront quals, b, behind quals, []⟩
  | .pointer quals t => ((printed t).point (behind quals)).prepend (inFront quals)
  | .array _ _ | .function _ _ => ⟨[], .builtin [], [], []⟩

theorem printed_base {t : CType} (chain : IsChain t) (named : WellNamed t) : (printed t).base.Valid := by
  induction t using printed.induct with
  | case1 quals b => exact named
  | case2 quals t ih => exact ih chain named
  | case3 => cases chain
  | case4 => cases chain

/-- A text in which neither an ellipsis nor a place for a name can be. -/
def PlainText (text : Str) : Prop := ∀ c ∈ text, isWordChar c = true ∨ c = ' ' ∨ c = '*'

theorem plain_joinWords {words : List Str} (plain : ∀ w ∈ words, PlainText w) : PlainText (joinWords words) := by
  intro c member
  unfold joinWords at member
  induction words with
  | nil => cases member
  | cons w words ih =>
    obtain ⟨here, rest⟩ := List.forall_mem_cons.mp plain
    cases words with
    | nil => exact here c (by simpa using member)
    | cons v words =>
      rw [List.intercalate_cons_cons] at member
      rcases List.mem_append.mp member with member | member
      · rcases List.mem_append.mp member with member | member
        · exact here c member
        · exact Or.inr (Or.inl (List.mem_singleton.mp member))
      · exact ih rest member

theorem plain_of_isWord {w : Str} (word : IsWord w) : PlainText w := fun c member => Or.inl (word.2 c member)

theorem plain_qualify {texts : List Str} {quals : Finset Qualifier} (written : QualTexts texts quals) (isDecl : Bool)
    {parts : List Str} (plain : ∀ part ∈ parts, PlainText part) : PlainText (qualify isDecl texts parts) := by
  have qualifiers : ∀ list : List Qualifier, ∀ w ∈ list.map Qualifier.text, PlainText w := by
    intro list w member
    obtain ⟨q, _, rfl⟩ := List.mem_map.mp member
    exact plain_of_isWord (isWord_keyword (qualifier_mem_keywords q))
  rw [qualify_written written]
  apply plain_joinWords
  intro w member
  rcases List.mem_append.mp member with member | member
  · exact qualifiers _ w member
  · rcases List.mem_append.mp member with member | member
    · exact plain w member
    · cases isDecl with
      | true => cases member
      | false => exact qualifiers _ w member

/-- A star is printed behind the target, if that is no function. -/
theorem getType_ptrDecl {texts : List Str} {m : Node} (other : ∀ args type, m ≠ .funcDecl args type) :
    getType (.ptrDecl texts m) = do return qualify false texts [← getType m, ['*']] := by
  cases m with
  | funcDecl args type => exact absurd rfl (other args type)
  | _ => rfl

theorem getType_chain {t : CType} (chain : IsChain t) (named : WellNamed t) {declname : Option Str} {n : Node}
    (node : IsTypeNode t declname n) : (∀ args type, n ≠ .funcDecl args type) ∧
      ∃ text, getType n = .ok text ∧ lex text = (printed t).tokens ∧ PlainText text := by
  induction t using printed.induct generalizing n with
  | case1 quals b =>
    obtain ⟨texts, m, rfl, written, base⟩ := node
    refine ⟨fun _ _ same => (by cases same), qualify false texts [joinWords b.words], ?_, ?_, ?_⟩
    · rw [getType, getType_base base]
      rfl
    · rw [lex_qualify written, List.flatMap_singleton, lex_base named]
      simp [printed, ChainText.tokens, levelTokens]
    · apply plain_qualify written
      intro part member
      obtain rfl := List.mem_singleton.mp member
      exact plain_joinWords fun w member => plain_of_isWord (isWord_of_mem_words named member)
  | case2 quals t ih =>
    obtain ⟨texts, m, rfl, written, target⟩ := node
    obtain ⟨other, text, printedText, tokens, plain⟩ := ih chain named target
    refine ⟨fun _ _ same => (by cases same), qualify false texts [text, ['*']], ?_, ?_, ?_⟩
    · rw [getType_ptrDecl other, printedText]
      rfl
    · have star : lex ['*'] = [.punct '*'] := by decide
      rw [lex_qualify written, printed, ChainText.tokens_prepend, ChainText.tokens_point]
      simp [tokens, star]
    · apply plain_qualify written
      intro part member
      rcases List.mem_cons.mp member with rfl | member
      · exact plain
      · obtain rfl := List.mem_singleton.mp member
        exact fun c member => Or.inr (Or.inr (List.mem_singleton.mp member))
  | case3 => cases chain
  | case4 => cases chain

/-- What `get_type` makes of a parameter: a name keeps `const` away. -/
def printedParam (t : CType) (hasName : Bool) : ChainText :=
  ((printed t).append (if hasName then [] else behind (baseQuals t))).prepend (inFront (baseQuals t))

/-- The node of a parameter of this type. -/
def IsParamNode (t : CType) (n : Node) : Prop :=
  ∃ texts m, QualTexts texts (baseQuals t) ∧
    ((∃ name, n = .decl (some name) texts m none none ∧ IsTypeNode t (some name) m) ∨
      n = .typename texts m ∧ IsTypeNode t none m)

theorem getType_param {t : CType} (chain : IsChain t) (named : WellNamed t) {n : Node} (node : IsParamNode t n) :
    ∃ hasName text, getType n = .ok text ∧ lex text = (printedParam t hasName).tokens ∧ PlainText text := by
  have parts : ∀ {text}, PlainText text → ∀ part ∈ [text], PlainText part := fun plain part member =>
    List.mem_singleton.mp member ▸ plain
  obtain ⟨texts, m, written, ⟨name, rfl, target⟩ | ⟨rfl, target⟩⟩ := node
  · obtain ⟨_, text, printedText, tokens, plain⟩ := getType_chain chain named target
    refine ⟨true, qualify true texts [text], ?_, ?_, plain_qualify written _ (parts plain)⟩
    · rw [getType, printedText]
      rfl
    · rw [lex_qualify written, printedParam, ChainText.tokens_prepend, ChainText.tokens_append]
      simp [tokens, qualTokens]
  · obtain ⟨_, text, printedText, tokens, plain⟩ := getType_chain chain named target
    refine ⟨false, qualify false texts [text], ?_, ?_, plain_qualify written _ (parts plain)⟩
    · rw [getType, printedText]
      rfl
    · rw [lex_qualify written, printedParam, ChainText.tokens_prepend, ChainText.tokens_append]
      simp [tokens]

/-! ### Which qualifiers survive -/

/-- No `restrict`, and `volatile` only at the base: what `get_type` prints at its own place. -/
def NoLoss : CType → Prop
  | .base quals _ => .restrict ∉ quals
  | .pointer quals t => quals ⊆ {.const} ∧ NoLoss t
  | .array _ _ | .function _ _ => True

/-- For a parameter the outermost qualifiers do not count, but `volatile` among them is printed at the base. -/
def ParamKeeps : CType → Prop
  | .pointer quals t => NoLoss t ∧ (.volatile ∈ quals → .volatile ∈ baseQuals t)
  | .base _ _ | .array _ _ | .function _ _ => True

def ParamsKeep : CParams → Prop
  | .nil | .ellipsis => True
  | .cons t rest => ParamKeeps t ∧ ParamsKeep rest

theorem type_point (quals : List Qualifier) (c : ChainText) : (c.point quals).type = .pointer quals.toFinset c.type := by
  simp [ChainText.type, ChainText.point]

theorem mem_ite_singleton {p q : Qualifier} {quals : Finset Qualifier} :
    q ∈ (if p ∈ quals then [p] else []) ↔ q = p ∧ q ∈ quals := by
  split
  · rename_i there
    rw [List.mem_singleton]
    exact ⟨fun same => ⟨same, same ▸ there⟩, And.left⟩
  · rename_i missing
    exact ⟨fun member => absurd member List.not_mem_nil, fun both => absurd (both.1 ▸ both.2) missing⟩

theorem mem_behind {quals : Finset Qualifier} {q : Qualifier} : q ∈ behind quals ↔ q = .const ∧ q ∈ quals := mem_ite_singleton

theorem mem_inFront {quals : Finset Qualifier} {q : Qualifier} : q ∈ inFront quals ↔ q = .volatile ∧ q ∈ quals :=
  mem_ite_singleton

theorem behind_eq_iff {quals : Finset Qualifier} : (behind quals).toFinset = quals ↔ quals ⊆ {.const} := by
  rw [Finset.ext_iff, Finset.subset_iff]
  simp only [List.mem_toFinset, mem_behind, Finset.mem_singleton]
  exact ⟨fun same q member => ((same q).mpr member).1, fun small q => ⟨And.right, fun member => ⟨small member, member⟩⟩⟩

/-- Qualifiers in front of a base: the list and what is printed anyway are its own qualifiers. -/
theorem base_quals_iff {quals : Finset Qualifier} {list : List Qualifier} (volatile : ∀ q ∈ list, q = .volatile) :
    (list ++ inFront quals ++ behind quals).toFinset = quals ↔ .restrict ∉ quals ∧ ∀ q ∈ list, q ∈ quals := by
  rw [Finset.ext_iff]
  simp only [List.mem_toFinset, List.mem_append, mem_inFront, mem_behind]
  constructor
  · intro same
    refine ⟨fun member => ?_, fun q member => (same q).mp (Or.inl (Or.inl member))⟩
    rcases (same .restrict).mpr member with (inList | ⟨other, _⟩) | ⟨other, _⟩
    · cases volatile _ inList
    · cases other
    · cases other
  · rintro ⟨noRestrict, inside⟩ q
    constructor
    · rintro ((inList | ⟨_, member⟩) | ⟨_, member⟩)
      · exact inside q inList
      · exact member
      · exact member
    · intro member
      cases q with
      | const => exact Or.inr ⟨rfl, member⟩
      | volatile => exact Or.inl (Or.inr ⟨rfl, member⟩)
      | restrict => exact absurd member noRestrict

theorem prepend_type_eq_iff {t : CType} (chain : IsChain t) {list : List Qualifier} (volatile : ∀ q ∈ list, q = .volatile) :
    ((printed t).prepend list).type = t ↔ NoLoss t ∧ ∀ q ∈ list, q ∈ baseQuals t := by
  induction t using printed.induct generalizing list with
  | case1 quals b =>
    change CType.base (list ++ inFront quals ++ behind quals).toFinset b = .base quals b ↔ _
    rw [CType.base.injEq, and_iff_left rfl]
    exact base_quals_iff volatile
  | case2 quals t ih =>
    have inner : ∀ q ∈ list ++ inFront quals, q = .volatile := by
      intro q member
      rcases List.mem_append.mp member with member | member
      · exact volatile q member
      · exact (mem_inFront.mp member).1
    have same : ((printed (.pointer quals t)).prepend list).type =
        .pointer (behind quals).toFinset ((printed t).prepend (list ++ inFront quals)).type := by
      rw [← type_point]
      simp [printed, ChainText.prepend, ChainText.point]
    rw [same, CType.pointer.injEq, behind_eq_iff, ih chain inner, NoLoss, baseQuals, and_assoc]
    refine and_congr_right fun small => and_congr_right fun _ => ?_
    have nothing : ∀ q, q ∉ inFront quals := by
      intro q member
      obtain ⟨rfl, member⟩ := mem_inFront.mp member
      exact absurd (small member) (by decide)
    simp [nothing]
  | case3 => cases chain
  | case4 => cases chain

theorem param_type_iff {t : CType} (chain : IsChain t) (hasName : Bool) :
    asParameter (printedParam t hasName).type = asParameter t ↔ ParamKeeps t := by
  cases t with
  | base quals b =>
    have same : (printedParam (.base quals b) hasName).type =
        .base (inFront quals ++ inFront quals ++ (behind quals ++ if hasName then [] else behind quals)).toFinset b := rfl
    rw [same]
    exact iff_of_true rfl trivial
  | pointer quals t =>
    have same : asParameter (printedParam (.pointer quals t) hasName).type =
        .pointer ∅ ((printed t).prepend (inFront (baseQuals t) ++ inFront quals)).type := by
      have text : printedParam (.pointer quals t) hasName = ((printed t).prepend (inFront (baseQuals t) ++ inFront quals)).point
          (behind quals ++ if hasName then [] else behind (baseQuals t)) := by
        simp [printedParam, printed, ChainText.prepend, ChainText.point, ChainText.append, baseQuals]
      rw [text, type_point, asParameter]
    have volatile : ∀ q ∈ inFront (baseQuals t) ++ inFront quals, q = .volatile := by
      intro q member
      rcases List.mem_append.mp member with member | member
      · exact (mem_inFront.mp member).1
      · exact (mem_inFront.mp member).1
    rw [same, asParameter, CType.pointer.injEq, and_iff_right rfl, @prepend_type_eq_iff t chain _ volatile, ParamKeeps]
    refine and_congr_right fun _ => ?_
    simp only [List.mem_append, mem_inFront]
    constructor
    · exact fun inside member => inside _ (Or.inr ⟨rfl, member⟩)
    · rintro kept q (⟨_, member⟩ | ⟨rfl, member⟩)
      · exact member
      · exact kept member
  | array length t => cases chain
  | function params result => cases chain

/-! ### The pieces of a head -/

/-- What the head shows for a parameter that is not `void`. -/
def headPiece (idx : Nat) (pt : Str) : Except Raised Str :=
  if "...".toList <:+: pt then .ok "...".toList
  else format (if "\x7b\x7d".toList <:+: pt then pt else pt ++ " \x7b\x7d".toList) [paramName idx]

theorem headParam_eq (idx : Nat) {pt : Str} (object : pt ≠ "void".toList) (params : List Str) :
    headParam idx pt params = do return params ++ [← headPiece idx pt] := by
  rw [headParam, if_pos object, headPiece]
  split <;> rfl

theorem headParams_eq {pts : List Str} (objects : ∀ pt ∈ pts, pt ≠ "void".toList) :
    headParams pts = pts.zipIdx.mapM fun item => headPiece item.2 item.1 := by
  have folded : ∀ (items : List (Str × Nat)) (params : List Str), (∀ item ∈ items, item.1 ≠ "void".toList) →
      items.foldlM (fun params item => headParam item.2 item.1 params) params = do
        return params ++ (← items.mapM fun item => headPiece item.2 item.1) := by
    intro items
    induction items with
    | nil => intro params _; simp [pure, Except.pure, bind, Except.bind]
    | cons item items ih =>
      intro params objects
      obtain ⟨here, rest⟩ := List.forall_mem_cons.mp objects
      rw [List.foldlM_cons, List.mapM_cons, headParam_eq item.2 here]
      cases headPiece item.2 item.1 with
      | error e => rfl
      | ok piece =>
        change items.foldlM _ (params ++ [piece]) = _
        rw [ih _ rest]
        cases items.mapM fun item => headPiece item.2 item.1 with
        | error e => rfl
        | ok pieces => simp [pure, Except.pure, bind, Except.bind]
  rw [headParams, folded _ _ fun item member => objects _ (List.fst_mem_of_mem_zipIdx member)]
  cases pts.zipIdx.mapM fun item => headPiece item.2 item.1 <;> rfl

theorem format_brace_free {text : Str} (noOpen : '\x7b' ∉ text) (noClose : '\x7d' ∉ text) (rest : Str) (args : List Str) :
    format (text ++ rest) args = do return text ++ (← format rest args) := by
  induction text with
  | nil =>
    rw [List.nil_append]
    cases format rest args <;> rfl
  | cons c text ih =>
    have open' : c ≠ '\x7b' := fun same => noOpen (same ▸ List.mem_cons_self)
    have close' : c ≠ '\x7d' := fun same => noClose (same ▸ List.mem_cons_self)
    have step : format (c :: (text ++ rest)) args = do return c :: (← format (text ++ rest) args) := by
      rw [format.eq_def]
      split
      all_goals simp_all
    rw [List.cons_append, step, ih (fun member => noOpen (List.mem_cons_of_mem _ member))
      (fun member => noClose (List.mem_cons_of_mem _ member))]
    cases format rest args <;> rfl

theorem format_hole (arg : Str) (args : List Str) (rest : Str) :
    format ("\x7b\x7d".toList ++ rest) (arg :: args) = do return arg ++ (← format rest args) := rfl

/-- Without a place in it, the name goes behind the text. -/
theorem headPiece_plain (idx : Nat) {pt : Str} (plain : PlainText pt) : headPiece idx pt = .ok (pt ++ ' ' :: paramName idx) := by
  have absent : ∀ c, isWordChar c = false → c ≠ ' ' → c ≠ '*' → c ∉ pt := by
    intro c noWord blank star member
    rcases plain c member with word | same | same
    · rw [word] at noWord
      cases noWord
    · exact blank same
    · exact star same
  have noDots : ¬ "...".toList <:+: pt := fun inside =>
    absent '.' (by decide) (by decide) (by decide) (inside.subset (by decide))
  have noOpen := absent '\x7b' (by decide) (by decide) (by decide)
  have noClose := absent '\x7d' (by decide) (by decide) (by decide)
  have noHole : ¬ "\x7b\x7d".toList <:+: pt := fun inside => noOpen (inside.subset (by decide))
  rw [headPiece, if_neg noDots, if_neg noHole]
  have split : pt ++ " \x7b\x7d".toList = (pt ++ [' ']) ++ ("\x7b\x7d".toList ++ []) := by
    rw [List.append_nil, List.append_assoc]
    rfl
  rw [split, format_brace_free (by simp [noOpen]) (by simp [noClose]), format_hole]
  simp [format, bind, Except.bind, pure, Except.pure]

/-! ### Heads of chains -/

theorem lex_void : lex "void".toList = [.word "void".toList] := lex_isWord (isWord_keyword (by decide))

theorem words_ne_nil {b : Base} (valid : b.Valid) : b.words ≠ [] := by
  cases b with
  | builtin words => exact valid.1
  | named name => exact List.cons_ne_nil _ _
  | tagged kind tag => exact List.cons_ne_nil _ _

theorem base_of_void {b : Base} (valid : b.Valid) (sub : b.words.map Token.word <:+: [.word "void".toList]) :
    b = .builtin ["void".toList] := by
  have valid' : (Base.builtin ["void".toList]).Valid := ⟨List.cons_ne_nil _ _, fun w member => by
    rw [List.mem_singleton.mp member]
    decide⟩
  apply Base.words_injective valid valid'
  have nonempty : b.words.map Token.word ≠ [] := by simpa using words_ne_nil valid
  obtain ⟨w, words, same⟩ := List.exists_cons_of_ne_nil nonempty
  have short := sub.length_le
  have all : w ∈ [Token.word "void".toList] := sub.subset (same ▸ List.mem_cons_self)
  rw [same] at short
  obtain rfl := List.eq_nil_of_length_eq_zero (show words.length = 0 by simpa using short)
  rw [List.mem_singleton.mp all] at same
  exact List.map_injective_iff.mpr (fun _ _ => Token.word.inj) (same.trans rfl)

theorem text_ne_void {t : CType} (chain : IsChain t) (named : WellNamed t) (object : isVoid t = false) {hasName : Bool}
    {text : Str} (tokens : lex text = (printedParam t hasName).tokens) : text ≠ "void".toList := by
  rintro rfl
  rw [lex_void] at tokens
  cases t with
  | base quals b =>
    have inside : b.words.map Token.word <:+: [.word "void".toList] := by
      rw [tokens, printedParam, ChainText.tokens_prepend, ChainText.tokens_append]
      simp only [printed, ChainText.tokens, levelTokens, List.flatMap_nil, List.append_nil]
      refine ⟨qualTokens (inFront quals) ++ qualTokens (inFront quals), qualTokens (behind quals) ++
        qualTokens (if hasName then [] else behind quals), ?_⟩
      simp only [List.append_assoc, baseQuals]
    rw [isVoid, base_of_void named inside] at object
    revert object
    decide
  | pointer quals t =>
    have star : .punct '*' ∈ [Token.word "void".toList] := by
      rw [tokens, printedParam, ChainText.tokens_prepend, ChainText.tokens_append, printed, ChainText.tokens_prepend,
        ChainText.tokens_point]
      simp
    cases List.mem_singleton.mp star
  | array length t => cases chain
  | function params result => cases chain

theorem paramName_identifier (idx : Nat) : Identifier (paramName idx) := by
  have split : paramName idx = 'p' :: ("aram".toList ++ Numeral.decimal idx) := by
    delta paramName
    rfl
  refine ⟨⟨by rw [split]; exact List.cons_ne_nil _ _, fun c (member : c ∈ "param".toList ++ Numeral.decimal idx) => ?_⟩,
    fun member => ?_⟩
  · rcases List.mem_append.mp member with member | member
    · have all : ∀ c ∈ "param".toList, isWordChar c = true := forall_mem_of_all (by decide)
      exact all c member
    · have digit := Numeral.isDigit_of_mem_decimal member
      simp [isWordChar, Char.isAlphanum, digit]
  · have firsts : ∀ w ∈ keywords, w.head? ≠ some 'p' := by
      unfold keywords typeKeywords
      decide
    exact firsts _ member (by rw [split]; rfl)

theorem lex_paramName (idx : Nat) : lex (paramName idx) = [.word (paramName idx)] :=
  lex_isWord (paramName_identifier idx).1

/-- The tokens of the pieces, with commas between them. -/
theorem lex_intercalate (piece : Str) (pieces : List Str) : lex (", ".toList.intercalate (piece :: pieces)) =
    lex piece ++ if pieces = [] then [] else .punct ',' :: lex (", ".toList.intercalate pieces) := by
  cases pieces with
  | nil => simp
  | cons next pieces =>
    rw [if_neg (List.cons_ne_nil _ _), List.intercalate_cons_cons, List.append_assoc]
    have comma : ", ".toList ++ ", ".toList.intercalate (next :: pieces) =
        ',' :: ' ' :: ", ".toList.intercalate (next :: pieces) := rfl
    rw [comma, lex_punct _ _ (by decide) (by decide)]
    congr 2

/-- The pieces of a parameter list, and the tree that they are the text of. -/
structure FlatPieces (idx : Nat) (ps : CParams) (pts pieces : List Str) (variadic : Bool) (flat : List FlatParam) : Prop where
  objects : ∀ pt ∈ pts, pt ≠ "void".toList
  made : (pts.zipIdx idx).mapM (fun item => headPiece item.2 item.1) = .ok pieces
  tokens : lex (", ".toList.intercalate pieces) = (Params.ofFlat variadic flat).tokens
  none : pieces = [] ↔ Params.ofFlat variadic flat = .nil
  names : (flat.map fun p => some p.name) = paramNames idx ps
  valid : ∀ p ∈ flat, Identifier p.name
  types : adjusted (Params.ofFlat variadic flat).types = adjusted ps ↔ ParamsKeep ps

theorem flatPieces_nil (idx : Nat) : FlatPieces idx .nil [] [] false [] where
  objects := nofun
  made := rfl
  tokens := rfl
  none := by simp [Params.ofFlat]
  names := rfl
  valid := nofun
  types := iff_of_true rfl trivial

theorem flatPieces_ellipsis (idx : Nat) : FlatPieces idx .ellipsis ["...".toList] ["...".toList] true [] where
  objects := by
    intro pt member
    rw [List.mem_singleton.mp member]
    decide
  made := by
    have dots : headPiece idx "...".toList = .ok "...".toList := if_pos (List.infix_refl _)
    rw [List.zipIdx_cons, List.zipIdx_nil, List.mapM_cons, List.mapM_nil, dots]
    rfl
  tokens := by decide
  none := by simp [Params.ofFlat]
  names := rfl
  valid := nofun
  types := iff_of_true rfl trivial

theorem FlatPieces.cons {idx : Nat} {ps : CParams} {pts pieces : List Str} {variadic : Bool} {flat : List FlatParam}
    (rest : FlatPieces (idx + 1) ps pts pieces variadic flat) {t : CType} (chain : IsChain t) (named : WellNamed t)
    (object : isVoid t = false) {hasName : Bool} {text : Str} (tokens : lex text = (printedParam t hasName).tokens)
    (plain : PlainText text) : ∃ p : FlatParam, FlatPieces idx (.cons t ps) (text :: pts)
      ((text ++ ' ' :: paramName idx) :: pieces) variadic (p :: flat) := by
  have base : (printedParam t hasName).base.Valid := by
    have kept : (printedParam t hasName).base = (printed t).base := by
      unfold printedParam ChainText.prepend ChainText.append
      split <;> rfl
    exact kept ▸ printed_base chain named
  have pTokens : (FlatParam.mk ((printedParam t hasName).spec base) (printedParam t hasName).levels (paramName idx)).tokens =
      lex (text ++ ' ' :: paramName idx) := by
    rw [lex_blank, tokens, lex_paramName, FlatParam.tokens, ChainText.tokens_spec]
  refine ⟨⟨(printedParam t hasName).spec base, (printedParam t hasName).levels, paramName idx⟩, ?_⟩
  constructor
  · exact List.forall_mem_cons.mpr ⟨text_ne_void chain named object tokens, rest.objects⟩
  · rw [List.zipIdx_cons, List.mapM_cons, headPiece_plain idx plain, rest.made]
    rfl
  · rw [lex_intercalate, tokens_ofFlat_cons, pTokens, rest.tokens]
    congr 1
    by_cases stop : pieces = []
    · rw [if_pos stop, rest.none.mp stop]
      rfl
    · rw [if_neg stop]
      have going := mt rest.none.mpr stop
      cases shape : Params.ofFlat variadic flat with
      | nil => exact absurd shape going
      | ellipsis => rfl
      | cons _ _ _ => rfl
  · simp [Params.ofFlat]
  · rw [List.map_cons, rest.names]
    rfl
  · exact List.forall_mem_cons.mpr ⟨paramName_identifier idx, rest.valid⟩
  · have type : (Declarator.pointers (printedParam t hasName).levels (.name (paramName idx))).type
        ((printedParam t hasName).spec base).type = (printedParam t hasName).type := by
      rw [type_pointers, ChainText.type_spec]
      rfl
    rw [Params.ofFlat, Params.types, FlatParam.declarator, type, adjusted, adjusted, CParams.cons.injEq,
      param_type_iff chain, rest.types]
    rfl

theorem flatPieces {ps : CParams} {nodes : List Node} (node : IsParams ps nodes) (chain : ChainParams ps)
    (named : WellNamedParams ps) (objects : Objects ps) (idx : Nat) :
    ∃ pts pieces variadic flat, getTypes nodes = .ok pts ∧ FlatPieces idx ps pts pieces variadic flat := by
  induction idx, ps using paramNames.induct generalizing nodes with
  | case1 idx =>
    obtain rfl := node
    exact ⟨[], [], false, [], rfl, flatPieces_nil idx⟩
  | case2 idx =>
    obtain rfl := node
    exact ⟨_, _, true, [], rfl, flatPieces_ellipsis idx⟩
  | case3 idx t rest ih =>
    obtain ⟨n, more, rfl, later, here⟩ := node
    obtain ⟨pts, pieces, variadic, flat, types, flatPieces⟩ := ih later chain.2 named.2 objects.2
    obtain ⟨hasName, text, type, tokens, plain⟩ := getType_param chain.1 named.1 here
    obtain ⟨p, cons⟩ := flatPieces.cons chain.1 named.1 objects.1 tokens plain
    refine ⟨text :: pts, _, variadic, p :: flat, ?_, cons⟩
    rw [getTypes, type, types]
    rfl

theorem typedefs_asParameter (t : CType) : (asParameter t).typedefs = t.typedefs := by
  cases t with
  | base quals b => cases b <;> rfl
  | pointer quals t => rfl
  | array length t => rfl
  | function params result => rfl

theorem scoped_iff_unhidden {idx : Nat} {types ps : CParams} (same : adjusted types = adjusted ps) :
    types.Scoped ((List.range idx).map paramName) (paramNames idx ps) ↔ Unhidden idx ps := by
  induction idx, ps using paramNames.induct generalizing types with
  | case1 idx => cases types <;> cases same; exact iff_of_true trivial trivial
  | case2 idx => cases types <;> cases same; exact iff_of_true trivial trivial
  | case3 idx t rest ih =>
    cases types with
    | nil => cases same
    | ellipsis => cases same
    | cons t' rest' =>
      injection same with first later
      have typedefs : t'.typedefs = t.typedefs := by
        rw [← typedefs_asParameter t', first, typedefs_asParameter]
      have grown : (List.range idx).map paramName ++ (some (paramName idx)).toList =
          (List.range (idx + 1)).map paramName := by
        rw [List.range_succ, List.map_append]
        rfl
      rw [paramNames, CParams.Scoped, Unhidden, grown, ih later, typedefs]
      refine and_congr_left fun _ => forall₂_congr fun name _ => ?_
      simp [eq_comm]

theorem getName_chain {t : CType} (chain : IsChain t) {declname : Option Str} {n : Node}
    (node : IsTypeNode t declname n) : getName n = .ok declname := by
  induction t using printed.induct generalizing n with
  | case1 quals b =>
    obtain ⟨texts, m, rfl, _⟩ := node
    rfl
  | case2 quals t ih =>
    obtain ⟨texts, m, rfl, _, target⟩ := node
    change getName m = .ok declname
    exact ih chain target
  | case3 => cases chain
  | case4 => cases chain

/-- A list of parameters other than `(void)` counts as it stands. -/
theorem effective_cases (ps : CParams) : ps = .cons voidType .nil ∧ effective ps = .nil ∨ effective ps = ps := by
  unfold effective
  split
  · rename_i quals words
    split
    · rename_i void
      obtain ⟨rfl, rfl⟩ := void
      exact Or.inl ⟨rfl, rfl⟩
    · exact Or.inr rfl
  · exact Or.inr rfl

theorem isTypeNode_void {n : Node} (node : IsParamNode voidType n) : getType n = .ok "void".toList := by
  have empty : ∀ {texts}, QualTexts texts ∅ → texts = [] := by
    rintro texts ⟨list, none, rfl⟩
    rw [List.toFinset_eq_empty_iff] at none
    rw [none]
    rfl
  have word : ∀ b, qualify b [] ["void".toList] = "void".toList := by
    intro b
    cases b <;> rfl
  have spine : ∀ {declname m}, IsTypeNode voidType declname m → getType m = .ok "void".toList := by
    rintro declname m ⟨texts, b, rfl, written, rfl⟩
    rw [empty written]
    rfl
  obtain ⟨texts, m, written, ⟨name, rfl, target⟩ | ⟨rfl, target⟩⟩ := node
  all_goals
    rw [getType, spine target, empty (show QualTexts texts ∅ from written)]
    rfl

/-- What `_prettify` and `get_method_head` make of the parameters of a declaration. -/
theorem stub_params {d : FunctionDecl} {args : Option Node} {type : Node} (node : d.IsNode args type)
    (chain : ChainParams d.params) (proper : d.Proper) :
    ∃ pts pieces variadic flat, paramTypes args = .ok pts ∧ headParams pts = .ok pieces ∧
      lex (", ".toList.intercalate pieces) = (Params.ofFlat variadic flat).tokens ∧
      (flat.map fun p => some p.name) = paramNames 0 (effective d.params) ∧ (∀ p ∈ flat, Identifier p.name) ∧
      (adjusted (Params.ofFlat variadic flat).types = adjusted (effective d.params) ↔ ParamsKeep (effective d.params)) := by
  obtain ⟨args', m, same, _, listed⟩ := node
  obtain ⟨rfl, rfl⟩ := Node.funcDecl.inj same
  have nodes : ∃ nodes, IsParams d.params nodes ∧ paramTypes args = getTypes nodes := by
    rcases listed with ⟨nodes, rfl, _, params⟩ | ⟨rfl, params⟩
    · exact ⟨nodes, params, rfl⟩
    · exact ⟨[], params, rfl⟩
  obtain ⟨nodes, params, types⟩ := nodes
  rw [types]
  have objects := proper.objects
  rcases effective_cases d.params with ⟨void, none⟩ | whole
  · rw [void] at params
    obtain ⟨n, more, rfl, rfl, param⟩ := params
    refine ⟨["void".toList], [], false, [], ?_, rfl, rfl, ?_, nofun, ?_⟩
    · rw [getTypes, isTypeNode_void param]
      rfl
    · rw [none]
      rfl
    · rw [none]
      exact iff_of_true rfl trivial
  · rw [whole] at objects ⊢
    obtain ⟨pts, pieces, variadic, flat, made, flatPieces⟩ := flatPieces params chain proper.params objects 0
    refine ⟨pts, pieces, variadic, flat, made, ?_, flatPieces.tokens, flatPieces.names, flatPieces.valid, flatPieces.types⟩
    exact (headParams_eq flatPieces.objects).trans flatPieces.made

theorem stubHead_ok {args : Option Node} {type : Node} {head : Str} : stubHead args type = .ok head ↔
    ∃ name result pts pieces, getName type = .ok (some name) ∧ getType type = .ok result ∧ paramTypes args = .ok pts ∧
      headParams pts = .ok pieces ∧ head = result ++ ' ' :: name ++ '(' :: ", ".toList.intercalate pieces ++ [')'] := by
  constructor
  · intro made
    obtain ⟨info, infoMade, made⟩ := bind_ok.mp made
    obtain ⟨name, named, infoMade⟩ := bind_ok.mp infoMade
    obtain ⟨result, resultMade, infoMade⟩ := bind_ok.mp infoMade
    obtain ⟨pts, ptsMade, infoMade⟩ := bind_ok.mp infoMade
    obtain rfl := Except.ok.inj infoMade
    cases name with
    | none => cases made
    | some name =>
      obtain ⟨pieces, piecesMade, made⟩ := bind_ok.mp made
      exact ⟨name, result, pts, pieces, named, resultMade, ptsMade, piecesMade, (Except.ok.inj made).symm⟩
  · rintro ⟨name, result, pts, pieces, named, resultMade, ptsMade, piecesMade, rfl⟩
    have info : prettify args type = .ok ⟨some name, result, pts⟩ := by
      rw [prettify, getName, named, resultMade, ptsMade]
      rfl
    rw [stubHead, info]
    change getMethodHead name result pts = _
    rw [getMethodHead, piecesMade]
    rfl

theorem getName_ok : ∀ {t : CType} {declname name : Option Str} {n : Node}, IsTypeNode t declname n →
    getName n = .ok name → name = declname
  | .base _ _, _, _, _, node, made => by
    obtain ⟨_, _, rfl, _⟩ := node
    exact (Except.ok.inj made).symm
  | .pointer _ t, _, _, _, node, made => by
    obtain ⟨_, m, rfl, _, target⟩ := node
    exact @getName_ok t _ _ m target made
  | .array _ _, _, _, _, node, made => by
    obtain ⟨_, _, rfl, _⟩ := node
    cases made
  | .function _ result, _, _, _, node, made => by
    obtain ⟨_, m, rfl, target, _⟩ := node
    exact @getName_ok result _ _ m target made

theorem lex_head {type name : Str} (word : IsWord name) (params : List Str) :
    lex (type ++ ' ' :: name ++ '(' :: ", ".toList.intercalate params ++ [')']) =
      lex type ++ .word name :: .punct '(' :: (lex (", ".toList.intercalate params) ++ [.punct ')']) := by
  have shape : type ++ ' ' :: name ++ '(' :: ", ".toList.intercalate params ++ [')'] =
      type ++ ' ' :: (name ++ '(' :: (", ".toList.intercalate params ++ ')' :: [])) := by simp
  rw [shape, lex_blank, lex_punct _ _ (by decide) (by decide), lex_punct _ _ (by decide) (by decide), lex_isWord word]
  rfl

/-- The declaration of a function with chains for its result and its parameters, and its tree. -/
structure ChainDecl (d : FunctionDecl) (args : Option Node) (type : Node) : Prop where
  proper : d.Proper
  result : IsChain d.result
  params : ChainParams d.params
  node : d.IsNode args type

/-- The head of such a declaration is flat, and the text of one tree. -/
theorem ChainDecl.head {d : FunctionDecl} {args : Option Node} {type : Node} (decl : ChainDecl d args type) :
    ∃ (head : Str) (front : FlatParam) (variadic : Bool) (flat : List FlatParam), stubHead args type = .ok head ∧
      lex head = front.spec.tokens ++ (flatHead front.levels front.name variadic flat).tokens ∧ front.name = d.name ∧
      (front.levels.foldl (fun t quals => .pointer quals.toFinset t) front.spec.type = d.result ↔ NoLoss d.result) ∧
      (flat.map fun p => some p.name) = paramNames 0 (effective d.params) ∧ (∀ p ∈ flat, Identifier p.name) ∧
      (adjusted (Params.ofFlat variadic flat).types = adjusted (effective d.params) ↔ ParamsKeep (effective d.params)) := by
  obtain ⟨proper, chain, chains, node⟩ := decl
  obtain ⟨pts, pieces, variadic, flat, types, made, paramTokens, names, valid, keeps⟩ := stub_params node chains proper
  have result := node.result
  obtain ⟨_, text, printedText, tokens, _⟩ := getType_chain chain proper.result result
  have base := printed_base chain proper.result
  refine ⟨text ++ ' ' :: d.name ++ '(' :: ", ".toList.intercalate pieces ++ [')'],
    ⟨(printed d.result).spec base, (printed d.result).levels, d.name⟩, variadic, flat, ?_, ?_, rfl, ?_, names, valid, keeps⟩
  · have info : prettify args type = .ok ⟨some d.name, text, pts⟩ := by
      rw [prettify, getName, getName_chain chain result, printedText, types]
      rfl
    rw [stubHead, info]
    change getMethodHead d.name text pts = _
    rw [getMethodHead, made]
    rfl
  · rw [lex_head proper.name.1, flatHead,
      tokens_function ⟨(printed d.result).spec base, (printed d.result).levels, d.name⟩, paramTokens, tokens,
      FlatParam.tokens, ChainText.tokens_spec, List.append_assoc]
    rfl
  · have same : (printed d.result).levels.foldl (fun t quals => .pointer quals.toFinset t)
        ((printed d.result).spec base).type = (printed d.result).type := by
      rw [ChainText.type_spec]
      rfl
    have iff := @prepend_type_eq_iff d.result chain [] fun _ member => absurd member List.not_mem_nil
    rw [same]
    simpa [ChainText.prepend] using iff

/-- Where `get_type` prints every qualifier at its own place. -/
def KeepsQualifiers (d : FunctionDecl) : Prop := NoLoss d.result ∧ ParamsKeep (effective d.params)

theorem ChainDecl.kept {d : FunctionDecl} {args : Option Node} {type : Node} (decl : ChainDecl d args type)
    (faithful : Faithful d args type) : KeepsQualifiers d ∧ Unhidden 0 (effective d.params) := by
  obtain ⟨head, front, variadic, flat, made, tokens, name, noLoss, names, _, keeps⟩ := decl.head
  obtain ⟨other, again, params, declares, paramNames, same⟩ := faithful
  obtain rfl := Except.ok.inj (made.symm.trans again)
  rw [← name] at declares
  obtain ⟨types, result⟩ := flat_head_unique tokens declares (paramNames.trans names.symm)
  obtain ⟨_, _, _, _, _, _, _, visible⟩ := declares
  rw [paramNames] at visible
  exact ⟨⟨noLoss.mp result.symm, keeps.mp (types ▸ same)⟩, (scoped_iff_unhidden same).mp visible⟩

/-- Qualified chains come back exactly where no qualifier is lost, and no typedef is hidden by the new name of
an earlier parameter. -/
theorem chains_faithful_iff {d : FunctionDecl} {args : Option Node} {type : Node} (decl : ChainDecl d args type) :
    Faithful d args type ↔ KeepsQualifiers d ∧ Unhidden 0 (effective d.params) := by
  refine ⟨decl.kept, ?_⟩
  rintro ⟨⟨kept, keptParams⟩, unhidden⟩
  obtain ⟨head, front, variadic, flat, made, tokens, name, noLoss, names, valid, keeps⟩ := decl.head
  have same := keeps.mpr keptParams
  refine ⟨head, made, .ofFlat variadic flat, ?_, (names_ofFlat _ _).trans names, same⟩
  have declares := flat_head_declares tokens (name ▸ decl.proper.name) valid (by
    rw [names_ofFlat, names]
    exact (scoped_iff_unhidden same).mpr unhidden)
  rw [noLoss.mpr kept, name] at declares
  exact declares

def intType : CType := .base ∅ (.builtin ["int".toList])

def intNode (declname : Option Str) : Node := .typeDecl declname [] (.identifierType ["int".toList])

theorem no_quals : QualTexts [] ∅ := ⟨[], rfl, rfl⟩

theorem isTypeNode_int (declname : Option Str) : IsTypeNode intType declname (intNode declname) :=
  ⟨[], .identifierType ["int".toList], rfl, ⟨[], rfl, rfl⟩, rfl⟩

theorem wellNamed_int : WellNamed intType :=
  ⟨List.cons_ne_nil _ _, fun _ member => List.mem_singleton.mp member ▸ by decide⟩

def charType (quals : Finset Qualifier) : CType := .base quals (.builtin ["char".toList])

theorem wellNamed_char (quals : Finset Qualifier) : WellNamed (charType quals) :=
  ⟨List.cons_ne_nil _ _, fun _ member => List.mem_singleton.mp member ▸ by decide⟩

/-- `int f(const char *const *p, ...)` -/
def constDecl : FunctionDecl :=
  ⟨['f'], .cons (.pointer ∅ (.pointer {.const} (charType {.const}))) .ellipsis, intType⟩

theorem constDecl_faithful : ∃ args type, ChainDecl constDecl args type ∧ Faithful constDecl args type := by
  have name : Identifier ['f'] := .of (by decide)
  have const : QualTexts ["const".toList] {.const} := ⟨[.const], rfl, rfl⟩
  have decl : ChainDecl constDecl
      (some (.paramList [.decl (some ['p']) ["const".toList] (.ptrDecl [] (.ptrDecl ["const".toList]
        (.typeDecl (some ['p']) ["const".toList] (.identifierType ["char".toList])))) none none, .ellipsisParam]))
      (intNode (some ['f'])) :=
    ⟨⟨name, ⟨wellNamed_char {.const}, trivial⟩, wellNamed_int, ⟨rfl, trivial⟩⟩, trivial, ⟨trivial, trivial⟩,
      ⟨_, _, rfl, isTypeNode_int _, Or.inl ⟨_, rfl, List.cons_ne_nil _ _, _, _, rfl, rfl, _, _, const,
        Or.inl ⟨['p'], rfl, _, _, rfl, no_quals, _, _, rfl, const, _, _, rfl, const, rfl⟩⟩⟩⟩
  have plain : NoLoss intType := by simp [NoLoss, intType]
  have kept : NoLoss (charType {.const}) := by simp [NoLoss, charType]
  exact ⟨_, _, decl, (chains_faithful_iff decl).mpr ⟨⟨plain, ⟨⟨by simp, kept⟩, by simp⟩, trivial⟩, ⟨nofun, trivial⟩⟩⟩

/-- `int f(int *volatile *p)` -/
def volatileDecl : FunctionDecl := ⟨['f'], .cons (.pointer ∅ (.pointer {.volatile} intType)) .nil, intType⟩

theorem volatileDecl_unfaithful : ∃ args type, ChainDecl volatileDecl args type ∧ ¬ Faithful volatileDecl args type := by
  have name : Identifier ['f'] := .of (by decide)
  have decl : ChainDecl volatileDecl
      (some (.paramList [.decl (some ['p']) [] (.ptrDecl [] (.ptrDecl ["volatile".toList] (intNode (some ['p'])))) none none]))
      (intNode (some ['f'])) :=
    ⟨⟨name, ⟨wellNamed_int, trivial⟩, wellNamed_int, ⟨rfl, trivial⟩⟩, trivial, ⟨trivial, trivial⟩,
      ⟨_, _, rfl, isTypeNode_int _, Or.inl ⟨_, rfl, List.cons_ne_nil _ _, _, _, rfl, rfl, [], _, ⟨[], rfl, rfl⟩,
        Or.inl ⟨['p'], rfl, _, _, rfl, ⟨[], rfl, rfl⟩, _, _, rfl, ⟨[.volatile], rfl, rfl⟩, isTypeNode_int _⟩⟩⟩⟩
  refine ⟨_, _, decl, fun faithful => ?_⟩
  obtain ⟨⟨_, kept, _⟩, _⟩ := decl.kept faithful
  exact absurd (kept.1.1 (Finset.mem_singleton_self _)) (by decide)

end Tbf
