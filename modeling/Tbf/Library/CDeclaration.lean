import Mathlib.Data.Finset.Basic
import Tbf.Library.Numeral
import Tbf.Library.Text

/-!
# C declarations

Types, and the grammar of declarations with its tokens. What a text declares is said through the trees of
the grammar: a text reads as a declaration if some tree has its tokens.
-/

namespace CDeclaration
open Text

/-! ### Tokens -/

inductive Token where
  | word (w : Str)
  | punct (c : Char)
  deriving DecidableEq, Repr

def isWordChar (c : Char) : Bool := c.isAlphanum || c == '_'

/-- A word character goes into the word behind it, if it touches one. -/
def attach (c : Char) (touches : Bool) : List Token → List Token
  | .word w :: tokens => if touches then .word (c :: w) :: tokens else .word [c] :: .word w :: tokens
  | tokens => .word [c] :: tokens

/-- The tokens of a text: the longest words, and everything else character by character, without blanks. -/
def lex : Str → List Token
  | [] => []
  | c :: rest =>
    if isWordChar c then attach c (rest.head?.any isWordChar) (lex rest)
    else if c = ' ' then lex rest
    else .punct c :: lex rest

theorem lex_cons (c : Char) (rest : Str) : lex (c :: rest) =
    if isWordChar c then attach c (rest.head?.any isWordChar) (lex rest)
    else if c = ' ' then lex rest
    else .punct c :: lex rest := rfl

theorem attach_append {c : Char} {touches : Bool} {tokens more : List Token} (nonempty : tokens ≠ []) :
    attach c touches (tokens ++ more) = attach c touches tokens ++ more := by
  obtain ⟨first, tokens, rfl⟩ := List.exists_cons_of_ne_nil nonempty
  cases first with
  | word w => cases touches <;> rfl
  | punct p => rfl

theorem attach_false (c : Char) (tokens : List Token) : attach c false tokens = .word [c] :: tokens := by
  cases tokens with
  | nil => rfl
  | cons first tokens => cases first <;> rfl

theorem attach_ne_nil (c : Char) (touches : Bool) (tokens : List Token) : attach c touches tokens ≠ [] := by
  unfold attach
  split
  · split <;> simp
  · simp

theorem lex_append {s t : Str} (apart : s.getLast?.any isWordChar = false ∨ t.head?.any isWordChar = false) :
    lex (s ++ t) = lex s ++ lex t := by
  induction s with
  | nil => rfl
  | cons c s ih =>
    cases s with
    | nil =>
      rw [List.singleton_append, lex_cons, lex_cons c []]
      by_cases letter : isWordChar c = true
      · have ends : t.head?.any isWordChar = false := by simpa [letter] using apart
        rw [if_pos letter, if_pos letter, ends, attach_false]
        rfl
      · rw [if_neg letter, if_neg letter]
        split <;> rfl
    | cons d s =>
      have rest := ih (by simpa using apart)
      rw [List.cons_append, lex_cons, lex_cons c (d :: s), rest]
      by_cases letter : isWordChar c = true
      · rw [if_pos letter, if_pos letter, List.cons_append, List.head?_cons, List.head?_cons, Option.any_some]
        by_cases next : isWordChar d = true
        · have nonempty : lex (d :: s) ≠ [] := by
            rw [lex_cons, if_pos next]
            exact attach_ne_nil _ _ _
          exact attach_append nonempty
        · rw [Bool.not_eq_true] at next
          rw [next, attach_false, attach_false]
          rfl
      · rw [if_neg letter, if_neg letter]
        split <;> rfl

theorem lex_blank (s t : Str) : lex (s ++ ' ' :: t) = lex s ++ lex t := by
  have blank : isWordChar ' ' = false := by decide
  rw [lex_append (Or.inr (by simpa using blank)), lex_cons, blank]
  rfl

theorem lex_punct {c : Char} (s t : Str) (punct : isWordChar c = false) (solid : c ≠ ' ') :
    lex (s ++ c :: t) = lex s ++ .punct c :: lex t := by
  rw [lex_append (Or.inr (by simpa using punct)), lex]
  simp [punct, solid]

theorem lex_word {w : Str} (nonempty : w ≠ []) (word : ∀ c ∈ w, isWordChar c = true) : lex w = [.word w] := by
  induction w with
  | nil => exact absurd rfl nonempty
  | cons c w ih =>
    obtain ⟨here, rest⟩ := List.forall_mem_cons.mp word
    cases w with
    | nil => rw [lex_cons, if_pos here, List.head?_nil, Option.any_none, attach_false, lex]
    | cons d w =>
      have tail := ih (List.cons_ne_nil _ _) rest
      rw [lex_cons, tail, if_pos here, List.head?_cons, Option.any_some, rest d List.mem_cons_self]
      rfl

/-! ### Types -/

inductive Qualifier where
  | const | volatile | restrict
  deriving DecidableEq, Repr

def Qualifier.text : Qualifier → Str
  | const => "const".toList
  | volatile => "volatile".toList
  | restrict => "restrict".toList

def Qualifier.ofText (w : Str) : Option Qualifier := [const, volatile, restrict].find? fun q => q.text == w

theorem Qualifier.ofText_text (q : Qualifier) : Qualifier.ofText q.text = some q := by
  cases q <;> decide

theorem Qualifier.text_injective {p q : Qualifier} (same : p.text = q.text) : p = q := by
  have back := congrArg Qualifier.ofText same
  rw [Qualifier.ofText_text, Qualifier.ofText_text] at back
  exact Option.some.inj back

theorem Qualifier.ofText_eq_none {w : Str} (other : ∀ q : Qualifier, w ≠ q.text) : (Qualifier.ofText w).isNone = true := by
  rw [Option.isNone_iff_eq_none, Qualifier.ofText, List.find?_eq_none]
  intro q _ same
  exact other q (eq_of_beq same).symm

inductive TagKind where
  | struct | union | enum
  deriving DecidableEq, Repr

def TagKind.text : TagKind → Str
  | struct => "struct".toList
  | union => "union".toList
  | enum => "enum".toList

/-- The keywords that are type specifiers of their own. -/
def typeKeywords : List Str :=
  ["void".toList, "_Bool".toList, "char".toList, "short".toList, "int".toList, "long".toList, "float".toList,
    "double".toList, "_Complex".toList, "signed".toList, "unsigned".toList, "__int128".toList]

/-- The keywords of a declaration. -/
def keywords : List Str :=
  typeKeywords ++ ["const".toList, "volatile".toList, "restrict".toList, "struct".toList, "union".toList, "enum".toList,
    "static".toList]

def IsWord (w : Str) : Prop := w ≠ [] ∧ ∀ c ∈ w, isWordChar c = true

/-- A name that is free for a declaration. -/
def Identifier (w : Str) : Prop := IsWord w ∧ w ∉ keywords

theorem Identifier.of {w : Str} (free : (!w.isEmpty && w.all isWordChar && !keywords.contains w) = true) :
    Identifier w := by
  simp only [Bool.and_eq_true, Bool.not_eq_true', List.all_eq_true, List.isEmpty_eq_false_iff] at free
  obtain ⟨⟨nonempty, chars⟩, noKeyword⟩ := free
  refine ⟨⟨nonempty, chars⟩, fun member => ?_⟩
  rw [List.contains_iff_mem.mpr member] at noKeyword
  cases noKeyword

inductive Base where
  | builtin (words : List Str)
  | named (name : Str)
  | tagged (kind : TagKind) (tag : Str)
  deriving DecidableEq, Repr

namespace Base

def words : Base → List Str
  | builtin words => words
  | named name => [name]
  | tagged kind tag => [kind.text, tag]

def Valid : Base → Prop
  | builtin words => words ≠ [] ∧ ∀ w ∈ words, w ∈ typeKeywords
  | named name => Identifier name
  | tagged _ tag => Identifier tag

end Base

mutual

inductive CType where
  | base (quals : Finset Qualifier) (b : Base)
  | pointer (quals : Finset Qualifier) (target : CType)
  | array (length : Option Nat) (element : CType)
  | function (params : CParams) (result : CType)

/-- The parameters of a function type; `ellipsis` ends a list of a variadic one. -/
inductive CParams where
  | nil
  | ellipsis
  | cons (type : CType) (rest : CParams)

end

/-! ### The grammar -/

/-- The words in front of a declarator: the qualifiers among them stand anywhere. -/
structure Specifiers where
  words : List Str
  base : Base
  valid : base.Valid
  split : words.filter (fun w => (Qualifier.ofText w).isNone) = base.words

namespace Specifiers

def tokens (s : Specifiers) : List Token := s.words.map .word

def quals (s : Specifiers) : Finset Qualifier := (s.words.filterMap Qualifier.ofText).toFinset

def type (s : Specifiers) : CType := .base s.quals s.base

end Specifiers

mutual

inductive Declarator where
  | abstract
  | name (n : Str)
  | pointer (quals : List Qualifier) (d : Declarator)
  | array (d : Declarator) (length : Option Nat)
  | paren (d : Declarator)
  | function (d : Declarator) (params : Params)

inductive Params where
  | nil
  | ellipsis
  | cons (spec : Specifiers) (d : Declarator) (rest : Params)

end

def numeral (length : Option Nat) : List Token := length.toList.map fun n => .word (Numeral.decimal n)

/-- A declarator that an array or a function declarator may extend. -/
def Declarator.isDirect : Declarator → Bool
  | pointer _ _ => false
  | _ => true

def Declarator.isAbstract : Declarator → Bool
  | abstract => true
  | _ => false

mutual

def Declarator.tokens : Declarator → List Token
  | .abstract => []
  | .name n => [.word n]
  | .pointer quals d => .punct '*' :: quals.map (fun q => .word q.text) ++ d.tokens
  | .array d length => d.tokens ++ .punct '[' :: numeral length ++ [.punct ']']
  | .paren d => .punct '(' :: d.tokens ++ [.punct ')']
  | .function d params => d.tokens ++ .punct '(' :: params.tokens ++ [.punct ')']

def Params.tokens : Params → List Token
  | .nil => []
  | .ellipsis => [.punct '.', .punct '.', .punct '.']
  | .cons spec d .nil => spec.tokens ++ d.tokens
  | .cons spec d rest => spec.tokens ++ d.tokens ++ .punct ',' :: rest.tokens

end

mutual

/-- The declarators of the grammar. -/
def Declarator.Valid : Declarator → Prop
  | .abstract => True
  | .name n => Identifier n
  | .pointer _ d => d.Valid
  | .array d _ => d.isDirect = true ∧ d.Valid
  | .paren d => d.isAbstract = false ∧ d.Valid
  | .function d params => d.isDirect = true ∧ d.Valid ∧ params.Valid

def Params.Valid : Params → Prop
  | .nil => True
  | .ellipsis => True
  | .cons _ d rest => d.Valid ∧ rest.Valid

end

mutual

/-- The type of what is declared, for a base type: declarators are read from the outside in. -/
def Declarator.type : Declarator → CType → CType
  | .abstract, t => t
  | .name _, t => t
  | .pointer quals d, t => d.type (.pointer quals.toFinset t)
  | .array d length, t => d.type (.array length t)
  | .paren d, t => d.type t
  | .function d params, t => d.type (.function params.types t)

def Params.types : Params → CParams
  | .nil => .nil
  | .ellipsis => .ellipsis
  | .cons spec d rest => .cons (d.type spec.type) rest.types

end

def Declarator.declared : Declarator → Option Str
  | .abstract => none
  | .name n => some n
  | .pointer _ d | .array d _ | .paren d | .function d _ => d.declared

/-- The parameters of the declared function itself. -/
def Declarator.ownParams : Declarator → Option Params
  | .abstract | .name _ => none
  | .pointer _ d | .array d _ | .paren d => d.ownParams
  | .function d params => d.ownParams.or (some params)

mutual

/-- The typedef names in a type. -/
def CType.typedefs : CType → List Str
  | .base _ (.named name) => [name]
  | .base _ _ => []
  | .pointer _ t => t.typedefs
  | .array _ t => t.typedefs
  | .function params result => result.typedefs ++ params.typedefs

def CParams.typedefs : CParams → List Str
  | .nil | .ellipsis => []
  | .cons t rest => t.typedefs ++ rest.typedefs

end

/-- No parameter is declared with a typedef that the name of an earlier one hides. -/
def CParams.Scoped : List Str → CParams → List (Option Str) → Prop
  | hidden, .cons t rest, name :: names => (∀ n ∈ t.typedefs, n ∉ hidden) ∧ rest.Scoped (hidden ++ name.toList) names
  | _, _, _ => True

/-- The names of the parameters, in their order. -/
def Params.names : Params → List (Option Str)
  | .nil | .ellipsis => []
  | .cons _ d rest => d.declared :: rest.names

/-- The text declares a function with these parameters and this result. -/
def DeclaresFunction (text name : Str) (params : Params) (result : CType) : Prop :=
  ∃ (spec : Specifiers) (d : Declarator), d.Valid ∧ lex text = spec.tokens ++ d.tokens ∧ d.declared = some name ∧
    d.ownParams = some params ∧ d.type spec.type = .function params.types result ∧
    params.types.Scoped [] params.names

/-! ### Flat declarators -/

def Declarator.core (name : Option Str) : Declarator := name.elim .abstract .name

/-- Pointers in front of a declarator, the innermost of the type first. -/
def Declarator.pointers (levels : List (List Qualifier)) (d : Declarator) : Declarator := levels.foldr .pointer d

/-- A declarator without parentheses and brackets is a name, or nothing, behind pointers. -/
theorem exists_pointers : ∀ {d : Declarator}, .punct '(' ∉ d.tokens → .punct '[' ∉ d.tokens →
    ∃ levels name, d = Declarator.pointers levels (.core name)
  | .abstract, _, _ => ⟨[], none, rfl⟩
  | .name n, _, _ => ⟨[], some n, rfl⟩
  | .pointer quals d, noParen, noBracket => by
    obtain ⟨levels, name, rfl⟩ : ∃ levels name, d = Declarator.pointers levels (.core name) := by
      apply exists_pointers
      · exact fun member => noParen (by simp [Declarator.tokens, member])
      · exact fun member => noBracket (by simp [Declarator.tokens, member])
    exact ⟨quals :: levels, name, rfl⟩
  | .array d _, _, noBracket => absurd (by simp [Declarator.tokens]) noBracket
  | .paren d, noParen, _ => absurd (by simp [Declarator.tokens]) noParen
  | .function d _, noParen, _ => absurd (by simp [Declarator.tokens]) noParen

theorem ownParams_parens : ∀ {d : Declarator}, d.ownParams.isSome = true → 0 < d.tokens.count (.punct '(')
  | .abstract, own => by cases own
  | .name _, own => by cases own
  | .pointer _ d, own => by
    have inside := @ownParams_parens d own
    simp only [Declarator.tokens, List.cons_append, List.count_cons, List.count_append]
    omega
  | .array d _, own => by
    have inside := @ownParams_parens d own
    simp only [Declarator.tokens, List.count_append]
    omega
  | .paren d, _ => by simp [Declarator.tokens]
  | .function d _, _ => by simp [Declarator.tokens]

/-- With one pair of parentheses, they are those of the function itself. -/
theorem exists_function : ∀ {d : Declarator} {name : Str} {params : Params}, d.Valid → d.declared = some name →
    d.ownParams = some params → d.tokens.count (.punct '(') = 1 → .punct '[' ∉ d.tokens →
    ∃ levels, d = Declarator.pointers levels (.function (.name name) params)
  | .abstract, _, _, _, _, own, _, _ => by cases own
  | .name _, _, _, _, _, own, _, _ => by cases own
  | .pointer quals d, name, params, valid, declared, own, parens, noBracket => by
    have inside : d.tokens.count (.punct '(') = 1 := by
      have words : (quals.map fun q => Token.word q.text).count (.punct '(') = 0 :=
        List.count_eq_zero.mpr (by simp)
      simpa [Declarator.tokens, List.count_cons, words] using parens
    obtain ⟨levels, rfl⟩ := @exists_function d name params valid declared own inside
      fun member => noBracket (by simp [Declarator.tokens, member])
    exact ⟨quals :: levels, rfl⟩
  | .array d _, _, _, _, _, _, _, noBracket => absurd (by simp [Declarator.tokens]) noBracket
  | .paren d, _, _, _, _, own, parens, _ => by
    have inside := @ownParams_parens d (by rw [show d.ownParams = _ from own]; rfl)
    simp only [Declarator.tokens, List.count_append, List.count_cons_self] at parens
    omega
  | .function d ps, name, params, valid, declared, own, parens, noBracket => by
    have none_inside : d.tokens.count (.punct '(') = 0 := by
      simp only [Declarator.tokens, List.count_append, List.count_cons_self] at parens
      omega
    have absent : .punct '(' ∉ d.tokens := List.count_eq_zero.mp none_inside
    obtain ⟨levels, core, rfl⟩ := exists_pointers absent
      fun member => noBracket (by simp [Declarator.tokens, member])
    cases levels with
    | cons quals levels => cases valid.1
    | nil =>
      cases core with
      | none => cases declared
      | some n =>
        obtain rfl := Option.some.inj declared
        obtain rfl := Option.some.inj own
        exact ⟨[], rfl⟩

theorem Base.words_injective {b c : Base} (valid : b.Valid) (valid' : c.Valid) (same : b.words = c.words) : b = c := by
  have keyword : ∀ {w}, w ∈ typeKeywords → ¬ Identifier w := fun member free =>
    free.2 (List.mem_append_left _ member)
  have kindFree : ∀ kind : TagKind, ¬ Identifier kind.text := fun kind free =>
    free.2 (by cases kind <;> decide)
  have kindOther : ∀ kind : TagKind, kind.text ∉ typeKeywords := fun kind => by cases kind <;> decide
  cases b with
  | builtin words =>
    cases c with
    | builtin words' => rw [show words = words' from same]
    | named name =>
      have same : words = [name] := same
      exact absurd valid' (keyword (valid.2 name (by simp [same])))
    | tagged kind tag =>
      have same : words = [kind.text, tag] := same
      exact absurd (valid.2 kind.text (by simp [same])) (kindOther kind)
  | named name =>
    cases c with
    | builtin words =>
      have same : [name] = words := same
      exact absurd valid (keyword (valid'.2 name (by simp [← same])))
    | named name' => rw [(List.cons.inj same).1]
    | tagged kind tag => cases (List.cons.inj same).2
  | tagged kind tag =>
    cases c with
    | builtin words =>
      have same : [kind.text, tag] = words := same
      exact absurd (valid'.2 kind.text (by simp [← same])) (kindOther kind)
    | named name => cases (List.cons.inj same).2
    | tagged kind' tag' =>
      obtain ⟨kinds, tags⟩ := List.cons.inj same
      have injective : kind = kind' := by
        revert kinds
        cases kind <;> cases kind' <;> decide
      rw [injective, (List.cons.inj tags).1]

theorem Specifiers.type_of_tokens {s s' : Specifiers} (same : s.tokens = s'.tokens) : s.type = s'.type := by
  have words : s.words = s'.words := List.map_injective_iff.mpr (fun _ _ => Token.word.inj) same
  have base : s.base = s'.base := Base.words_injective s.valid s'.valid (by rw [← s.split, ← s'.split, words])
  rw [Specifiers.type, Specifiers.type, Specifiers.quals, Specifiers.quals, words, base]

theorem punct_not_mem_specifiers (s : Specifiers) (c : Char) : .punct c ∉ s.tokens := by
  simp [Specifiers.tokens]

def qualTokens (quals : List Qualifier) : List Token := quals.map fun q => .word q.text

theorem qualTokens_injective : Function.Injective qualTokens :=
  List.map_injective_iff.mpr fun _ _ same => Qualifier.text_injective (Token.word.inj same)

theorem punct_not_mem_qualTokens (quals : List Qualifier) (c : Char) : .punct c ∉ qualTokens quals := by
  simp [qualTokens]

def levelTokens (levels : List (List Qualifier)) : List Token :=
  levels.flatMap fun quals => .punct '*' :: qualTokens quals

theorem tokens_pointers (levels : List (List Qualifier)) (d : Declarator) :
    (Declarator.pointers levels d).tokens = levelTokens levels ++ d.tokens := by
  induction levels with
  | nil => rfl
  | cons quals levels ih =>
    change .punct '*' :: qualTokens quals ++ (Declarator.pointers levels d).tokens = _
    rw [ih, ← List.append_assoc]
    rfl

theorem type_pointers (levels : List (List Qualifier)) (d : Declarator) (t : CType) :
    (Declarator.pointers levels d).type t = d.type (levels.foldl (fun t quals => .pointer quals.toFinset t) t) := by
  induction levels generalizing t with
  | nil => rfl
  | cons quals levels ih => exact ih _

theorem valid_pointers {levels : List (List Qualifier)} {d : Declarator} :
    (Declarator.pointers levels d).Valid ↔ d.Valid := by
  induction levels with
  | nil => exact Iff.rfl
  | cons quals levels ih => exact ih

theorem declared_pointers (levels : List (List Qualifier)) (d : Declarator) :
    (Declarator.pointers levels d).declared = d.declared := by
  induction levels with
  | nil => rfl
  | cons quals levels ih => exact ih

theorem ownParams_pointers (levels : List (List Qualifier)) (d : Declarator) :
    (Declarator.pointers levels d).ownParams = d.ownParams := by
  induction levels with
  | nil => rfl
  | cons quals levels ih => exact ih

theorem punct_not_mem_levelTokens {levels : List (List Qualifier)} {c : Char} (other : c ≠ '*') :
    .punct c ∉ levelTokens levels := by
  intro member
  obtain ⟨quals, _, member⟩ := List.mem_flatMap.mp member
  rcases List.mem_cons.mp member with same | member
  · exact other (Token.punct.inj same)
  · exact punct_not_mem_qualTokens quals c member

/-- Two splits of a list at the first place of an element are the same. -/
theorem split_first {α : Type*} {x : α} {front front' back back' : List α} (absent : x ∉ front) (absent' : x ∉ front')
    (same : front ++ x :: back = front' ++ x :: back') : front = front' ∧ back = back' := by
  induction front generalizing front' with
  | nil =>
    cases front' with
    | nil => exact ⟨rfl, (List.cons.inj same).2⟩
    | cons y front' => exact absurd ((List.cons.inj same).1 ▸ List.mem_cons_self) absent'
  | cons y front ih =>
    cases front' with
    | nil => exact absurd ((List.cons.inj same).1 ▸ List.mem_cons_self) absent
    | cons y' front' =>
      obtain ⟨rfl, rest⟩ := List.cons.inj same
      obtain ⟨rfl, backs⟩ := ih (fun member => absent (List.mem_cons_of_mem _ member))
        (fun member => absent' (List.mem_cons_of_mem _ member)) rest
      exact ⟨rfl, backs⟩

/-- Words, and pointers behind them: the stars show where each level begins. -/
theorem levelTokens_unique {front front' : List Token} {levels levels' : List (List Qualifier)}
    (plain : .punct '*' ∉ front) (plain' : .punct '*' ∉ front')
    (same : front ++ levelTokens levels = front' ++ levelTokens levels') : front = front' ∧ levels = levels' := by
  induction levels generalizing front front' levels' with
  | nil =>
    cases levels' with
    | nil => exact ⟨by simpa [levelTokens] using same, rfl⟩
    | cons quals levels' =>
      have member : .punct '*' ∈ front := by
        rw [show front = front' ++ levelTokens (quals :: levels') by simpa [levelTokens] using same]
        simp [levelTokens]
      exact absurd member plain
  | cons quals levels ih =>
    cases levels' with
    | nil =>
      have member : .punct '*' ∈ front' := by
        rw [show front' = front ++ levelTokens (quals :: levels) by simpa [levelTokens] using same.symm]
        simp [levelTokens]
      exact absurd member plain'
    | cons quals' levels' =>
      simp only [levelTokens, List.flatMap_cons, List.cons_append] at same
      obtain ⟨fronts, rest⟩ := split_first plain plain' same
      obtain ⟨here, later⟩ := ih (punct_not_mem_qualTokens _ _) (punct_not_mem_qualTokens _ _) rest
      exact ⟨fronts, by rw [qualTokens_injective here, later]⟩

/-! ### Flat declarations have one reading -/

/-- What stands behind a parameter: nothing, or a comma and the parameters that are left. -/
def Params.behind : Params → List Token
  | .nil => []
  | rest => .punct ',' :: rest.tokens

theorem Params.tokens_cons (spec : Specifiers) (d : Declarator) (rest : Params) :
    (Params.cons spec d rest).tokens = spec.tokens ++ d.tokens ++ rest.behind := by
  cases rest with
  | nil => exact (List.append_nil _).symm
  | ellipsis => rfl
  | cons _ _ _ => rfl

theorem Params.tokens_of_behind {p q : Params} (same : p.behind = q.behind) : p.tokens = q.tokens := by
  cases p <;> cases q <;> simp_all [Params.behind, Params.tokens]

/-- A named parameter that is no more than a chain of pointers. -/
structure FlatParam where
  spec : Specifiers
  levels : List (List Qualifier)
  name : Str

namespace FlatParam

def declarator (p : FlatParam) : Declarator := .pointers p.levels (.name p.name)

def tokens (p : FlatParam) : List Token := p.spec.tokens ++ levelTokens p.levels ++ [.word p.name]

theorem tokens_eq (p : FlatParam) : p.spec.tokens ++ p.declarator.tokens = p.tokens := by
  rw [declarator, tokens_pointers, ← List.append_assoc]
  rfl

theorem punct_not_mem (p : FlatParam) {c : Char} (other : c ≠ '*') : .punct c ∉ p.tokens := by
  intro member
  rcases List.mem_append.mp member with member | member
  · rcases List.mem_append.mp member with member | member
    · exact punct_not_mem_specifiers p.spec c member
    · exact punct_not_mem_levelTokens other member
  · cases List.mem_singleton.mp member

end FlatParam

def Params.ofFlat (variadic : Bool) : List FlatParam → Params
  | [] => if variadic then .ellipsis else .nil
  | p :: flat => .cons p.spec p.declarator (ofFlat variadic flat)

theorem tokens_ofFlat_cons (variadic : Bool) (p : FlatParam) (flat : List FlatParam) :
    (Params.ofFlat variadic (p :: flat)).tokens = p.tokens ++ (Params.ofFlat variadic flat).behind := by
  rw [Params.ofFlat, Params.tokens_cons, p.tokens_eq]

theorem punct_not_mem_ofFlat {variadic : Bool} {flat : List FlatParam} {c : Char} (star : c ≠ '*') (comma : c ≠ ',')
    (dot : c ≠ '.') : .punct c ∉ (Params.ofFlat variadic flat).tokens := by
  induction flat with
  | nil => cases variadic <;> simp [Params.ofFlat, Params.tokens, dot]
  | cons p flat ih =>
    rw [tokens_ofFlat_cons]
    intro member
    rcases List.mem_append.mp member with member | member
    · exact p.punct_not_mem star member
    · revert member ih
      cases Params.ofFlat variadic flat <;> simp [Params.behind, comma]

theorem split_behind {front front' : List Token} {rest rest' : Params} (plain : .punct ',' ∉ front)
    (plain' : .punct ',' ∉ front') (same : front ++ rest.behind = front' ++ rest'.behind) :
    front = front' ∧ rest.behind = rest'.behind := by
  have shape : ∀ p : Params, p.behind = [] ∨ ∃ more, p.behind = .punct ',' :: more := by
    intro p
    cases p with
    | nil => exact Or.inl rfl
    | ellipsis => exact Or.inr ⟨_, rfl⟩
    | cons _ _ _ => exact Or.inr ⟨_, rfl⟩
  rcases shape rest with stop | ⟨more, going⟩ <;> rcases shape rest' with stop' | ⟨more', going'⟩
  · rw [stop, stop', List.append_nil, List.append_nil] at same
    exact ⟨same, stop.trans stop'.symm⟩
  · rw [stop, going', List.append_nil] at same
    exact absurd (same ▸ List.mem_append_right _ List.mem_cons_self) plain
  · rw [going, stop', List.append_nil] at same
    exact absurd (same ▸ List.mem_append_right _ List.mem_cons_self) plain'
  · rw [going, going'] at same ⊢
    obtain ⟨fronts, backs⟩ := split_first plain plain' same
    exact ⟨fronts, by rw [backs]⟩

/-- A declarator with the name of a flat parameter and the tokens of one is that parameter. -/
theorem flat_param_unique {spec : Specifiers} {d : Declarator} {p : FlatParam} {more more' : List Token}
    (declared : d.declared = some p.name) (noParen : .punct '(' ∉ d.tokens) (noBracket : .punct '[' ∉ d.tokens)
    (cut : ∀ front, .punct ',' ∉ front → front ++ more = p.tokens ++ more' → front = p.tokens ∧ more = more')
    (same : spec.tokens ++ d.tokens ++ more = p.tokens ++ more') :
    d.type spec.type = p.declarator.type p.spec.type ∧ more = more' := by
  obtain ⟨levels, core, rfl⟩ := exists_pointers noParen noBracket
  rw [declared_pointers] at declared
  cases core with
  | none => cases declared
  | some n =>
    obtain rfl := Option.some.inj declared
    have plain := FlatParam.punct_not_mem ⟨spec, levels, p.name⟩ (show ',' ≠ '*' by decide)
    rw [tokens_pointers, ← List.append_assoc] at same
    obtain ⟨fronts, mores⟩ := cut _ plain same
    obtain ⟨specs, rfl⟩ := levelTokens_unique (punct_not_mem_specifiers spec '*')
      (punct_not_mem_specifiers p.spec '*') (List.append_cancel_right fronts)
    rw [Specifiers.type_of_tokens specs]
    exact ⟨rfl, mores⟩

theorem flat_params_unique {variadic : Bool} {flat : List FlatParam} {params : Params}
    (names : params.names = flat.map fun p => some p.name)
    (same : params.tokens = (Params.ofFlat variadic flat).tokens) :
    params.types = (Params.ofFlat variadic flat).types := by
  induction flat generalizing params with
  | nil =>
    cases params with
    | nil =>
      cases variadic with
      | false => rfl
      | true => cases same
    | ellipsis =>
      cases variadic with
      | false => cases same
      | true => rfl
    | cons spec d rest => cases names
  | cons p flat ih =>
    cases params with
    | nil => cases names
    | ellipsis => cases names
    | cons spec d rest =>
      obtain ⟨declared, names⟩ := List.cons.inj names
      have noPunct : ∀ c, c ≠ '*' → c ≠ ',' → c ≠ '.' → .punct c ∉ d.tokens := by
        intro c star comma dot member
        apply @punct_not_mem_ofFlat variadic (p :: flat) c star comma dot
        rw [← same, Params.tokens_cons]
        exact List.mem_append_left _ (List.mem_append_right _ member)
      rw [tokens_ofFlat_cons, Params.tokens_cons] at same
      obtain ⟨type, behind⟩ := flat_param_unique declared (noPunct '(' (by decide) (by decide) (by decide))
        (noPunct '[' (by decide) (by decide) (by decide))
        (fun front plain whole => split_behind plain (p.punct_not_mem (by decide)) whole) same
      rw [Params.types, Params.ofFlat, Params.types, type, ih names (Params.tokens_of_behind behind)]

/-- The head of a function whose result and parameters are chains of pointers. -/
def flatHead (levels : List (List Qualifier)) (name : Str) (variadic : Bool) (flat : List FlatParam) : Declarator :=
  .pointers levels (.function (.name name) (.ofFlat variadic flat))

theorem tokens_function (p : FlatParam) (params : Params) :
    p.spec.tokens ++ (Declarator.pointers p.levels (.function (.name p.name) params)).tokens =
      p.tokens ++ .punct '(' :: (params.tokens ++ [.punct ')']) := by
  rw [tokens_pointers, FlatParam.tokens, Declarator.tokens, Declarator.tokens]
  simp

/-- The text of a flat head declares nothing else. -/
theorem flat_head_unique {text : Str} {head : FlatParam} {variadic : Bool} {flat : List FlatParam} {params : Params}
    {result : CType}
    (tokens : lex text = head.spec.tokens ++ (flatHead head.levels head.name variadic flat).tokens)
    (declares : DeclaresFunction text head.name params result) (names : params.names = flat.map fun p => some p.name) :
    params.types = (Params.ofFlat variadic flat).types ∧
      result = head.levels.foldl (fun t quals => .pointer quals.toFinset t) head.spec.type := by
  obtain ⟨spec, d, valid, tokens', declared, own, type, _⟩ := declares
  have same := tokens'.symm.trans tokens
  rw [flatHead, tokens_function] at same
  have inside : ∀ c, c ≠ '*' → c ≠ ',' → c ≠ '.' → .punct c ∉ (Params.ofFlat variadic flat).tokens :=
    fun _ => punct_not_mem_ofFlat
  have noBracket : .punct '[' ∉ d.tokens := by
    intro member
    have member : .punct '[' ∈ head.tokens ++ .punct '(' :: ((Params.ofFlat variadic flat).tokens ++ [.punct ')']) :=
      same ▸ List.mem_append_right _ member
    have front := head.punct_not_mem (show '[' ≠ '*' by decide)
    simp [front, inside '[' (by decide) (by decide) (by decide)] at member
  have one : d.tokens.count (.punct '(') = 1 := by
    have specFree := List.count_eq_zero.mpr (punct_not_mem_specifiers spec '(')
    have frontFree := List.count_eq_zero.mpr (head.punct_not_mem (show '(' ≠ '*' by decide))
    have insideFree := List.count_eq_zero.mpr (inside '(' (by decide) (by decide) (by decide))
    have counts := congrArg (List.count (.punct '(')) same
    rw [List.count_append, specFree, List.count_append, frontFree, List.count_cons_self, List.count_append,
      insideFree] at counts
    simpa using counts
  obtain ⟨levels, rfl⟩ := exists_function valid declared own one noBracket
  have same := (tokens_function ⟨spec, levels, head.name⟩ params).symm.trans same
  obtain ⟨fronts, backs⟩ := split_first (FlatParam.punct_not_mem _ (by decide)) (head.punct_not_mem (by decide)) same
  obtain ⟨specs, rfl⟩ := levelTokens_unique (punct_not_mem_specifiers spec '*')
    (punct_not_mem_specifiers head.spec '*') (List.append_cancel_right fronts)
  refine ⟨flat_params_unique names (List.append_cancel_right backs), ?_⟩
  rw [type_pointers, Specifiers.type_of_tokens specs] at type
  injection type with _ results
  exact results.symm

theorem names_ofFlat (variadic : Bool) (flat : List FlatParam) :
    (Params.ofFlat variadic flat).names = flat.map fun p => some p.name := by
  induction flat with
  | nil => cases variadic <;> rfl
  | cons p flat ih =>
    rw [Params.ofFlat, Params.names, FlatParam.declarator, declared_pointers, ih]
    rfl

theorem valid_ofFlat {variadic : Bool} {flat : List FlatParam} (names : ∀ p ∈ flat, Identifier p.name) :
    (Params.ofFlat variadic flat).Valid := by
  induction flat with
  | nil => cases variadic <;> trivial
  | cons p flat ih =>
    obtain ⟨here, rest⟩ := List.forall_mem_cons.mp names
    exact ⟨valid_pointers.mpr here, ih rest⟩

/-- The text of a flat head declares what its tree does. -/
theorem flat_head_declares {text : Str} {head : FlatParam} {variadic : Bool} {flat : List FlatParam}
    (tokens : lex text = head.spec.tokens ++ (flatHead head.levels head.name variadic flat).tokens)
    (valid : Identifier head.name) (names : ∀ p ∈ flat, Identifier p.name)
    (visible : (Params.ofFlat variadic flat).types.Scoped [] (Params.ofFlat variadic flat).names) :
    DeclaresFunction text head.name (.ofFlat variadic flat)
      (head.levels.foldl (fun t quals => .pointer quals.toFinset t) head.spec.type) := by
  refine ⟨head.spec, flatHead head.levels head.name variadic flat, ?_, tokens, ?_, ?_, ?_, visible⟩
  · exact valid_pointers.mpr ⟨rfl, valid, valid_ofFlat names⟩
  · exact declared_pointers _ _
  · exact ownParams_pointers _ _
  · exact type_pointers _ _ _

end CDeclaration
