import Mathlib.Data.List.Chain
import Tbf.Library.CDeclaration

/-!
# The tokens of a declaration

What every text that declares something has to look like: how many stars are in it, which characters, and
what stands behind what.
-/

namespace CDeclaration
open Text

/-! ### Counting -/

theorem count_attach (c : Char) (touches : Bool) (tokens : List Token) (p : Char) :
    (attach c touches tokens).count (.punct p) = tokens.count (.punct p) := by
  unfold attach
  split
  · split <;> simp
  · simp

theorem count_lex {p : Char} (noWord : isWordChar p = false) (solid : p ≠ ' ') (s : Str) :
    (lex s).count (.punct p) = s.count p := by
  induction s with
  | nil => rfl
  | cons c s ih =>
    rw [lex_cons, List.count_cons]
    by_cases letter : isWordChar c = true
    · have other : c ≠ p := by
        rintro rfl
        rw [letter] at noWord
        cases noWord
      rw [if_pos letter, count_attach, ih]
      simp [other]
    · rw [if_neg letter]
      by_cases blank : c = ' '
      · rw [if_pos blank, ih]
        simp [blank, Ne.symm solid]
      · rw [if_neg blank, List.count_cons, ih]
        simp

/-! ### The tokens of a tree -/

mutual

/-- The pointers in a type. -/
def CType.stars : CType → Nat
  | .base _ _ => 0
  | .pointer _ t => t.stars + 1
  | .array _ t => t.stars
  | .function params result => params.stars + result.stars

def CParams.stars : CParams → Nat
  | .nil | .ellipsis => 0
  | .cons t rest => t.stars + rest.stars

end

mutual

/-- Every pointer of the declared type is a star of the text. -/
theorem Declarator.stars_type : ∀ (d : Declarator) (t : CType), (d.type t).stars = d.tokens.count (.punct '*') + t.stars
  | .abstract, t => (Nat.zero_add _).symm
  | .name n, t => by simp [Declarator.type, Declarator.tokens]
  | .pointer quals d, t => by
    have words : (quals.map fun q => Token.word q.text).count (.punct '*') = 0 :=
      List.count_eq_zero.mpr (by simp)
    rw [Declarator.type, Declarator.stars_type d, CType.stars, Declarator.tokens, List.cons_append, List.count_cons_self,
      List.count_append, words]
    omega
  | .array d length, t => by
    rw [Declarator.type, Declarator.stars_type d, CType.stars, Declarator.tokens]
    cases length <;> simp [numeral]
  | .paren d, t => by
    rw [Declarator.type, Declarator.stars_type d, Declarator.tokens]
    simp
  | .function d params, t => by
    rw [Declarator.type, Declarator.stars_type d, CType.stars, Params.stars_types params, Declarator.tokens]
    simp [Nat.add_assoc]

theorem Params.stars_types : ∀ params : Params, params.types.stars = params.tokens.count (.punct '*')
  | .nil => rfl
  | .ellipsis => rfl
  | .cons spec d rest => by
    have words : spec.tokens.count (.punct '*') = 0 := List.count_eq_zero.mpr (punct_not_mem_specifiers spec '*')
    have later : rest.behind.count (.punct '*') = rest.tokens.count (.punct '*') := by
      cases rest <;> simp [Params.behind, Params.tokens]
    rw [Params.types, CParams.stars, Declarator.stars_type d, Params.stars_types rest, Params.tokens_cons, List.count_append,
      List.count_append, words, later]
    simp [Specifiers.type, CType.stars]

end

/-- What stands behind a token: a star never behind a bracket that closes. -/
def Follows (t u : Token) : Prop := u = .punct '*' → t ≠ .punct ')' ∧ t ≠ .punct ']'

theorem isChain_append {front back : List Token} (left : front.IsChain Follows) (right : back.IsChain Follows)
    (border : (∀ t ∈ front.getLast?, t ≠ .punct ')' ∧ t ≠ .punct ']') ∨ ∀ u ∈ back.head?, u ≠ .punct '*') :
    (front ++ back).IsChain Follows := by
  refine List.isChain_append.mpr ⟨left, right, fun t last u first star => ?_⟩
  rcases border with opens | noStar
  · exact opens t last
  · exact absurd star (noStar u first)

theorem isChain_words {tokens : List Token} (words : ∀ t ∈ tokens, ∃ w, t = .word w) : tokens.IsChain Follows := by
  induction tokens with
  | nil => exact .nil
  | cons t tokens ih =>
    obtain ⟨⟨w, rfl⟩, rest⟩ := List.forall_mem_cons.mp words
    exact isChain_append (.singleton _) (ih rest) (Or.inl (by simp))

theorem words_specifiers (spec : Specifiers) : ∀ t ∈ spec.tokens, ∃ w, t = .word w := by
  intro t member
  obtain ⟨w, _, rfl⟩ := List.mem_map.mp member
  exact ⟨w, rfl⟩

theorem ends_in_word {front : List Token} (words : ∀ t ∈ front, ∃ w, t = .word w) :
    ∀ t ∈ front.getLast?, t ≠ .punct ')' ∧ t ≠ .punct ']' := by
  intro t last
  obtain ⟨w, rfl⟩ := words t (List.mem_of_getLast? last)
  simp

mutual

theorem Declarator.isChain_tokens : ∀ d : Declarator, d.tokens.IsChain Follows
  | .abstract => .nil
  | .name n => .singleton _
  | .pointer quals d => by
    have words : ∀ t ∈ quals.map fun q => Token.word q.text, ∃ w, t = .word w := by simp
    rw [Declarator.tokens, List.cons_append]
    refine isChain_append (.singleton _) ?_ (Or.inl (by simp))
    exact isChain_append (isChain_words words) (Declarator.isChain_tokens d) (Or.inl (ends_in_word words))
  | .array d length => by
    have words : ∀ t ∈ numeral length, ∃ w, t = .word w := by simp [numeral]
    rw [Declarator.tokens, List.append_assoc, List.cons_append]
    refine isChain_append (Declarator.isChain_tokens d) ?_ (Or.inr (by simp))
    refine isChain_append (.singleton _) ?_ (Or.inl (by simp))
    exact isChain_append (isChain_words words) (.singleton _) (Or.inr (by simp))
  | .paren d => by
    rw [Declarator.tokens, List.cons_append]
    refine isChain_append (.singleton _) ?_ (Or.inl (by simp))
    exact isChain_append (Declarator.isChain_tokens d) (.singleton _) (Or.inr (by simp))
  | .function d params => by
    rw [Declarator.tokens, List.append_assoc, List.cons_append]
    refine isChain_append (Declarator.isChain_tokens d) ?_ (Or.inr (by simp))
    refine isChain_append (.singleton _) ?_ (Or.inl (by simp))
    exact isChain_append (Params.isChain_tokens params) (.singleton _) (Or.inr (by simp))

theorem Params.isChain_tokens : ∀ params : Params, params.tokens.IsChain Follows
  | .nil => .nil
  | .ellipsis => isChain_append (.singleton _) (isChain_append (.singleton _) (.singleton _) (Or.inr (by simp))) (Or.inr (by simp))
  | .cons spec d rest => by
    have words := words_specifiers spec
    have later : rest.behind.IsChain Follows := by
      cases rest with
      | nil => exact .nil
      | ellipsis => exact isChain_append (.singleton _) (Params.isChain_tokens .ellipsis) (Or.inr (by simp))
      | cons spec' d' rest' =>
        exact isChain_append (.singleton _) (Params.isChain_tokens (.cons spec' d' rest')) (Or.inl (by simp))
    rw [Params.tokens_cons]
    refine isChain_append (isChain_append (isChain_words words) (Declarator.isChain_tokens d) (Or.inl (ends_in_word words))) later
      (Or.inr ?_)
    cases rest <;> simp [Params.behind]

end

mutual

theorem Declarator.punct_of_mem : ∀ {d : Declarator} {c : Char}, .punct c ∈ d.tokens → c ∈ "*()[],.".toList
  | .abstract, _, member => by cases member
  | .name _, _, member => by cases List.mem_singleton.mp member
  | .pointer quals d, c, member => by
    simp only [Declarator.tokens, List.cons_append, List.mem_cons, List.mem_append, Token.punct.injEq] at member
    rcases member with rfl | words | member
    · decide
    · simp at words
    · exact Declarator.punct_of_mem member
  | .array d length, c, member => by
    simp only [Declarator.tokens, numeral, List.mem_append, List.mem_cons, List.mem_map, Token.punct.injEq, List.not_mem_nil,
      reduceCtorEq, and_false, exists_false, or_false] at member
    rcases member with (member | rfl) | rfl
    · exact Declarator.punct_of_mem member
    · decide
    · decide
  | .paren d, c, member => by
    simp only [Declarator.tokens, List.cons_append, List.mem_cons, List.mem_append, Token.punct.injEq, List.not_mem_nil,
      or_false] at member
    rcases member with rfl | member | rfl
    · decide
    · exact Declarator.punct_of_mem member
    · decide
  | .function d params, c, member => by
    simp only [Declarator.tokens, List.mem_append, List.mem_cons, Token.punct.injEq, List.not_mem_nil, or_false] at member
    rcases member with (member | rfl | member) | rfl
    · exact Declarator.punct_of_mem member
    · decide
    · exact Params.punct_of_mem member
    · decide

theorem Params.punct_of_mem : ∀ {params : Params} {c : Char}, .punct c ∈ params.tokens → c ∈ "*()[],.".toList
  | .nil, _, member => by cases member
  | .ellipsis, c, member => by
    simp only [Params.tokens, List.mem_cons, Token.punct.injEq, List.not_mem_nil, or_false, or_self] at member
    rw [member]
    decide
  | .cons spec d rest, c, member => by
    have later : .punct c ∈ rest.behind → c = ',' ∨ .punct c ∈ rest.tokens := by
      cases rest <;> simp [Params.behind]
    rw [Params.tokens_cons] at member
    rcases List.mem_append.mp member with member | member
    · rcases List.mem_append.mp member with member | member
      · exact absurd member (punct_not_mem_specifiers spec c)
      · exact Declarator.punct_of_mem member
    · rcases later member with rfl | member
      · decide
      · exact Params.punct_of_mem member

end

/-! ### Texts that declare a function -/

theorem DeclaresFunction.stars {text name : Str} {params : Params} {result : CType}
    (declares : DeclaresFunction text name params result) : text.count '*' = params.types.stars + result.stars := by
  obtain ⟨spec, d, _, tokens, _, _, type, _⟩ := declares
  have words : spec.tokens.count (.punct '*') = 0 := List.count_eq_zero.mpr (punct_not_mem_specifiers spec '*')
  have whole := d.stars_type spec.type
  rw [type] at whole
  rw [← count_lex (by decide) (by decide), tokens, List.count_append, words, Nat.zero_add, ← Nat.add_zero (d.tokens.count _)]
  exact whole.symm

theorem DeclaresFunction.isChain {text name : Str} {params : Params} {result : CType}
    (declares : DeclaresFunction text name params result) : (lex text).IsChain Follows := by
  obtain ⟨spec, d, _, tokens, _⟩ := declares
  rw [tokens]
  exact isChain_append (isChain_words (words_specifiers spec)) d.isChain_tokens (Or.inl (ends_in_word (words_specifiers spec)))

/-- No star behind a bracket that closes. -/
theorem DeclaresFunction.no_star_behind {text name : Str} {params : Params} {result : CType}
    (declares : DeclaresFunction text name params result) {c : Char} (closes : c = ')' ∨ c = ']') :
    ¬ [c, ' ', '*'] <:+: text := by
  rintro ⟨front, back, rfl⟩
  have shape : front ++ [c, ' ', '*'] ++ back = front ++ c :: (([] ++ ' ' :: ([] ++ '*' :: back))) := by simp
  have noWord : isWordChar c = false ∧ c ≠ ' ' := by rcases closes with rfl | rfl <;> decide
  have chain := declares.isChain
  rw [shape, lex_punct _ _ noWord.1 noWord.2, lex_blank, lex_punct _ _ (by decide) (by decide)] at chain
  have pair : [Token.punct c, .punct '*'].IsChain Follows := chain.infix ⟨lex front, lex back, by simp [lex]⟩
  obtain ⟨noParen, noBracket⟩ := (List.isChain_pair.mp pair) rfl
  rcases closes with rfl | rfl
  · exact noParen rfl
  · exact noBracket rfl

theorem DeclaresFunction.no_brace {text name : Str} {params : Params} {result : CType}
    (declares : DeclaresFunction text name params result) : '\x7b' ∉ text := by
  obtain ⟨spec, d, _, tokens, _⟩ := declares
  intro member
  rw [← List.count_pos_iff, ← count_lex (by decide) (by decide), List.count_pos_iff, tokens] at member
  rcases List.mem_append.mp member with member | member
  · exact punct_not_mem_specifiers spec _ member
  · exact absurd (Declarator.punct_of_mem member) (by decide)

end CDeclaration
