import Tbf.Library.Words
import Tbf.Utils

/-!
# The keyword stage of `_rewrite_cproblems`

The spellings that GCC adds to C are replaced line by line, one after the other and wherever they occur. The
keywords are tokens of their own.
-/

namespace Tbf
open Text

/-- The substitutions in the order of the source. -/
def keywordReplacements : List (Str × Str) :=
  [("__extension__".toList, []), ("__restrict".toList, []), ("__restrict__".toList, []), ("__inline__".toList, []),
    ("__inline".toList, []), ("__const".toList, "const".toList), ("__signed__".toList, "signed".toList),
    ("__builtin_va_list".toList, "int".toList)]

/-- The keyword stage, for one line. -/
def rewriteKeywords (line : Str) : Str := replaceAll keywordReplacements line

/-! ### Lines and their tokens -/

/-- An identifier, keywords included, or anything else that stands on a line: a number, a literal, white space. -/
inductive LineToken where
  | identifier (x : CIdentifier)
  | other (text : Str) (solid : text ≠ []) (noIdentifier : ∀ x : CIdentifier, x.name ≠ text)

def LineToken.text : LineToken → Str
  | identifier x => x.name
  | other text _ _ => text

/-- A line as a sequence of tokens. No token goes on in the next one. -/
structure TokenLine where
  tokens : List LineToken
  apart : (tokens.map LineToken.text).IsChain (Apart isIdentifierChar)

def TokenLine.text (l : TokenLine) : Str := (l.tokens.map LineToken.text).flatten

/-- What becomes of an identifier: a keyword is deleted or replaced, and every other identifier stays. -/
def keywordMeaning (name : Str) : Str := (keywordReplacements.lookup name).getD name

/-- What should become of a token. Nothing is asked of a token of another kind, which the stage keeps exactly if none of
the spellings is in it (`rewriteKeywords_eq_self_iff`). -/
def LineToken.rewritten : LineToken → Str
  | identifier x => keywordMeaning x.name
  | other text _ _ => rewriteKeywords text

/-- The stage deletes and replaces the keywords and leaves every other identifier alone. What it does to a token
of another kind depends on this token only. -/
def RewritesTokens (l : TokenLine) : Prop := rewriteKeywords l.text = l.tokens.flatMap LineToken.rewritten

/-- Text with a character that no identifier has. -/
def LineToken.between (text : Str) (c : Char) (member : c ∈ text) (noChar : isIdentifierChar c = false) : LineToken :=
  other text (List.ne_nil_of_mem member) fun x same => by
    have letter := x.chars c (by rw [same]; exact member)
    rw [noChar] at letter
    cases letter

theorem LineToken.text_ne_nil (t : LineToken) : t.text ≠ [] := by
  cases t with
  | identifier x => exact x.nonempty
  | other text solid _ => exact solid

theorem TokenLine.exists_cons (t : LineToken) (l : TokenLine) (border : Apart isIdentifierChar t.text l.text) :
    ∃ l' : TokenLine, l'.text = t.text ++ l.text := by
  refine ⟨⟨t :: l.tokens, ?_⟩, rfl⟩
  rw [List.map_cons]
  cases split : l.tokens with
  | nil => exact .singleton _
  | cons next tokens =>
    have apart := l.apart
    rw [TokenLine.text, split, List.map_cons, List.flatten_cons, Apart,
      List.head?_append_of_ne_nil _ next.text_ne_nil] at border
    rw [split, List.map_cons] at apart
    exact .cons_cons border apart

/-- Every line is a sequence of tokens. -/
theorem exists_tokenLine (line : Str) : ∃ l : TokenLine, l.text = line := by
  induction Pattern.exists_runs isIdentifierChar line with
  | nil => exact ⟨⟨[], .nil⟩, rfl⟩
  | @other c rest noChar _ ih =>
    obtain ⟨l, rfl⟩ := ih
    exact TokenLine.exists_cons (.between [c] c List.mem_cons_self noChar) l
      (Or.inl (by simpa [LineToken.between, LineToken.text] using noChar))
  | @run r rest some chars border _ ih =>
    obtain ⟨l, rfl⟩ := ih
    by_cases noDigit : ∀ c ∈ r.head?, c.isDigit = false
    · exact TokenLine.exists_cons (.identifier ⟨r, some, chars, noDigit⟩) l (Or.inr border)
    · have number : ∀ x : CIdentifier, x.name ≠ r := fun x same => noDigit (same ▸ x.noDigit)
      exact TokenLine.exists_cons (.other r some number) l (Or.inr border)

/-! ### One identifier -/

/-- The keywords that the substitutions treat as they should; `__restrict__` is not among them. -/
def handledKeywords : List Str :=
  ["__extension__".toList, "__restrict".toList, "__inline__".toList, "__inline".toList, "__const".toList,
    "__signed__".toList, "__builtin_va_list".toList]

/-- One of the spellings is in the name, as a whole or as a part. -/
def HasSpelling (name : Str) : Prop := ∃ r ∈ keywordReplacements, r.1 <:+: name

theorem keywordReplacements_solid : ∀ r ∈ keywordReplacements, r.1 ≠ [] := by decide

theorem keywordReplacements_shorter : ∀ r ∈ keywordReplacements, r.2.length < r.1.length := by decide

theorem keywordReplacements_chars :
    ∀ r ∈ keywordReplacements, (∀ c ∈ r.1, isIdentifierChar c = true) ∧ ∀ c ∈ r.2, isIdentifierChar c = true := by
  have all : (keywordReplacements.all fun r => r.1.all isIdentifierChar && r.2.all isIdentifierChar) = true := by decide
  intro r member
  have both := List.all_eq_true.mp all r member
  rw [Bool.and_eq_true, List.all_eq_true, List.all_eq_true] at both
  exact both

theorem rewriteKeywords_chars {name : Str} (chars : ∀ c ∈ name, isIdentifierChar c = true) :
    ∀ c ∈ rewriteKeywords name, isIdentifierChar c = true :=
  forall_mem_replaceAll (fun r member => ⟨keywordReplacements_solid r member, (keywordReplacements_chars r member).2⟩) chars

theorem keywordMeaning_chars {name : Str} (chars : ∀ c ∈ name, isIdentifierChar c = true) :
    ∀ c ∈ keywordMeaning name, isIdentifierChar c = true := by
  rw [keywordMeaning]
  cases found : keywordReplacements.lookup name with
  | none => exact chars
  | some meaning =>
    obtain ⟨before, behind, split, _⟩ := List.lookup_eq_some_iff.mp found
    have member : (name, meaning) ∈ keywordReplacements := by rw [split]; simp
    exact (keywordReplacements_chars _ member).2

theorem keywordMeaning_of_unhandled {name : Str} (other : name ∉ handledKeywords)
    (noRestrict : name ≠ "__restrict__".toList) :
    keywordMeaning name = name := by
  have each : ∀ r ∈ keywordReplacements, r.1 ∈ handledKeywords ∨ r.1 = "__restrict__".toList := by decide
  have missing : keywordReplacements.lookup name = none := by
    rw [List.lookup_eq_none_iff]
    intro r member
    rw [bne_iff_ne]
    intro same
    rcases each r member with handled | restrict
    · exact other (same ▸ handled)
    · exact noRestrict (same.trans restrict)
  rw [keywordMeaning, missing]
  rfl

/-- Any text at all, a literal for one, is left alone if and only if it has none of the spellings in it. -/
theorem rewriteKeywords_eq_self_iff (text : Str) : rewriteKeywords text = text ↔ ¬ HasSpelling text := by
  simp only [rewriteKeywords, replaceAll_eq_self_iff keywordReplacements_shorter, HasSpelling, not_exists, not_and]

theorem rewriteKeywords_eq_keywordMeaning_iff (name : Str) :
    rewriteKeywords name = keywordMeaning name ↔ name ∈ handledKeywords ∨ ¬ HasSpelling name := by
  by_cases handled : name ∈ handledKeywords
  · have each : ∀ name ∈ handledKeywords, rewriteKeywords name = keywordMeaning name := by decide
    exact iff_of_true (each name handled) (Or.inl handled)
  · rw [or_iff_right handled]
    by_cases restrict : name = "__restrict__".toList
    · subst restrict
      -- `__restrict` has been cut out of it when its own turn comes, and the rest stays.
      have spelled : HasSpelling "__restrict__".toList := ⟨("__restrict__".toList, []), by decide, List.infix_refl _⟩
      exact iff_of_false (by decide) (not_not.mpr spelled)
    · rw [keywordMeaning_of_unhandled handled restrict, rewriteKeywords_eq_self_iff]

/-! ### The tokens of a line -/

theorem wordWise_rewriteKeywords : WordWise isIdentifierChar rewriteKeywords :=
  wordWise_replaceAll fun r member => ⟨keywordReplacements_solid r member, (keywordReplacements_chars r member).1⟩

theorem rewriteKeywords_text (l : TokenLine) : rewriteKeywords l.text = l.tokens.flatMap fun t => rewriteKeywords t.text := by
  have solid : ∀ part ∈ l.tokens.map LineToken.text, part ≠ [] := by
    intro part member
    obtain ⟨t, _, rfl⟩ := List.mem_map.mp member
    exact t.text_ne_nil
  rw [TokenLine.text, wordWise_rewriteKeywords.flatten solid l.apart, List.flatMap_map]

/-- What follows an identifier begins with something else, and still does when it has been rewritten. -/
theorem border_behind {x : CIdentifier} {t : LineToken} (apart : Apart isIdentifierChar x.name t.text) :
    t.rewritten = rewriteKeywords t.text ∧ rewriteKeywords t.text ≠ [] ∧
      ∀ c ∈ (rewriteKeywords t.text).head?, isIdentifierChar c = false := by
  obtain ⟨c, rest, split⟩ := List.exists_cons_of_ne_nil t.text_ne_nil
  have other : isIdentifierChar c = false := by
    rcases apart with left | right
    · have lastLetter := x.chars _ (List.getLast_mem x.nonempty)
      rw [left _ (List.getLast?_eq_some_getLast x.nonempty)] at lastLetter
      cases lastLetter
    · exact right c (by rw [split]; rfl)
  have kept : rewriteKeywords t.text = c :: rewriteKeywords rest := by rw [split, wordWise_rewriteKeywords.cons other]
  refine ⟨?_, by rw [kept]; exact List.cons_ne_nil _ _, by simpa [kept] using other⟩
  cases t with
  | other text _ _ => rfl
  | identifier y =>
    have letter := y.chars c (by rw [← LineToken.text, split]; exact List.mem_cons_self)
    rw [other] at letter
    cases letter

/-- The results of the tokens can be read off the result of the line. -/
theorem each_of_flatMap_eq {tokens : List LineToken} (apart : (tokens.map LineToken.text).IsChain (Apart isIdentifierChar))
    (same : (tokens.flatMap fun t => rewriteKeywords t.text) = tokens.flatMap LineToken.rewritten) :
    ∀ t ∈ tokens, rewriteKeywords t.text = t.rewritten := by
  induction tokens with
  | nil => exact fun t member => absurd member List.not_mem_nil
  | cons t tokens ih =>
    rw [List.flatMap_cons, List.flatMap_cons] at same
    have here : rewriteKeywords t.text = t.rewritten := by
      cases t with
      | other text _ _ => rfl
      | identifier x =>
        have borders : (∀ c ∈ (tokens.flatMap fun t => rewriteKeywords t.text).head?, isIdentifierChar c = false) ∧
            ∀ c ∈ (tokens.flatMap LineToken.rewritten).head?, isIdentifierChar c = false := by
          cases tokens with
          | nil => simp
          | cons next tokens =>
            obtain ⟨result, some, border⟩ := border_behind (List.isChain_cons_cons.mp apart).1
            rw [List.flatMap_cons, List.flatMap_cons, result, List.head?_append_of_ne_nil _ some,
              List.head?_append_of_ne_nil _ some]
            exact ⟨border, border⟩
        exact (Pattern.run_unique (rewriteKeywords_chars x.chars) (keywordMeaning_chars x.chars) borders.1 borders.2 same).1
    rw [here] at same
    exact List.forall_mem_cons.mpr ⟨here, ih apart.of_cons (List.append_cancel_left same)⟩

/-- The stage works on whole tokens if and only if every identifier on the line is one of the seven keywords, or has
none of the spellings in it. -/
theorem rewritesTokens_iff (l : TokenLine) :
    RewritesTokens l ↔ ∀ x, .identifier x ∈ l.tokens → x.name ∈ handledKeywords ∨ ¬ HasSpelling x.name := by
  have each : RewritesTokens l ↔ ∀ t ∈ l.tokens, rewriteKeywords t.text = t.rewritten := by
    rw [RewritesTokens, rewriteKeywords_text]
    exact ⟨each_of_flatMap_eq l.apart, List.flatMap_congr⟩
  rw [each]
  constructor
  · intro all x member
    have here := all (.identifier x) member
    rwa [LineToken.text, LineToken.rewritten, rewriteKeywords_eq_keywordMeaning_iff] at here
  · intro condition t member
    cases t with
    | other text _ _ => rfl
    | identifier x =>
      rw [LineToken.text, LineToken.rewritten, rewriteKeywords_eq_keywordMeaning_iff]
      exact condition x member

/-- `char *__restrict__ s` keeps two underscores of the keyword. -/
def restrictLine : TokenLine where
  tokens := [.identifier (.of "char".toList (by decide)), .between " *".toList '*' (by decide) (by decide),
    .identifier (.of "__restrict__".toList (by decide)), .between " ".toList ' ' (by decide) (by decide),
    .identifier (.of "s".toList (by decide))]
  apart := by decide

theorem restrict_not_rewritten : ¬ RewritesTokens restrictLine := by
  have kept : rewriteKeywords restrictLine.text = "char *__ s".toList := by decide
  have wanted : restrictLine.tokens.flatMap LineToken.rewritten = "char * s".toList := by decide
  rw [RewritesTokens, kept, wanted]
  decide

end Tbf
