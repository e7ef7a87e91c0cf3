import Mathlib.Data.List.SplitBy
import Tbf.Library.Pattern

/-!
# Replacing inside words

`str.replace` knows no words: it replaces every occurrence. When the text replaced consists of word characters
only, no occurrence crosses the border of a word, so that a text can be rewritten word by word.
-/

namespace Text

variable {α : Type*} [DecidableEq α] {old new : List α}

/-! ### One occurrence after the other -/

theorem replaceSub_nil (old new : List α) : replaceSub old new [] = [] := rfl

theorem replaceSub_here (solid : old ≠ []) (new xs : List α) :
    replaceSub old new (old ++ xs) = new ++ replaceSub old new xs := by
  obtain ⟨part, parts, split⟩ := List.exists_cons_of_ne_nil (splitFrom_ne_nil old 0 xs)
  have split : splitSub old xs = part :: parts := split
  rw [replaceSub, replaceSub, splitSub_sep_append solid, split, List.intercalate_cons_cons, List.nil_append]

theorem replaceSub_cons {x : α} {xs : List α} (absent : ¬ old <+: x :: xs) (new : List α) :
    replaceSub old new (x :: xs) = x :: replaceSub old new xs := by
  obtain ⟨part, parts, split⟩ := List.exists_cons_of_ne_nil (splitFrom_ne_nil old 0 xs)
  have split : splitSub old xs = part :: parts := split
  rw [replaceSub, replaceSub, splitSub_cons absent, split, List.modifyHead_cons]
  cases parts with
  | nil => simp
  | cons next parts => simp [List.intercalate_cons_cons]

/-- The way `replace` goes through a text. -/
@[elab_as_elim]
theorem replace_induction (solid : old ≠ []) {P : List α → Prop} (nil : P [])
    (here : ∀ xs, P xs → P (old ++ xs)) (cons : ∀ x xs, ¬ old <+: x :: xs → P xs → P (x :: xs)) (xs : List α) :
    P xs := by
  obtain ⟨n, length⟩ : ∃ n, xs.length ≤ n := ⟨_, Nat.le_refl _⟩
  induction n generalizing xs with
  | zero =>
    obtain rfl := List.eq_nil_of_length_eq_zero (Nat.le_zero.mp length)
    exact nil
  | succ n ih =>
    cases xs with
    | nil => exact nil
    | cons x xs =>
      by_cases found : old <+: x :: xs
      · obtain ⟨rest, split⟩ := found
        rw [← split]
        apply here
        apply ih
        have positive := List.length_pos_of_ne_nil solid
        have whole := congrArg List.length split
        rw [List.length_append] at whole
        omega
      · exact cons x xs found (ih xs (Nat.le_of_succ_le_succ length))

theorem replaceSub_of_absent {xs : List α} (absent : ¬ old <:+: xs) : replaceSub old new xs = xs := by
  induction xs with
  | nil => rfl
  | cons x xs ih =>
    have front : ¬ old <+: x :: xs := fun front => absent front.isInfix
    rw [replaceSub_cons front, ih fun inside => absent (inside.trans (List.suffix_cons x xs).isInfix)]

theorem replaceSub_eq_nil (solid : old ≠ []) (solidNew : new ≠ []) {xs : List α} :
    replaceSub old new xs = [] ↔ xs = [] := by
  induction xs using replace_induction solid with
  | nil => simp [replaceSub_nil]
  | here xs _ => simp [replaceSub_here solid, solid, solidNew]
  | cons x xs absent _ => simp [replaceSub_cons absent]

theorem new_infix_replaceSub (solid : old ≠ []) {xs : List α} (found : old <:+: xs) : new <:+: replaceSub old new xs := by
  induction xs using replace_induction solid with
  | nil => exact absurd (List.infix_nil.mp found) solid
  | here xs _ =>
    rw [replaceSub_here solid]
    exact (List.prefix_append _ _).isInfix
  | cons x xs absent ih =>
    rw [replaceSub_cons absent]
    exact (ih ((List.infix_cons_iff.mp found).resolve_left absent)).trans (List.suffix_cons _ _).isInfix

theorem forall_mem_replaceSub (solid : old ≠ []) {p : α → Prop} (made : ∀ x ∈ new, p x) {xs : List α}
    (all : ∀ x ∈ xs, p x) : ∀ x ∈ replaceSub old new xs, p x := by
  induction xs using replace_induction solid with
  | nil => exact all
  | here xs ih =>
    rw [replaceSub_here solid, List.forall_mem_append]
    exact ⟨made, ih (List.forall_mem_append.mp all).2⟩
  | cons x xs absent ih =>
    rw [replaceSub_cons absent, List.forall_mem_cons]
    exact ⟨(List.forall_mem_cons.mp all).1, ih (List.forall_mem_cons.mp all).2⟩

/-! ### Getting shorter and longer -/

/-- Every replacement takes away as much as it puts in, and there is one exactly where there is an occurrence. -/
theorem length_replaceSub (solid : old ≠ []) (new xs : List α) :
    ∃ n, (replaceSub old new xs).length + n * old.length = xs.length + n * new.length ∧ (0 < n ↔ old <:+: xs) := by
  induction xs using replace_induction solid with
  | nil => exact ⟨0, by simp [replaceSub_nil], by simp [solid]⟩
  | here xs ih =>
    obtain ⟨n, same, _⟩ := ih
    refine ⟨n + 1, ?_, iff_of_true (Nat.succ_pos n) (List.prefix_append _ _).isInfix⟩
    rw [replaceSub_here solid, List.length_append, List.length_append, Nat.succ_mul, Nat.succ_mul]
    omega
  | cons x xs absent ih =>
    obtain ⟨n, same, found⟩ := ih
    refine ⟨n, ?_, found.trans ?_⟩
    · rw [replaceSub_cons absent, List.length_cons, List.length_cons]
      omega
    · rw [List.infix_cons_iff, or_iff_right absent]

theorem length_replaceSub_le (solid : old ≠ []) (shorter : new.length ≤ old.length) (xs : List α) :
    (replaceSub old new xs).length ≤ xs.length := by
  obtain ⟨n, same, _⟩ := length_replaceSub solid new xs
  have less := Nat.mul_le_mul_left n shorter
  omega

theorem length_replaceSub_lt (shorter : new.length < old.length) {xs : List α} (found : old <:+: xs) :
    (replaceSub old new xs).length < xs.length := by
  have solid : old ≠ [] := List.ne_nil_of_length_pos (Nat.zero_lt_of_lt shorter)
  obtain ⟨n, same, some⟩ := length_replaceSub solid new xs
  have less := Nat.mul_lt_mul_of_pos_left shorter (some.mpr found)
  omega

theorem length_lt_replaceSub (solid : old ≠ []) (longer : old.length < new.length) {xs : List α} (found : old <:+: xs) :
    xs.length < (replaceSub old new xs).length := by
  obtain ⟨n, same, some⟩ := length_replaceSub solid new xs
  have more := Nat.mul_lt_mul_of_pos_left longer (some.mpr found)
  omega

/-- Replacements one after the other, each of the result of the one before. -/
def replaceAll (replacements : List (List α × List α)) (xs : List α) : List α :=
  replacements.foldl (fun xs r => replaceSub r.1 r.2 xs) xs

theorem replaceAll_cons (r : List α × List α) (replacements : List (List α × List α)) (xs : List α) :
    replaceAll (r :: replacements) xs = replaceAll replacements (replaceSub r.1 r.2 xs) := rfl

theorem length_replaceAll_le {replacements : List (List α × List α)}
    (shorter : ∀ r ∈ replacements, r.2.length < r.1.length) (xs : List α) :
    (replaceAll replacements xs).length ≤ xs.length := by
  induction replacements generalizing xs with
  | nil => exact Nat.le_refl _
  | cons r replacements ih =>
    obtain ⟨here, later⟩ := List.forall_mem_cons.mp shorter
    have solid : r.1 ≠ [] := List.ne_nil_of_length_pos (Nat.zero_lt_of_lt here)
    exact Nat.le_trans (ih later _) (length_replaceSub_le solid (Nat.le_of_lt here) xs)

theorem forall_mem_replaceAll {p : α → Prop} {replacements : List (List α × List α)}
    (made : ∀ r ∈ replacements, r.1 ≠ [] ∧ ∀ x ∈ r.2, p x) {xs : List α} (all : ∀ x ∈ xs, p x) :
    ∀ x ∈ replaceAll replacements xs, p x := by
  induction replacements generalizing xs with
  | nil => exact all
  | cons r replacements ih =>
    obtain ⟨here, later⟩ := List.forall_mem_cons.mp made
    exact ih later (forall_mem_replaceSub here.1 here.2 all)

/-- Where every replacement shortens, a text that is left as it was contains none of what is replaced. -/
theorem replaceAll_eq_self_iff {replacements : List (List α × List α)}
    (shorter : ∀ r ∈ replacements, r.2.length < r.1.length) {xs : List α} :
    replaceAll replacements xs = xs ↔ ∀ r ∈ replacements, ¬ r.1 <:+: xs := by
  induction replacements with
  | nil => simp [replaceAll]
  | cons r replacements ih =>
    obtain ⟨here, later⟩ := List.forall_mem_cons.mp shorter
    rw [replaceAll_cons, List.forall_mem_cons, ← ih later]
    by_cases found : r.1 <:+: xs
    · have first := length_replaceSub_lt here found
      have others := length_replaceAll_le later (replaceSub r.1 r.2 xs)
      constructor
      · intro same
        rw [same] at others
        omega
      · intro absent
        exact absurd found absent.1
    · rw [replaceSub_of_absent found]
      exact (and_iff_right found).symm

/-! ### Word by word -/

section WordByWord

variable {word : α → Bool}

/-- No word crosses the border between the two. -/
def Apart (word : α → Bool) (x y : List α) : Prop :=
  (∀ c ∈ x.getLast?, word c = false) ∨ (∀ c ∈ y.head?, word c = false)

instance (word : α → Bool) (x y : List α) : Decidable (Apart word x y) :=
  inferInstanceAs (Decidable ((∀ c ∈ x.getLast?, word c = false) ∨ (∀ c ∈ y.head?, word c = false)))

omit [DecidableEq α] in
theorem apart_nil_left (word : α → Bool) (y : List α) : Apart word [] y := by simp [Apart]

omit [DecidableEq α] in
theorem apart_nil_right (word : α → Bool) (x : List α) : Apart word x [] := by simp [Apart]

omit [DecidableEq α] in
theorem Apart.tail {x y z : List α} (apart : Apart word (x ++ y) z) : Apart word y z := by
  cases y with
  | nil => exact apart_nil_left word z
  | cons c y => rwa [Apart, List.getLast?_append_of_ne_nil _ (List.cons_ne_nil c y)] at apart

/-- A way to rewrite a text that goes word by word, and leaves alone what is between the words. -/
structure WordWise (word : α → Bool) (g : List α → List α) : Prop where
  nil : g [] = []
  other : ∀ c, word c = false → g [c] = [c]
  append : ∀ x y, Apart word x y → g (x ++ y) = g x ++ g y

namespace WordWise

omit [DecidableEq α]
variable {g h : List α → List α}

theorem id : WordWise word fun xs : List α => xs := ⟨rfl, fun _ _ => rfl, fun _ _ _ => rfl⟩

theorem cons (wise : WordWise word g) {c : α} (other : word c = false) (xs : List α) : g (c :: xs) = c :: g xs := by
  rw [← List.singleton_append, wise.append _ _ (Or.inl (by simpa using other)), wise.other c other]
  rfl

theorem others (wise : WordWise word g) {gap : List α} (others : ∀ c ∈ gap, word c = false) (xs : List α) :
    g (gap ++ xs) = gap ++ g xs := by
  induction gap with
  | nil => rfl
  | cons c gap ih =>
    obtain ⟨here, later⟩ := List.forall_mem_cons.mp others
    rw [List.cons_append, wise.cons here, ih later]
    rfl

theorem head?_eq (wise : WordWise word g) {xs : List α} (border : ∀ c ∈ xs.head?, word c = false) :
    (g xs).head? = xs.head? := by
  cases xs with
  | nil => rw [wise.nil]
  | cons c xs => simp [wise.cons (border c rfl)]

theorem getLast?_eq (wise : WordWise word g) {xs : List α} (border : ∀ c ∈ xs.getLast?, word c = false) :
    (g xs).getLast? = xs.getLast? := by
  rcases List.eq_nil_or_concat' xs with rfl | ⟨front, c, rfl⟩
  · rw [wise.nil]
  · have other : word c = false := border c (by simp)
    rw [wise.append _ _ (Or.inr (by simpa using other)), wise.other c other]
    simp

theorem head (wise : WordWise word g) {xs : List α} (border : ∀ c ∈ xs.head?, word c = false) :
    ∀ c ∈ (g xs).head?, word c = false := by
  rwa [wise.head?_eq border]

theorem last (wise : WordWise word g) {xs : List α} (border : ∀ c ∈ xs.getLast?, word c = false) :
    ∀ c ∈ (g xs).getLast?, word c = false := by
  rwa [wise.getLast?_eq border]

theorem apart (wise : WordWise word g) {x y : List α} (apart : Apart word x y) : Apart word (g x) (g y) :=
  apart.imp wise.last wise.head

theorem comp (outer : WordWise word h) (inner : WordWise word g) : WordWise word fun xs => h (g xs) where
  nil := by rw [inner.nil, outer.nil]
  other c other := by rw [inner.other c other, outer.other c other]
  append x y border := by rw [inner.append x y border, outer.append _ _ (inner.apart border)]

/-- A text that is cut between its words can be rewritten part by part. -/
theorem flatten (wise : WordWise word g) {parts : List (List α)} (solid : ∀ part ∈ parts, part ≠ [])
    (borders : parts.IsChain (Apart word)) : g parts.flatten = parts.flatMap g := by
  induction parts with
  | nil => exact wise.nil
  | cons part parts ih =>
    obtain ⟨_, later⟩ := List.forall_mem_cons.mp solid
    have border : Apart word part parts.flatten := by
      cases parts with
      | nil => exact apart_nil_right word part
      | cons next parts =>
        have here := (List.isChain_cons_cons.mp borders).1
        rwa [Apart, List.flatten_cons, List.head?_append_of_ne_nil _ (later next List.mem_cons_self)]
    rw [List.flatten_cons, wise.append _ _ border, ih later borders.of_cons, List.flatMap_cons]

end WordWise

/-- Every maximal word rewritten on its own, and everything else left as it is. -/
def mapWords (word : α → Bool) (g : List α → List α) (xs : List α) : List α :=
  (xs.splitBy fun a b => word a == word b).flatMap fun part => if part.all word then g part else part

omit [DecidableEq α] in
/-- The parts of `mapWords` are words, or there is no character of a word in them. -/
theorem word_or_others {part : List α} (alike : part.IsChain fun a b => (word a == word b) = true) :
    part.all word = true ∨ ∀ c ∈ part, word c = false := by
  cases part with
  | nil => exact Or.inl rfl
  | cons c part =>
    have each : ∀ d ∈ part, word c = word d := by
      have trans : IsTrans α fun a b => (word a == word b) = true :=
        ⟨fun a b c first second => beq_iff_eq.mpr ((beq_iff_eq.mp first).trans (beq_iff_eq.mp second))⟩
      intro d member
      exact beq_iff_eq.mp ((List.pairwise_cons.mp (List.isChain_iff_pairwise.mp alike)).1 d member)
    cases letter : word c with
    | false => exact Or.inr (List.forall_mem_cons.mpr ⟨letter, fun d member => (each d member).symm.trans letter⟩)
    | true =>
      rw [List.all_cons, letter, Bool.true_and, List.all_eq_true]
      exact Or.inl fun d member => (each d member).symm.trans letter

omit [DecidableEq α] in
/-- A rewriting that goes word by word does nothing else. -/
theorem WordWise.eq_mapWords {g : List α → List α} (wise : WordWise word g) (xs : List α) : g xs = mapWords word g xs := by
  have solid : ∀ part ∈ xs.splitBy fun a b => word a == word b, part ≠ [] := fun part => List.ne_nil_of_mem_splitBy
  have borders : (xs.splitBy fun a b => word a == word b).IsChain (Apart word) := by
    refine (List.isChain_getLast_head_splitBy _ xs).imp fun x y border => ?_
    obtain ⟨someLeft, someRight, differ⟩ := border
    cases right : word (y.head someRight) with
    | false => exact Or.inr (by simpa [List.head?_eq_some_head someRight] using right)
    | true =>
      rw [right] at differ
      exact Or.inl (by simpa [List.getLast?_eq_some_getLast someLeft] using differ)
  have whole := wise.flatten solid borders
  rw [List.flatten_splitBy] at whole
  rw [whole, mapWords]
  refine List.flatMap_congr fun part member => ?_
  rcases word_or_others (List.isChain_of_mem_splitBy member) with isWord | others
  · rw [if_pos isWord]
  · obtain ⟨c, rest, rfl⟩ := List.exists_cons_of_ne_nil (solid part member)
    have noWord : (c :: rest).all word = false := by rw [List.all_cons, others c List.mem_cons_self, Bool.false_and]
    have kept := wise.others others []
    rw [wise.nil, List.append_nil] at kept
    rw [noWord, if_neg Bool.false_ne_true, kept]

/-- An occurrence of a word, or of a part of one, does not cross the border of a word. -/
theorem replaceSub_append (solid : old ≠ []) (chars : ∀ c ∈ old, word c = true) (new : List α) {x y : List α}
    (apart : Apart word x y) : replaceSub old new (x ++ y) = replaceSub old new x ++ replaceSub old new y := by
  induction x using replace_induction solid with
  | nil => rfl
  | here x ih =>
    rw [List.append_assoc, replaceSub_here solid, replaceSub_here solid, ih apart.tail, List.append_assoc]
  | cons c x absent ih =>
    have border : ¬ old <+: c :: (x ++ y) := by
      rintro ⟨rest, split⟩
      rw [← List.cons_append] at split
      rcases List.append_eq_append_iff.mp split with ⟨z, whole, _⟩ | ⟨z, whole, behind⟩
      · exact absent ⟨z, whole.symm⟩
      · cases z with
        | nil =>
          rw [List.append_nil] at whole
          exact absent (whole ▸ List.prefix_refl _)
        | cons d z =>
          have letter : word d = true := chars d (by simp [whole])
          have lastLetter := chars _ (whole ▸ List.mem_append_left _ (List.getLast_mem (List.cons_ne_nil c x)))
          rcases apart with left | right
          · rw [left _ (List.getLast?_eq_some_getLast (List.cons_ne_nil c x))] at lastLetter
            cases lastLetter
          · rw [right d (by rw [behind]; rfl)] at letter
            cases letter
    have rest : Apart word x y := Apart.tail (x := [c]) apart
    rw [List.cons_append, replaceSub_cons border, replaceSub_cons absent, ih rest]
    rfl

theorem wordWise_replaceSub (solid : old ≠ []) (chars : ∀ c ∈ old, word c = true) (new : List α) :
    WordWise word (replaceSub old new) where
  nil := rfl
  other c other := by
    rw [replaceSub_cons, replaceSub_nil]
    intro front
    obtain ⟨d, rest, rfl⟩ := List.exists_cons_of_ne_nil solid
    rw [← (List.cons_prefix_cons.mp front).1, chars d List.mem_cons_self] at other
    cases other
  append x y apart := replaceSub_append solid chars new apart

theorem wordWise_replaceAll {replacements : List (List α × List α)}
    (words : ∀ r ∈ replacements, r.1 ≠ [] ∧ ∀ c ∈ r.1, word c = true) :
    WordWise word (replaceAll replacements) := by
  induction replacements with
  | nil => exact WordWise.id
  | cons r replacements ih =>
    obtain ⟨here, later⟩ := List.forall_mem_cons.mp words
    exact (ih later).comp (wordWise_replaceSub here.1 here.2 r.2)

end WordByWord

/-! ### Marking every occurrence -/

section Mark

variable {mark : List α}

/-- A text of characters of `old` is not made by the marks. -/
theorem of_prefix_replaceSub_mark (marked : mark ≠ []) (solid : old ≠ []) (foreign : ∀ c ∈ mark, c ∉ old)
    {t xs : List α}
    (part : t ⊆ old) (front : t <+: replaceSub old (mark ++ old) xs) : t <+: xs := by
  induction xs using replace_induction solid generalizing t with
  | nil => exact front
  | here xs _ =>
    cases t with
    | nil => exact List.nil_prefix
    | cons c t =>
      obtain ⟨d, mark, rfl⟩ := List.exists_cons_of_ne_nil marked
      rw [replaceSub_here solid] at front
      obtain rfl := (List.cons_prefix_cons.mp front).1
      exact absurd (part List.mem_cons_self) (foreign c List.mem_cons_self)
  | cons x xs absent ih =>
    cases t with
    | nil => exact List.nil_prefix
    | cons c t =>
      rw [replaceSub_cons absent] at front
      obtain ⟨rfl, rest⟩ := List.cons_prefix_cons.mp front
      exact List.cons_prefix_cons.mpr ⟨rfl, ih (fun d member => part (List.mem_cons_of_mem _ member)) rest⟩

/-- In the result, the whole mark is in front of every occurrence. -/
theorem not_prefix_replaceSub_mark (marked : mark ≠ []) (solid : old ≠ []) (foreign : ∀ c ∈ mark, c ∉ old)
    {rest xs : List α} (short : rest.length < mark.length) : ¬ rest ++ old <+: replaceSub old (mark ++ old) xs := by
  intro front
  induction xs using replace_induction solid generalizing rest with
  | nil => exact solid (List.append_eq_nil_iff.mp (List.prefix_nil.mp front)).2
  | here xs _ =>
    obtain ⟨first, tail, rfl⟩ := List.exists_cons_of_ne_nil solid
    rw [replaceSub_here solid, List.append_assoc] at front
    have here :
        (mark ++ (first :: tail ++ replaceSub (first :: tail) (mark ++ first :: tail) xs))[rest.length]? = some first := by
      obtain ⟨behind, split⟩ := front
      rw [← split]
      simp
    rw [List.getElem?_append_left short] at here
    exact foreign first (List.mem_of_getElem? here) List.mem_cons_self
  | cons x xs absent ih =>
    rw [replaceSub_cons absent] at front
    cases rest with
    | nil =>
      rw [List.nil_append, ← replaceSub_cons absent] at front
      exact absent (of_prefix_replaceSub_mark marked solid foreign (List.Subset.refl old) front)
    | cons c rest =>
      exact ih (Nat.lt_of_succ_lt short) (List.cons_prefix_cons.mp front).2

/-- Marks of other characters can be taken away again. -/
theorem replaceSub_unmark (marked : mark ≠ []) (solid : old ≠ []) (foreign : ∀ c ∈ mark, c ∉ old) (xs : List α) :
    replaceSub (mark ++ old) old (replaceSub old (mark ++ old) xs) = xs := by
  have solidMark : mark ++ old ≠ [] := fun empty => marked (List.append_eq_nil_iff.mp empty).1
  induction xs using replace_induction solid with
  | nil => rfl
  | here xs ih => rw [replaceSub_here solid, replaceSub_here solidMark, ih]
  | cons x xs absent ih =>
    have apart : ¬ mark ++ old <+: x :: replaceSub old (mark ++ old) xs := by
      intro front
      obtain ⟨d, mark, rfl⟩ := List.exists_cons_of_ne_nil marked
      exact not_prefix_replaceSub_mark marked solid foreign (Nat.lt_succ_self mark.length) (List.cons_prefix_cons.mp front).2
    rw [replaceSub_cons absent, replaceSub_cons apart, ih]

theorem replaceSub_mark_injective (marked : mark ≠ []) (solid : old ≠ []) (foreign : ∀ c ∈ mark, c ∉ old) :
    Function.Injective (replaceSub old (mark ++ old)) :=
  Function.LeftInverse.injective (replaceSub_unmark marked solid foreign)

end Mark

/-! ### The words of a rewritten text -/

section Places

variable {word : Char → Bool} {text front x back : Str}

/-- A whole word of a text, with what is in front of it and behind it. -/
structure WordAt (word : Char → Bool) (text front x back : Str) : Prop where
  split : text = front ++ (x ++ back)
  solid : x ≠ []
  chars : ∀ c ∈ x, word c = true
  left : ∀ c ∈ front.getLast?, word c = false
  right : ∀ c ∈ back.head?, word c = false

/-- Words stay words, so that the borders between them stay where they were. -/
structure KeepsWords (word : Char → Bool) (g : Str → Str) : Prop extends WordWise word g where
  solid : ∀ x, x ≠ [] → g x ≠ []
  chars : ∀ x, (∀ c ∈ x, word c = true) → ∀ c ∈ g x, word c = true

theorem keepsWords_replaceSub {old new : Str} (solid : old ≠ []) (solidNew : new ≠ [])
    (chars : ∀ c ∈ old, word c = true) (charsNew : ∀ c ∈ new, word c = true) :
    KeepsWords word (replaceSub old new) where
  toWordWise := wordWise_replaceSub solid chars new
  solid _ some := (replaceSub_eq_nil solid solidNew).not.mpr some
  chars _ all := forall_mem_replaceSub solid charsNew all

theorem WordAt.apart (place : WordAt word text front x back) : Apart word front (x ++ back) ∧ Apart word x back :=
  ⟨Or.inl place.left, Or.inr place.right⟩

variable {g : Str → Str}

theorem WordAt.map (keeps : KeepsWords word g) (place : WordAt word text front x back) :
    WordAt word (g text) (g front) (g x) (g back) where
  split := by rw [place.split, keeps.append _ _ place.apart.1, keeps.append _ _ place.apart.2]
  solid := keeps.solid x place.solid
  chars := keeps.chars x place.chars
  left := keeps.last place.left
  right := keeps.head place.right

theorem WordAt.cons {c : Char} (other : word c = false) (place : WordAt word text front x back) :
    WordAt word (c :: text) (c :: front) x back where
  split := by rw [place.split, List.cons_append]
  solid := place.solid
  chars := place.chars
  left d member := by
    cases front with
    | nil =>
      obtain rfl : c = d := by simpa using member
      exact other
    | cons e front => exact place.left d (by simpa using member)
  right := place.right

theorem WordAt.behind {r : Str} (solid : front ≠ []) (place : WordAt word text front x back) :
    WordAt word (r ++ text) (r ++ front) x back where
  split := by rw [place.split, List.append_assoc]
  solid := place.solid
  chars := place.chars
  left := by
    rw [List.getLast?_append_of_ne_nil _ solid]
    exact place.left
  right := place.right

/-- Every word of the rewritten text comes from a word of the text. -/
theorem WordAt.of_map (keeps : KeepsWords word g) {front' y back' : Str} (place : WordAt word (g text) front' y back') :
    ∃ front x back, WordAt word text front x back ∧ g front = front' ∧ g x = y ∧ g back = back' := by
  induction Pattern.exists_runs word text generalizing front' with
  | nil =>
    have empty := place.split
    rw [keeps.nil] at empty
    simp [place.solid] at empty
  | @other c rest other _ ih =>
    have split := place.split
    rw [keeps.cons other] at split
    cases front' with
    | nil =>
      obtain ⟨d, y, rfl⟩ := List.exists_cons_of_ne_nil place.solid
      obtain rfl := (List.cons.inj split).1
      rw [place.chars c List.mem_cons_self] at other
      cases other
    | cons d front' =>
      obtain ⟨rfl, tail⟩ := List.cons.inj split
      obtain ⟨front, x, back, inRest, rfl, same⟩ := ih ⟨tail, place.solid, place.chars,
        fun e member => place.left e (by simp [List.getLast?_cons, Option.mem_def.mp member]), place.right⟩
      exact ⟨c :: front, x, back, inRest.cons other, keeps.cons other front, same⟩
  | @run r rest some chars border _ ih =>
    have split := place.split
    rw [keeps.append _ _ (Or.inr border)] at split
    have made := keeps.chars r chars
    cases front' with
    | nil =>
      obtain ⟨same, behind⟩ := Pattern.run_unique made place.chars (keeps.head border) place.right split
      exact ⟨[], r, rest, ⟨rfl, some, chars, by simp, border⟩, keeps.nil, same, behind⟩
    | cons d front' =>
      have inside : ∀ z, g r = d :: front' ++ z → False := by
        intro z whole
        have last := List.getLast?_eq_some_getLast (List.cons_ne_nil d front')
        have letter := made _ (whole ▸ List.mem_append_left z (List.getLast_mem (List.cons_ne_nil d front')))
        rw [place.left _ last] at letter
        cases letter
      rcases List.append_eq_append_iff.mp split with ⟨z, whole, behind⟩ | ⟨z, whole, _⟩
      · have goesOn : z ≠ [] := by
          rintro rfl
          exact inside [] (by rw [List.append_nil, whole, List.append_nil])
        have left : ∀ c ∈ z.getLast?, word c = false := by
          have left := place.left
          rwa [whole, List.getLast?_append_of_ne_nil _ goesOn] at left
        obtain ⟨front, x, back, inRest, rfl, same⟩ := ih ⟨behind, place.solid, place.chars, left, place.right⟩
        have frontSolid : front ≠ [] := by
          rintro rfl
          exact goesOn keeps.nil
        have frontBorder : ∀ c ∈ front.head?, word c = false := by
          rw [inRest.split, List.head?_append_of_ne_nil _ frontSolid] at border
          exact border
        refine ⟨r ++ front, x, back, inRest.behind frontSolid, ?_, same⟩
        rw [keeps.append _ _ (Or.inr frontBorder), ← whole]
      · exact (inside z whole).elim

end Places

/-! ### Words and single characters -/

section Tokens

variable {word : Char → Bool}

/-- The words of a text, and every other character that is no white space on its own. -/
def tokens (word : Char → Bool) (text : Str) : List Str :=
  (text.splitBy fun a b => word a && word b).filter fun part => !part.all isSpace

theorem tokens_append {x y : Str} (apart : Apart word x y) : tokens word (x ++ y) = tokens word x ++ tokens word y := by
  rw [tokens, List.splitBy_append, List.filter_append]
  · rfl
  · intro c last d first
    rcases apart with left | right
    · rw [left c last, Bool.false_and]
    · rw [right d first, Bool.and_false]

theorem tokens_blank {x : Str} (blank : ∀ c ∈ x, isSpace c = true) : tokens word x = [] := by
  rw [tokens, List.filter_eq_nil_iff]
  intro part member
  have inside : part ⊆ x := by
    have whole : part ∈ x.splitBy fun a b => word a && word b := member
    intro c inPart
    rw [← List.flatten_splitBy (fun a b => word a && word b) x]
    exact List.mem_flatten.mpr ⟨part, whole, inPart⟩
  have spaces : part.all isSpace = true := List.all_eq_true.mpr fun c inPart => blank c (inside inPart)
  rw [spaces]
  exact Bool.false_ne_true

/-- White space in front of a text is no matter. -/
theorem tokens_dropWhile (noWord : ∀ c, isSpace c = true → word c = false) (x : Str) :
    tokens word (x.dropWhile isSpace) = tokens word x := by
  have spaces : ∀ c ∈ x.takeWhile isSpace, isSpace c = true := fun c member => List.mem_takeWhile_imp member
  have apart : Apart word (x.takeWhile isSpace) (x.dropWhile isSpace) :=
    Or.inl fun c last => noWord c (spaces c (List.mem_of_getLast? last))
  have split := tokens_append apart
  rw [List.takeWhile_append_dropWhile, tokens_blank spaces] at split
  exact split.symm

/-- No character is lost among the tokens but white space. -/
theorem countP_tokens (word : Char → Bool) (x : Str) :
    (tokens word x).flatten.countP (!isSpace ·) = x.countP (!isSpace ·) := by
  have filtered : ∀ parts : List Str, (parts.filter fun part => !part.all isSpace).flatten.countP (!isSpace ·) =
      parts.flatten.countP (!isSpace ·) := by
    intro parts
    induction parts with
    | nil => rfl
    | cons part parts ih =>
      rw [List.filter_cons, List.flatten_cons, List.countP_append]
      split
      · rw [List.flatten_cons, List.countP_append, ih]
      · rename_i blank
        have none : part.countP (!isSpace ·) = 0 := by
          rw [List.countP_eq_zero]
          intro c member
          have space := List.all_eq_true.mp (by simpa using blank) c member
          simp [space]
        rw [ih, none, Nat.zero_add]
  rw [tokens, filtered, List.flatten_splitBy]

end Tokens

end Text
