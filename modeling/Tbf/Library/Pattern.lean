import Mathlib.Data.List.Infix
import Mathlib.Data.Nat.Find
import Tbf.Library.Text

/-!
# Patterns with a gap

A literal, then as few characters of the line as possible but at least one, then another literal: what a
search for all matches finds, told by the words of the text.
-/

namespace Pattern
open Text

/-! ### The search -/

/-- As few characters as possible up to `stop`, and what is behind it. -/
def upTo (stop : Str) : Str → Option (Str × Str)
  | [] => if stop = [] then some ([], []) else none
  | c :: text =>
    if stop <+: c :: text then some ([], (c :: text).drop stop.length)
    else if c = '\n' then none
    else (upTo stop text).map fun found => (c :: found.1, found.2)

/-- The same with at least one character. -/
def someUpTo (stop : Str) : Str → Option (Str × Str)
  | [] => none
  | c :: text => if c = '\n' then none else (upTo stop text).map fun found => (c :: found.1, found.2)

/-- A match at the very beginning: what is in the gap, and what is behind the match. -/
def matchHere (start stop text : Str) : Option (Str × Str) :=
  if start <+: text then someUpTo stop (text.drop start.length) else none

theorem upTo_sound {stop text mid rest : Str} (found : upTo stop text = some (mid, rest)) :
    text = mid ++ stop ++ rest ∧ '\n' ∉ mid := by
  induction text generalizing mid with
  | nil =>
    rw [upTo] at found
    split at found
    · rename_i empty
      obtain ⟨rfl, rfl⟩ := Prod.mk.inj (Option.some.inj found)
      simp [empty]
    · cases found
  | cons c text ih =>
    rw [upTo] at found
    split at found
    · rename_i here
      obtain ⟨rfl, rfl⟩ := Prod.mk.inj (Option.some.inj found)
      exact ⟨(List.prefix_iff_eq_append.mp here).symm, List.not_mem_nil⟩
    · split at found
      · cases found
      · rename_i line
        obtain ⟨⟨mid', rest'⟩, inside, same⟩ := Option.map_eq_some_iff.mp found
        obtain ⟨rfl, rfl⟩ := Prod.mk.inj same
        obtain ⟨rfl, clean⟩ := ih inside
        exact ⟨rfl, List.not_mem_cons_of_ne_of_not_mem (Ne.symm line) clean⟩

theorem someUpTo_sound {stop text mid rest : Str} (found : someUpTo stop text = some (mid, rest)) :
    text = mid ++ stop ++ rest ∧ '\n' ∉ mid ∧ mid ≠ [] := by
  cases text with
  | nil => cases found
  | cons c text =>
    rw [someUpTo] at found
    split at found
    · cases found
    · rename_i line
      obtain ⟨⟨mid', rest'⟩, inside, same⟩ := Option.map_eq_some_iff.mp found
      obtain ⟨rfl, rfl⟩ := Prod.mk.inj same
      obtain ⟨rfl, clean⟩ := upTo_sound inside
      exact ⟨rfl, List.not_mem_cons_of_ne_of_not_mem (Ne.symm line) clean, List.cons_ne_nil _ _⟩

theorem matchHere_sound {start stop text mid rest : Str} (found : matchHere start stop text = some (mid, rest)) :
    text = start ++ mid ++ stop ++ rest ∧ '\n' ∉ mid ∧ mid ≠ [] := by
  rw [matchHere] at found
  split at found
  · rename_i here
    obtain ⟨split, clean, some⟩ := someUpTo_sound found
    have whole := List.prefix_iff_eq_append.mp here
    rw [split] at whole
    exact ⟨by simpa using whole.symm, clean, some⟩
  · cases found

/-- All matches, from left to right and without overlaps. -/
def findAll (start stop : Str) : Str → List Str
  | [] => []
  | c :: text =>
    match _found : matchHere start stop (c :: text) with
    | some (mid, rest) => (start ++ mid ++ stop) :: findAll start stop rest
    | none => findAll start stop text
termination_by text => text.length
decreasing_by
  · obtain ⟨split, _, some⟩ := matchHere_sound _found
    have length := congrArg List.length split
    have positive := List.length_pos_iff.mpr some
    simp only [List.length_append] at length
    omega
  · simp

theorem findAll_match {start stop text mid rest : Str} (found : matchHere start stop text = some (mid, rest)) :
    findAll start stop text = (start ++ mid ++ stop) :: findAll start stop rest := by
  cases text with
  | nil =>
    obtain ⟨split, _, some⟩ := matchHere_sound found
    simp [some] at split
  | cons c text =>
    rw [findAll]
    split
    · rename_i found'
      obtain ⟨rfl, rfl⟩ := Prod.mk.inj (Option.some.inj (found'.symm.trans found))
      rfl
    · rename_i missing
      cases missing.symm.trans found

theorem findAll_cons {start stop : Str} {c : Char} {text : Str} (missing : matchHere start stop (c :: text) = none) :
    findAll start stop (c :: text) = findAll start stop text := by
  rw [findAll]
  split
  · rename_i found
    cases missing.symm.trans found
  · rfl

/-- Where no match begins, the search goes on behind. -/
theorem findAll_skip {start stop front text : Str}
    (missing : ∀ back, back ≠ [] → back <:+ front → matchHere start stop (back ++ text) = none) :
    findAll start stop (front ++ text) = findAll start stop text := by
  induction front with
  | nil => rfl
  | cons c front ih =>
    have here := missing (c :: front) (List.cons_ne_nil _ _) (List.suffix_refl _)
    rw [List.cons_append] at here ⊢
    rw [findAll_cons here]
    exact ih fun back some inside => missing back some (inside.trans (List.suffix_cons c front))

theorem mem_findAll_sound {start stop text found : Str} (member : found ∈ findAll start stop text) :
    ∃ mid, mid ≠ [] ∧ found = start ++ mid ++ stop := by
  induction text using findAll.induct start stop with
  | case1 => simp [findAll] at member
  | case2 c text mid rest here ih =>
    rw [findAll_match here] at member
    rcases List.mem_cons.mp member with rfl | member
    · obtain ⟨_, _, some⟩ := matchHere_sound here
      exact ⟨mid, some, rfl⟩
    · exact ih member
  | case3 c text missing ih =>
    rw [findAll_cons missing] at member
    exact ih member

/-! ### What makes a match possible -/

/-- Somewhere on the line is a `stop`, with something in front of it. -/
def GoesOn (stop text : Str) : Prop := ∃ mid rest, text = mid ++ stop ++ rest ∧ mid ≠ [] ∧ '\n' ∉ mid

theorem upTo_isSome {stop mid rest : Str} (clean : '\n' ∉ mid) : (upTo stop (mid ++ stop ++ rest)).isSome = true := by
  induction mid with
  | nil =>
    cases whole : [] ++ stop ++ rest with
    | nil =>
      have empty : stop = [] := by
        cases stop with
        | nil => rfl
        | cons c stop => cases whole
      simp [upTo, empty]
    | cons c text =>
      have here : stop <+: c :: text := ⟨rest, by simpa using whole⟩
      simp [upTo, here]
  | cons c mid ih =>
    have line : c ≠ '\n' := fun same => clean (same ▸ List.mem_cons_self)
    rw [List.cons_append, List.cons_append, upTo]
    split
    · rfl
    · rw [Option.isSome_map]
      exact ih fun member => clean (List.mem_cons_of_mem _ member)

theorem someUpTo_isSome_iff {stop text : Str} : (someUpTo stop text).isSome = true ↔ GoesOn stop text := by
  constructor
  · intro some
    obtain ⟨⟨mid, rest⟩, found⟩ := Option.isSome_iff_exists.mp some
    obtain ⟨split, clean, some⟩ := someUpTo_sound found
    exact ⟨mid, rest, split, some, clean⟩
  · rintro ⟨mid, rest, rfl, some, clean⟩
    cases mid with
    | nil => exact absurd rfl some
    | cons c mid =>
      have line : c ≠ '\n' := fun same => clean (same ▸ List.mem_cons_self)
      rw [List.cons_append, List.cons_append, someUpTo, if_neg line, Option.isSome_map]
      exact upTo_isSome fun member => clean (List.mem_cons_of_mem _ member)

/-- A gap without any character of `stop` ends at the first `stop`. -/
theorem upTo_of_absent {stop mid : Str} (solid : stop ≠ []) (absent : ∀ c ∈ mid, c ∉ stop) (clean : '\n' ∉ mid) (rest : Str) :
    upTo stop (mid ++ stop ++ rest) = some (mid, rest) := by
  obtain ⟨d, stop, rfl⟩ := List.exists_cons_of_ne_nil solid
  induction mid with
  | nil =>
    have here : d :: stop <+: d :: (stop ++ rest) := ⟨rest, rfl⟩
    rw [List.nil_append, List.cons_append, upTo, if_pos here]
    simp
  | cons c mid ih =>
    obtain ⟨here, others⟩ := List.forall_mem_cons.mp absent
    have apart : ¬ d :: stop <+: c :: (mid ++ d :: stop ++ rest) := by
      intro inside
      exact here (by rw [(List.cons_prefix_cons.mp inside).1]; exact List.mem_cons_self)
    have line : c ≠ '\n' := fun same => clean (same ▸ List.mem_cons_self)
    rw [List.cons_append, List.cons_append, upTo, if_neg apart, if_neg line,
      ih (fun member => clean (List.mem_cons_of_mem _ member)) others]
    rfl

theorem someUpTo_of_absent {stop mid : Str} (solid : stop ≠ []) (absent : ∀ c ∈ mid, c ∉ stop) (clean : '\n' ∉ mid)
    (some' : mid ≠ []) (rest : Str) : someUpTo stop (mid ++ stop ++ rest) = some (mid, rest) := by
  obtain ⟨c, mid, rfl⟩ := List.exists_cons_of_ne_nil some'
  have line : c ≠ '\n' := fun same => clean (same ▸ List.mem_cons_self)
  rw [List.cons_append, List.cons_append, someUpTo, if_neg line, upTo_of_absent solid
    (fun d member => absent d (List.mem_cons_of_mem _ member)) fun member => clean (List.mem_cons_of_mem _ member)]
  rfl

/-! ### The words of a text -/

section Words

variable {word : Char → Bool} {start stop : Str}

/-- A text, word by word. -/
inductive Runs (word : Char → Bool) : Str → Prop
  | nil : Runs word []
  | other {c : Char} {rest : Str} : word c = false → Runs word rest → Runs word (c :: rest)
  | run {r rest : Str} : r ≠ [] → (∀ c ∈ r, word c = true) → (∀ c ∈ rest.head?, word c = false) → Runs word rest →
      Runs word (r ++ rest)

theorem exists_runs (word : Char → Bool) (text : Str) : Runs word text := by
  induction text with
  | nil => exact .nil
  | cons c text ih =>
    cases letter : word c with
    | false => exact .other letter ih
    | true =>
      cases ih with
      | nil => exact @Runs.run word [c] [] (List.cons_ne_nil _ _) (by simpa using letter) nofun .nil
      | @other d rest apart ih =>
        exact @Runs.run word [c] (d :: rest) (List.cons_ne_nil _ _) (by simpa using letter) (by simpa using apart) (.other apart ih)
      | @run r rest some chars apart ih =>
        exact @Runs.run word (c :: r) rest (List.cons_ne_nil _ _) (List.forall_mem_cons.mpr ⟨letter, chars⟩) apart ih

theorem run_unique {r r' rest rest' : Str} (chars : ∀ c ∈ r, word c = true) (chars' : ∀ c ∈ r', word c = true)
    (apart : ∀ c ∈ rest.head?, word c = false) (apart' : ∀ c ∈ rest'.head?, word c = false)
    (same : r ++ rest = r' ++ rest') : r = r' ∧ rest = rest' := by
  have length : ∀ {r rest : Str}, (∀ c ∈ r, word c = true) → (∀ c ∈ rest.head?, word c = false) →
      (r ++ rest).takeWhile word = r := by
    intro r rest chars apart
    rw [List.takeWhile_append_of_pos chars]
    cases rest with
    | nil => simp
    | cons c rest => simp [apart c rfl]
  have runs : r = r' := by
    rw [← length chars apart, same, length chars' apart']
  subst runs
  exact ⟨rfl, List.append_cancel_left same⟩

/-- The first `start` in a word is the one behind `u`. -/
def IsFirst (start u v : Str) : Prop := ∀ u' v', u ++ start ++ v = u' ++ start ++ v' → u.length ≤ u'.length

/-- A word of the text with `start` in it, behind which the line goes on: `v` is what is left of the word behind
the first `start`, and `back` what is behind the word. -/
structure OpenWord (word : Char → Bool) (start stop text front u v back : Str) : Prop where
  split : text = front ++ (u ++ start ++ v) ++ back
  left : ∀ c ∈ front.getLast?, word c = false
  right : ∀ c ∈ back.head?, word c = false
  chars : ∀ c ∈ u ++ v, word c = true
  first : IsFirst start u v
  goesOn : GoesOn stop (v ++ back)

def Opens (word : Char → Bool) (start stop text v back : Str) : Prop :=
  ∃ front u, OpenWord word start stop text front u v back

theorem exists_first {r : Str} (inside : start <:+: r) : ∃ u v, r = u ++ start ++ v ∧ IsFirst start u v := by
  have found : ∃ n u v, r = u ++ start ++ v ∧ u.length = n := by
    obtain ⟨u, v, same⟩ := inside
    exact ⟨_, u, v, same.symm, rfl⟩
  classical
  obtain ⟨u, v, same, length⟩ := Nat.find_spec found
  refine ⟨u, v, same, fun u' v' other => ?_⟩
  rw [length]
  exact Nat.find_min' found ⟨u', v', same.trans other, rfl⟩

theorem first_unique {u v u' v' : Str} (first : IsFirst start u v) (first' : IsFirst start u' v')
    (same : u ++ start ++ v = u' ++ start ++ v') : u = u' ∧ v = v' := by
  have length := Nat.le_antisymm (first u' v' same) (first' u v same.symm)
  rw [List.append_assoc, List.append_assoc] at same
  obtain ⟨rfl, rest⟩ := List.append_inj same length
  exact ⟨rfl, List.append_cancel_left rest⟩

section Search

variable (startChars : ∀ c ∈ start, word c = true) (startSolid : start ≠ []) (stopChars : ∀ c ∈ stop, word c = false)
  (stopSolid : stop ≠ []) (line : word '\n' = false)

include startChars in
/-- A literal of word characters that begins in a word ends in it. -/
theorem prefix_in_run {r rest : Str} (apart : ∀ c ∈ rest.head?, word c = false) (here : start <+: r ++ rest) : start <+: r := by
  obtain ⟨x, same⟩ := here
  rcases List.append_eq_append_iff.mp same with ⟨y, whole, _⟩ | ⟨y, whole, behind⟩
  · exact ⟨y, whole.symm⟩
  · cases y with
    | nil => exact ⟨[], by simpa using whole⟩
    | cons c y =>
      have letter := startChars c (by rw [whole]; simp)
      rw [apart c (by rw [behind]; rfl)] at letter
      cases letter

include startChars in
/-- It is in one of two texts, where no word goes on from one to the other. -/
theorem infix_append {r rest : Str} (apart : ∀ c ∈ rest.head?, word c = false) (found : start <:+: r ++ rest) :
    start <:+: r ∨ start <:+: rest := by
  induction r with
  | nil => exact Or.inr found
  | cons c r ih =>
    rcases List.infix_cons_iff.mp found with front | inside
    · exact Or.inl (prefix_in_run startChars apart front).isInfix
    · exact (ih inside).imp_left fun later => later.trans (List.suffix_cons c r).isInfix

include startSolid startChars in
theorem matchHere_other {c : Char} (apart : word c = false) (text : Str) : matchHere start stop (c :: text) = none := by
  rw [matchHere, if_neg]
  intro here
  obtain ⟨d, start, rfl⟩ := List.exists_cons_of_ne_nil startSolid
  obtain ⟨rfl, _⟩ := List.cons_prefix_cons.mp here
  rw [startChars d List.mem_cons_self] at apart
  cases apart

include startSolid startChars in
theorem findAll_others {front : Str} (apart : ∀ c ∈ front, word c = false) (text : Str) :
    findAll start stop (front ++ text) = findAll start stop text := by
  apply findAll_skip
  intro back some inside
  obtain ⟨c, back, rfl⟩ := List.exists_cons_of_ne_nil some
  exact matchHere_other startChars startSolid (apart c (inside.subset List.mem_cons_self)) _

include startChars in
theorem findAll_run_without {r rest : Str} (apart : ∀ c ∈ rest.head?, word c = false) (absent : ¬ start <:+: r) :
    findAll start stop (r ++ rest) = findAll start stop rest := by
  apply findAll_skip
  intro back _ inside
  rw [matchHere, if_neg]
  intro here
  exact absent ((prefix_in_run startChars apart here).isInfix.trans inside.isInfix)

include startChars line in
theorem findAll_run_closed {u v rest : Str} (chars : ∀ c ∈ v, word c = true) (apart : ∀ c ∈ rest.head?, word c = false)
    (first : IsFirst start u v) (closed : ¬ GoesOn stop (v ++ rest)) :
    findAll start stop (u ++ start ++ v ++ rest) = findAll start stop rest := by
  apply findAll_skip
  rintro back _ ⟨x, inside⟩
  rw [matchHere]
  split
  · rename_i here
    obtain ⟨v', rfl⟩ := prefix_in_run startChars apart here
    have shorter := first x v' (by rw [← inside]; simp)
    obtain ⟨y, rfl⟩ : ∃ y, v = y ++ v' := by
      have tail : v' <:+ v := by
        have lengths := congrArg List.length inside
        simp only [List.length_append] at lengths
        have later : v' <:+ u ++ (start ++ v) := ⟨x ++ start, by simpa using inside⟩
        have whole : v <:+ u ++ (start ++ v) := ⟨u ++ start, by simp⟩
        exact List.suffix_of_suffix_length_le later whole (by omega)
      obtain ⟨y, same⟩ := tail
      exact ⟨y, same.symm⟩
    rw [← Option.not_isSome_iff_eq_none, List.append_assoc, List.drop_left, someUpTo_isSome_iff]
    rintro ⟨mid, back, split, some, clean⟩
    refine closed ⟨y ++ mid, back, by simp [split], by simp [some], ?_⟩
    refine List.not_mem_append (fun member => ?_) clean
    rw [chars _ (List.mem_append_left _ member)] at line
    cases line
  · rfl

include startChars line in
/-- A word that is not open is passed over. -/
theorem findAll_run_skipped {r rest : Str} (chars : ∀ c ∈ r, word c = true) (apart : ∀ c ∈ rest.head?, word c = false)
    (closed : ¬ ∃ u v, r = u ++ start ++ v ∧ IsFirst start u v ∧ GoesOn stop (v ++ rest)) :
    findAll start stop (r ++ rest) = findAll start stop rest := by
  by_cases inside : start <:+: r
  · obtain ⟨u, v, rfl, first⟩ := exists_first inside
    exact findAll_run_closed startChars line (fun c member => chars c (List.mem_append_right _ member)) apart first
      fun goesOn => closed ⟨u, v, rfl, first, goesOn⟩
  · exact findAll_run_without startChars apart inside

include startChars in
theorem findAll_run_open {u v rest mid back : Str} (apart : ∀ c ∈ rest.head?, word c = false) (first : IsFirst start u v)
    (found : someUpTo stop (v ++ rest) = some (mid, back)) :
    findAll start stop (u ++ start ++ v ++ rest) = (start ++ mid ++ stop) :: findAll start stop back := by
  have before : findAll start stop (u ++ (start ++ v ++ rest)) = findAll start stop (start ++ v ++ rest) := by
    apply findAll_skip
    rintro x some ⟨y, rfl⟩
    rw [matchHere, if_neg]
    intro here
    rw [← List.append_assoc] at here
    obtain ⟨v', same⟩ := prefix_in_run startChars apart here
    have shorter := first y v' (by rw [List.append_assoc y start, same]; simp)
    have positive := List.length_pos_iff.mpr some
    rw [List.length_append] at shorter
    omega
  have here : matchHere start stop (start ++ v ++ rest) = some (mid, back) := by
    rw [matchHere, List.append_assoc, if_pos (List.prefix_append _ _), List.drop_left, found]
  rw [show u ++ start ++ v ++ rest = u ++ (start ++ v ++ rest) by simp, before, findAll_match here]

/-! ### Open words, run by run -/

include startSolid in
theorem not_opens_nil {v back : Str} : ¬ Opens word start stop [] v back := by
  rintro ⟨front, u, opened⟩
  have split := opened.split
  simp [startSolid] at split

include startSolid startChars in
theorem OpenWord.solid {text front u v back : Str} (opened : OpenWord word start stop text front u v back) :
    u ++ start ++ v ≠ [] ∧ ∀ c ∈ u ++ start ++ v, word c = true := by
  refine ⟨by simp [startSolid], fun c member => ?_⟩
  rcases List.mem_append.mp member with member | member
  · rcases List.mem_append.mp member with member | member
    · exact opened.chars c (List.mem_append_left _ member)
    · exact startChars c member
  · exact opened.chars c (List.mem_append_right _ member)

include startSolid startChars in
theorem opens_other {c : Char} (apart : word c = false) {rest v back : Str} :
    Opens word start stop (c :: rest) v back ↔ Opens word start stop rest v back := by
  constructor
  · rintro ⟨front, u, opened⟩
    obtain ⟨some, chars⟩ := opened.solid startChars startSolid
    cases front with
    | nil =>
      obtain ⟨d, w, same⟩ := List.exists_cons_of_ne_nil some
      have split := opened.split
      rw [same] at split
      have letter := chars c (by rw [same, (List.cons.inj split).1]; exact List.mem_cons_self)
      rw [apart] at letter
      cases letter
    | cons d front =>
      obtain ⟨rfl, split⟩ := List.cons.inj opened.split
      refine ⟨front, u, split, fun e last => opened.left e ?_, opened.right, opened.chars, opened.first, opened.goesOn⟩
      rw [List.getLast?_cons, Option.mem_def.mp last]
      rfl
  · rintro ⟨front, u, opened⟩
    refine ⟨c :: front, u, congrArg (c :: ·) opened.split, fun e last => ?_, opened.right, opened.chars, opened.first,
      opened.goesOn⟩
    rw [List.getLast?_cons] at last
    cases ends : front.getLast? with
    | none =>
      rw [ends] at last
      obtain rfl := Option.some.inj last
      exact apart
    | some d =>
      rw [ends] at last
      obtain rfl := Option.some.inj last
      exact opened.left d ends

include startSolid startChars in
theorem opens_run {r rest : Str} (some : r ≠ []) (chars : ∀ c ∈ r, word c = true) (apart : ∀ c ∈ rest.head?, word c = false)
    {v back : Str} : Opens word start stop (r ++ rest) v back ↔
      (∃ u, r = u ++ start ++ v ∧ back = rest ∧ IsFirst start u v ∧ GoesOn stop (v ++ rest)) ∨
        Opens word start stop rest v back := by
  constructor
  · rintro ⟨front, u, opened⟩
    obtain ⟨some', chars'⟩ := opened.solid startChars startSolid
    have split := opened.split
    rcases front.eq_nil_or_concat with rfl | ⟨init, last, rfl⟩
    · obtain ⟨whole, rfl⟩ := run_unique chars chars' apart opened.right split
      exact Or.inl ⟨u, whole, rfl, opened.first, opened.goesOn⟩
    · have ends := opened.left last (by simp)
      rw [List.append_assoc] at split
      rcases List.append_eq_append_iff.mp split with ⟨x, whole, behind⟩ | ⟨x, whole, _⟩
      · refine Or.inr ⟨x, u, behind.trans (List.append_assoc _ _ _).symm, fun c last' => ?_, opened.right, opened.chars, opened.first,
          opened.goesOn⟩
        refine opened.left c ?_
        rw [whole, List.getLast?_append, Option.mem_def.mp last']
        rfl
      · have letter := chars last (by rw [whole]; simp)
        rw [ends] at letter
        cases letter
  · rintro (⟨u, rfl, rfl, first, goesOn⟩ | ⟨front, u, opened⟩)
    · refine ⟨[], u, by simp, nofun, apart, fun c member => chars c ?_, first, goesOn⟩
      rcases List.mem_append.mp member with member | member
      · simp [member]
      · simp [member]
    · obtain ⟨some', chars'⟩ := opened.solid startChars startSolid
      have split := opened.split
      cases front with
      | nil =>
        obtain ⟨d, w, same⟩ := List.exists_cons_of_ne_nil some'
        rw [same] at split
        have letter := chars' d (by rw [same]; exact List.mem_cons_self)
        rw [apart d (by rw [split]; rfl)] at letter
        cases letter
      | cons d front =>
        refine ⟨r ++ d :: front, u, by rw [split]; simp, fun c last => opened.left c ?_, opened.right, opened.chars,
          opened.first, opened.goesOn⟩
        rw [List.getLast?_append] at last
        cases ends : (d :: front).getLast? with
        | none => cases (List.getLast?_eq_none_iff.mp ends)
        | some e =>
          rw [ends] at last
          exact last

/-- Every open word goes on with word characters, and right behind it is `stop`. -/
def Direct (word : Char → Bool) (start stop text : Str) : Prop :=
  ∀ v back, Opens word start stop text v back → v ≠ [] ∧ stop <+: back

include startChars startSolid stopChars stopSolid line in
theorem findAll_run_direct {u v rest : Str} (chars : ∀ c ∈ v, word c = true) (apart : ∀ c ∈ rest.head?, word c = false)
    (first : IsFirst start u v) (some' : v ≠ []) (directly : stop <+: rest) :
    findAll start stop (u ++ start ++ v ++ rest) = (start ++ v ++ stop) :: findAll start stop rest := by
  obtain ⟨back, rfl⟩ := directly
  have absent : ∀ c ∈ v, c ∉ stop := by
    intro c member inside
    have letter := chars c member
    rw [stopChars c inside] at letter
    cases letter
  have clean : '\n' ∉ v := by
    intro member
    rw [chars _ member] at line
    cases line
  have found : someUpTo stop (v ++ (stop ++ back)) = some (v, back) := by
    rw [← List.append_assoc]
    exact someUpTo_of_absent stopSolid absent clean some' back
  rw [findAll_run_open startChars apart first found, findAll_others startChars startSolid stopChars]

include startChars startSolid stopChars stopSolid line in
/-- Where every open word is followed by `stop` directly, these words are what is found. -/
theorem mem_findAll_of_direct {text : Str} (direct : Direct word start stop text) {found : Str} :
    found ∈ findAll start stop text ↔ ∃ v back, Opens word start stop text v back ∧ found = start ++ v ++ stop := by
  induction exists_runs word text with
  | nil => simp [findAll, not_opens_nil startSolid]
  | @other c rest apart _ ih =>
    have later : Direct word start stop rest := fun v back opened =>
      direct v back ((opens_other startChars startSolid apart).mpr opened)
    rw [findAll_cons (matchHere_other startChars startSolid apart rest), ih later]
    simp only [opens_other startChars startSolid apart]
  | @run r rest some chars apart _ ih =>
    have step := fun v back => @opens_run word start stop startChars startSolid r rest some chars apart v back
    have later : Direct word start stop rest := fun v back opened => direct v back ((step v back).mpr (Or.inr opened))
    by_cases here : ∃ u v, r = u ++ start ++ v ∧ IsFirst start u v ∧ GoesOn stop (v ++ rest)
    · obtain ⟨u, v, rfl, first, goesOn⟩ := here
      obtain ⟨some', directly⟩ := direct v rest ((step v rest).mpr (Or.inl ⟨u, rfl, rfl, first, goesOn⟩))
      have charsV : ∀ c ∈ v, word c = true := fun c member => chars c (List.mem_append_right _ member)
      rw [findAll_run_direct startChars startSolid stopChars stopSolid line charsV apart first some' directly, List.mem_cons,
        ih later]
      constructor
      · rintro (rfl | ⟨w, back, opened, same⟩)
        · exact ⟨v, rest, (step v rest).mpr (Or.inl ⟨u, rfl, rfl, first, goesOn⟩), rfl⟩
        · exact ⟨w, back, (step w back).mpr (Or.inr opened), same⟩
      · rintro ⟨w, back, opened, rfl⟩
        rcases (step w back).mp opened with ⟨u', same, _, first', _⟩ | opened
        · rw [(first_unique first first' same).2]
          exact Or.inl rfl
        · exact Or.inr ⟨w, back, opened, rfl⟩
    · have skipped := @findAll_run_skipped word start stop startChars line r rest chars apart here
      rw [skipped, ih later]
      refine exists_congr fun v => exists_congr fun back => and_congr_left fun _ => ?_
      rw [step, or_iff_right]
      rintro ⟨u, same, _, first, goesOn⟩
      exact here ⟨u, v, same, first, goesOn⟩

include startChars startSolid stopChars stopSolid line in
/-- Where only words are found, every open word is followed by `stop` directly. -/
theorem direct_of_findAll {text : Str}
    (words : ∀ found ∈ findAll start stop text, ∃ w, w ≠ [] ∧ (∀ c ∈ w, word c = true) ∧ found = start ++ w ++ stop) :
    Direct word start stop text := by
  induction exists_runs word text with
  | nil => exact fun v back opened => absurd opened (not_opens_nil startSolid)
  | @other c rest apart _ ih =>
    rw [findAll_cons (matchHere_other startChars startSolid apart rest)] at words
    exact fun v back opened => ih words v back ((opens_other startChars startSolid apart).mp opened)
  | @run r rest some chars apart _ ih =>
    intro w back opened
    have step := fun v back => @opens_run word start stop startChars startSolid r rest some chars apart v back
    by_cases here : ∃ u v, r = u ++ start ++ v ∧ IsFirst start u v ∧ GoesOn stop (v ++ rest)
    · obtain ⟨u, v, rfl, first, goesOn⟩ := here
      have charsV : ∀ c ∈ v, word c = true := fun c member => chars c (List.mem_append_right _ member)
      obtain ⟨⟨mid, back'⟩, found⟩ := Option.isSome_iff_exists.mp (someUpTo_isSome_iff.mpr goesOn)
      have matched := @findAll_run_open word start stop startChars u v rest mid back' apart first found
      obtain ⟨split, _, _⟩ := someUpTo_sound found
      have directly : v ≠ [] ∧ stop <+: rest := by
        obtain ⟨x, some', charsX, same⟩ := words _ (by rw [matched]; exact List.mem_cons_self)
        obtain rfl := List.append_cancel_left (List.append_cancel_right same)
        have apart' : ∀ c ∈ (stop ++ back').head?, word c = false := by
          intro c first
          obtain ⟨d, stop, rfl⟩ := List.exists_cons_of_ne_nil stopSolid
          obtain rfl := Option.some.inj first
          exact stopChars d List.mem_cons_self
        rw [List.append_assoc] at split
        obtain ⟨rfl, rfl⟩ := run_unique charsV charsX apart apart' split
        exact ⟨some', List.prefix_append _ _⟩
      rcases (step w back).mp opened with ⟨u', same, rfl, first', _⟩ | opened
      · rwa [(first_unique first first' same).2] at directly
      · refine ih (fun found inside => words found ?_) w back opened
        rw [findAll_run_direct startChars startSolid stopChars stopSolid line charsV apart first directly.1 directly.2]
        exact List.mem_cons_of_mem _ inside
    · have skipped := @findAll_run_skipped word start stop startChars line r rest chars apart here
      rw [skipped] at words
      rcases (step w back).mp opened with ⟨u', same, rfl, first', goesOn⟩ | opened
      · exact absurd ⟨u', w, same, first', goesOn⟩ here
      · exact ih words w back opened

end Search

end Words

end Pattern
