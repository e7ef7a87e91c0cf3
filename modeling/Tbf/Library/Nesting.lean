import Tbf.Library.CComments

/-!
# Parentheses in C texts

How many parentheses are open behind a text. Those in string and character literals do not count.
-/

namespace Nesting
open Text CComments

/-- Where a text has led to: the number of open parentheses, and the literal that is open, if there is one. -/
inductive Place where
  | code (depth : Nat)
  | literal (depth : Nat) (quote : Quote)
  | escape (depth : Nat) (quote : Quote)
  deriving DecidableEq, Repr

/-- A parenthesis that closes nothing leads nowhere. -/
def next : Place → Char → Option Place
  | .code depth, c =>
    if c = '(' then some (.code (depth + 1))
    else if c = ')' then (if depth = 0 then none else some (.code (depth - 1)))
    else if c = Quote.double.char then some (.literal depth .double)
    else if c = Quote.single.char then some (.literal depth .single)
    else some (.code depth)
  | .literal depth quote, c =>
    if c = '\\' then some (.escape depth quote)
    else if c = quote.char then some (.code depth)
    else some (.literal depth quote)
  | .escape depth quote, _ => some (.literal depth quote)

def after : Place → Str → Option Place
  | place, [] => some place
  | place, c :: text => (next place c).bind fun place => after place text

/-- Every parenthesis is closed, and no other is. -/
def Balanced (text : Str) : Prop := after (.code 0) text = some (.code 0)

instance (text : Str) : Decidable (Balanced text) := inferInstanceAs (Decidable (_ = _))

theorem after_append (place : Place) (x y : Str) :
    after place (x ++ y) = (after place x).bind fun place => after place y := by
  induction x generalizing place with
  | nil => rfl
  | cons c x ih =>
    rw [List.cons_append, after, after]
    cases next place c with
    | none => rfl
    | some place => exact ih place

/-- The place is in a literal, or at least so many parentheses are open. -/
def Place.Deep (n : Nat) : Place → Prop
  | code depth => n ≤ depth
  | literal _ _ | escape _ _ => True

/-- A character that is no parenthesis, quote or backslash leads no less deep. -/
def Quiet (c : Char) : Prop := c ≠ ')' ∧ c ≠ Quote.double.char ∧ c ≠ Quote.single.char ∧ c ≠ '\\'

instance (c : Char) : Decidable (Quiet c) := inferInstanceAs (Decidable (_ ∧ _))

theorem Place.Deep.next {n : Nat} {place : Place} (deep : place.Deep n) {c : Char} (quiet : Quiet c) :
    ∃ place', Nesting.next place c = some place' ∧ place'.Deep (if c = '(' then n + 1 else n) := by
  obtain ⟨noClose, noDouble, noSingle, noEscape⟩ := quiet
  cases place with
  | code depth =>
    by_cases opens : c = '('
    · refine ⟨.code (depth + 1), by simp [Nesting.next, opens], ?_⟩
      rw [if_pos opens]
      exact Nat.succ_le_succ deep
    · refine ⟨.code depth, by simp [Nesting.next, opens, noClose, noDouble, noSingle], ?_⟩
      rw [if_neg opens]
      exact deep
  | literal depth quote =>
    have noQuote : c ≠ quote.char := by cases quote <;> assumption
    exact ⟨.literal depth quote, by simp [Nesting.next, noEscape, noQuote], trivial⟩
  | escape depth quote => exact ⟨.literal depth quote, rfl, trivial⟩

/-- Every parenthesis that a quiet text opens is open behind it. -/
theorem Place.Deep.after {n : Nat} {place : Place} (deep : place.Deep n) {text : Str} (quiet : ∀ c ∈ text, Quiet c) :
    ∃ place', Nesting.after place text = some place' ∧ place'.Deep (n + text.count '(') := by
  induction text generalizing place n with
  | nil => exact ⟨place, rfl, deep⟩
  | cons c text ih =>
    obtain ⟨here, later⟩ := List.forall_mem_cons.mp quiet
    obtain ⟨middle, first, deep⟩ := deep.next here
    obtain ⟨last, rest, deep⟩ := ih deep later
    refine ⟨last, by rw [Nesting.after, first]; exact rest, ?_⟩
    by_cases opens : c = '('
    · rw [if_pos opens] at deep
      rw [opens, List.count_cons_self]
      rwa [Nat.add_assoc, Nat.add_comm 1] at deep
    · rw [if_neg opens] at deep
      rwa [List.count_cons_of_ne opens]

theorem Place.deep_zero (place : Place) : place.Deep 0 := by
  cases place with
  | code depth => exact Nat.zero_le depth
  | literal _ _ => exact trivial
  | escape _ _ => exact trivial

/-- A parenthesis that closes leads up by one at most. -/
theorem Place.Deep.close {n : Nat} {place last : Place} (deep : place.Deep n) {closing : Str}
    (closes : ∀ c ∈ closing, c = ')') (led : Nesting.after place closing = some last) :
    last.Deep (n - closing.length) := by
  induction closing generalizing place n with
  | nil =>
    obtain rfl := Option.some.inj led
    exact deep
  | cons c closing ih =>
    obtain ⟨rfl, later⟩ := List.forall_mem_cons.mp closes
    obtain ⟨middle, first, rest⟩ := Option.bind_eq_some_iff.mp led
    have up : middle.Deep (n - 1) := by
      cases place with
      | code depth =>
        rw [Nesting.next, if_neg (by decide), if_pos rfl] at first
        split at first
        · cases first
        · obtain rfl := Option.some.inj first
          exact Nat.sub_le_sub_right deep 1
      | literal depth quote =>
        have stays : Nesting.next (.literal depth quote) ')' = some (.literal depth quote) := by cases quote <;> rfl
        obtain rfl := Option.some.inj (stays.symm.trans first)
        exact trivial
      | escape depth quote =>
        obtain rfl := Option.some.inj first
        exact trivial
    have deeper := ih up later rest
    rwa [Nat.sub_sub, Nat.add_comm] at deeper

/-- At its end, a balanced text closes as many parentheses as it has just opened. -/
theorem Balanced.closed {front back closing : Str} (balanced : Balanced (front ++ (back ++ closing)))
    (quiet : ∀ c ∈ back, Quiet c) (closes : ∀ c ∈ closing, c = ')') : back.count '(' ≤ closing.length := by
  rw [Balanced, after_append] at balanced
  obtain ⟨place, _, behind⟩ := Option.bind_eq_some_iff.mp balanced
  obtain ⟨middle, led, deep⟩ := place.deep_zero.after quiet
  rw [after_append, led] at behind
  have last : 0 + back.count '(' - closing.length ≤ 0 := deep.close closes behind
  omega

theorem after_code_of_quiet (depth : Nat) {text : Str} (quiet : ∀ c ∈ text, Quiet c ∧ c ≠ '(') :
    after (.code depth) text = some (.code depth) := by
  induction text with
  | nil => rfl
  | cons c text ih =>
    obtain ⟨⟨⟨noClose, noDouble, noSingle, _⟩, noOpen⟩, later⟩ := List.forall_mem_cons.mp quiet
    have stays : next (.code depth) c = some (.code depth) := by simp [next, noOpen, noClose, noDouble, noSingle]
    rw [after, stays]
    exact ih later

/-- A balanced text does not close what it has not opened. -/
theorem Balanced.not_close {front back : Str} (quiet : ∀ c ∈ front, Quiet c ∧ c ≠ '(') :
    ¬ Balanced (front ++ ')' :: back) := by
  intro balanced
  rw [Balanced, after_append, after_code_of_quiet 0 quiet] at balanced
  cases balanced

end Nesting
