import Mathlib.Data.List.Infix

/-!
# Deleting matches

`re.sub(pattern, '', text)`: the matches are looked for from left to right, each behind the one before, and what is
between them is left.
-/

namespace Deletion

variable {α β : Type*}

/-- A pattern, by what is behind its match at the very beginning of a text. A match is not empty. -/
structure Pattern (α : Type*) where
  behind : List α → Option (List α)
  nil : behind [] = none
  cons : ∀ {c text rest}, behind (c :: text) = some rest → rest <:+ text

/-- `skip` counts the characters of a match that are still to be passed. -/
def deleteFrom (p : Pattern α) : Nat → List α → List α
  | _, [] => []
  | 0, c :: text =>
    match p.behind (c :: text) with
    | some rest => deleteFrom p (text.length - rest.length) text
    | none => c :: deleteFrom p 0 text
  | skip + 1, _ :: text => deleteFrom p skip text

def delete (p : Pattern α) (text : List α) : List α := deleteFrom p 0 text

/-- `re.search(pattern, text)` finds a match. -/
def occurs (p : Pattern α) : List α → Bool
  | [] => false
  | c :: text => (p.behind (c :: text)).isSome || occurs p text

variable {p : Pattern α}

theorem deleteFrom_skip (front text : List α) : deleteFrom p front.length (front ++ text) = deleteFrom p 0 text := by
  induction front with
  | nil => rfl
  | cons c front ih => exact ih

theorem delete_nil (p : Pattern α) : delete p [] = [] := rfl

theorem delete_cons {c : α} {text : List α} (missing : p.behind (c :: text) = none) :
    delete p (c :: text) = c :: delete p text := by
  rw [delete, deleteFrom, missing]
  rfl

theorem delete_match {text rest : List α} (found : p.behind text = some rest) : delete p text = delete p rest := by
  cases text with
  | nil => cases p.nil.symm.trans found
  | cons c text =>
    obtain ⟨front, rfl⟩ := p.cons found
    have passed : (front ++ rest).length - rest.length = front.length := by
      rw [List.length_append]
      omega
    rw [delete, deleteFrom, found]
    dsimp only
    rw [passed, deleteFrom_skip]
    rfl

/-- The way the deletion goes through a text. -/
@[elab_as_elim]
theorem delete_induction (p : Pattern α) {P : List α → Prop} (nil : P [])
    (here : ∀ text rest, p.behind text = some rest → P rest → P text)
    (cons : ∀ c text, p.behind (c :: text) = none → P text → P (c :: text)) (text : List α) : P text := by
  obtain ⟨n, length⟩ : ∃ n, text.length ≤ n := ⟨_, Nat.le_refl _⟩
  induction n generalizing text with
  | zero =>
    obtain rfl := List.eq_nil_of_length_eq_zero (Nat.le_zero.mp length)
    exact nil
  | succ n ih =>
    cases text with
    | nil => exact nil
    | cons c text =>
      have short := Nat.le_of_succ_le_succ length
      cases found : p.behind (c :: text) with
      | none => exact cons c text found (ih text short)
      | some rest => exact here _ rest found (ih rest (Nat.le_trans (p.cons found).length_le short))

theorem delete_sublist (p : Pattern α) (text : List α) : (delete p text).Sublist text := by
  induction text using delete_induction p with
  | nil => exact List.Sublist.refl _
  | here text rest found ih =>
    rw [delete_match found]
    cases text with
    | nil => cases p.nil.symm.trans found
    | cons c text => exact (ih.trans (p.cons found).sublist).cons c
  | cons c text missing ih =>
    rw [delete_cons missing]
    exact ih.cons_cons c

/-- Text in which no match begins is left alone. -/
theorem delete_append {front text : List α}
    (missing : ∀ back, back ≠ [] → back <:+ front → p.behind (back ++ text) = none) :
    delete p (front ++ text) = front ++ delete p text := by
  induction front with
  | nil => rfl
  | cons c front ih =>
    have here := missing (c :: front) (List.cons_ne_nil _ _) (List.suffix_refl _)
    rw [List.cons_append] at here ⊢
    rw [delete_cons here, ih fun back some inside => missing back some (inside.trans (List.suffix_cons c front))]
    rfl

theorem occurs_append {front text : List α}
    (missing : ∀ back, back ≠ [] → back <:+ front → p.behind (back ++ text) = none) :
    occurs p (front ++ text) = occurs p text := by
  induction front with
  | nil => rfl
  | cons c front ih =>
    have here := missing (c :: front) (List.cons_ne_nil _ _) (List.suffix_refl _)
    rw [List.cons_append] at here ⊢
    rw [occurs, here, ih fun back some inside => missing back some (inside.trans (List.suffix_cons c front))]
    rfl

theorem delete_eq_self {text : List α} (missing : ∀ back, back ≠ [] → back <:+ text → p.behind back = none) :
    delete p text = text := by
  have alone : delete p (text ++ []) = text ++ delete p [] := by
    apply delete_append
    intro back some inside
    rw [List.append_nil]
    exact missing back some inside
  rwa [delete_nil, List.append_nil] at alone

theorem occurs_eq_false {text : List α} (missing : ∀ back, back ≠ [] → back <:+ text → p.behind back = none) :
    occurs p text = false := by
  have alone : occurs p (text ++ []) = occurs p [] := by
    apply occurs_append
    intro back some inside
    rw [List.append_nil]
    exact missing back some inside
  rwa [List.append_nil] at alone

/-! ### Characters with marks -/

variable {q : Pattern β} {f : α → β}

/-- A pattern that looks at the characters only leaves of a marked text what it leaves of the text. -/
theorem delete_map (same : ∀ text, q.behind (text.map f) = (p.behind text).map (List.map f)) (text : List α) :
    delete q (text.map f) = (delete p text).map f := by
  induction text using delete_induction p with
  | nil => rfl
  | here text rest found ih =>
    have found' := same text
    rw [found] at found'
    rw [delete_match found, delete_match found', ih]
  | cons c text missing ih =>
    have missing' := same (c :: text)
    rw [missing] at missing'
    rw [List.map_cons] at missing' ⊢
    rw [delete_cons missing, delete_cons missing', ih, List.map_cons]

theorem occurs_map (same : ∀ text, q.behind (text.map f) = (p.behind text).map (List.map f)) (text : List α) :
    occurs q (text.map f) = occurs p text := by
  induction text with
  | nil => rfl
  | cons c text ih =>
    have here := same (c :: text)
    rw [List.map_cons] at here ⊢
    rw [occurs, occurs, ih, here, Option.isSome_map]

end Deletion
