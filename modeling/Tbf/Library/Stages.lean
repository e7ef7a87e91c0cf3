import Mathlib.Data.List.Basic

/-!
# Stages with a memory

A stage gives one output for each input, and remembers something from one input to the next. A pass that takes
each input through several stages at once gives what the stages give one after the other.
-/

namespace Stages

section
variable {σ τ α β γ : Type*}

abbrev Stage (σ α β : Type*) := σ → α → β × σ

namespace Stage

/-- What the stage remembers behind the inputs. -/
def after (f : Stage σ α β) (s : σ) (xs : List α) : σ := xs.foldl (fun s x => (f s x).2) s

def outputs (f : Stage σ α β) : σ → List α → List β
  | _, [] => []
  | s, x :: xs => (f s x).1 :: outputs f (f s x).2 xs

/-- The second stage gets each output of the first at once. -/
def andThen (f : Stage σ α β) (g : Stage τ β γ) : Stage (σ × τ) α γ := fun s x =>
  ((g s.2 (f s.1 x).1).1, ((f s.1 x).2, (g s.2 (f s.1 x).1).2))

variable {f : Stage σ α β} {g : Stage τ β γ}

@[simp] theorem after_nil (s : σ) : f.after s [] = s := rfl

@[simp] theorem after_cons (s : σ) (x : α) (xs : List α) : f.after s (x :: xs) = f.after (f s x).2 xs := rfl

theorem after_append (s : σ) (xs ys : List α) : f.after s (xs ++ ys) = f.after (f.after s xs) ys := List.foldl_append

theorem after_concat (s : σ) (xs : List α) (x : α) : f.after s (xs ++ [x]) = (f (f.after s xs) x).2 := after_append ..

/-- An output depends on its input and on what the stage remembers behind the inputs in front of it. -/
theorem getElem?_outputs (s : σ) (xs : List α) (i : Nat) :
    (f.outputs s xs)[i]? = xs[i]?.map fun x => (f (f.after s (xs.take i)) x).1 := by
  induction xs generalizing s i with
  | nil => rfl
  | cons x xs ih =>
    cases i with
    | zero => rfl
    | succ i => rw [outputs, List.getElem?_cons_succ, ih, List.getElem?_cons_succ, List.take_succ_cons, after_cons]

/-- A stage that does the same to each input, whatever it remembers. -/
theorem outputs_eq_map {h : α → β} (p : α → Prop) (inv : σ → Prop)
    (same : ∀ s x, inv s → p x → (f s x).1 = h x ∧ inv (f s x).2) {s : σ} (initial : inv s) {xs : List α}
    (all : ∀ x ∈ xs, p x) : f.outputs s xs = xs.map h := by
  induction xs generalizing s with
  | nil => rfl
  | cons x xs ih =>
    obtain ⟨here, others⟩ := List.forall_mem_cons.mp all
    obtain ⟨first, later⟩ := same s x initial here
    rw [outputs, first, ih later others, List.map_cons]

/-- One pass through two stages gives what two passes give. -/
theorem outputs_andThen (s : σ) (t : τ) (xs : List α) : (f.andThen g).outputs (s, t) xs = g.outputs t (f.outputs s xs) := by
  induction xs generalizing s t with
  | nil => rfl
  | cons x xs ih =>
    rw [outputs, outputs, outputs]
    exact congrArg _ (ih _ _)

end Stage

/-- A stage that remembers nothing. -/
def each (h : α → β) : Stage Unit α β := fun _ x => (h x, ())

theorem outputs_each (h : α → β) (xs : List α) : (each h).outputs () xs = xs.map h := by
  induction xs with
  | nil => rfl
  | cons x xs ih => exact congrArg _ ih

end

end Stages
