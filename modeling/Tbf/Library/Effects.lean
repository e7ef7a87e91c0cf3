import Mathlib.Logic.Basic

/-!
# Computations that raise

A computation with a state and exceptions, in which the state survives an exception, and the rules for
what holds after it: when it returns, and when it raises.
-/

namespace Effects

/-- As in Python, what was done before an exception stays done. -/
abbrev Comp (σ ε α : Type) := ExceptT ε (StateM σ) α

section
variable {σ ε α β : Type}

def exec (c : Comp σ ε α) (s : σ) : Except ε α × σ := c.run.run s

/-- From a state with `pre` the computation returns with `post`, or raises with `raises`. -/
def Triple (pre : σ → Prop) (c : Comp σ ε α) (post : α → σ → Prop) (raises : ε → σ → Prop) : Prop :=
  ∀ s, pre s → match exec c s with
    | (.ok a, t) => post a t
    | (.error e, t) => raises e t

/-! ### Running -/

@[simp] theorem exec_pure (a : α) (s : σ) : exec (pure a : Comp σ ε α) s = (.ok a, s) := rfl

@[simp] theorem exec_throw (e : ε) (s : σ) : exec (throw e : Comp σ ε α) s = (.error e, s) := rfl

@[simp] theorem exec_get (s : σ) : exec (get : Comp σ ε σ) s = (.ok s, s) := rfl

@[simp] theorem exec_set (next s : σ) : exec (set next : Comp σ ε PUnit) s = (.ok ⟨⟩, next) := rfl

theorem exec_bind (c : Comp σ ε α) (f : α → Comp σ ε β) (s : σ) :
    exec (c >>= f) s = match exec c s with
      | (.ok a, t) => exec (f a) t
      | (.error e, t) => (.error e, t) := by
  show (c >>= f) s = match c s with
    | (.ok a, t) => f a t
    | (.error e, t) => (.error e, t)
  simp only [bind, ExceptT.bind, ExceptT.mk, StateT.bind]
  cases c s with
  | mk r t => cases r <;> rfl

theorem exec_tryCatch (c : Comp σ ε α) (handle : ε → Comp σ ε α) (s : σ) :
    exec (tryCatch c handle) s = match exec c s with
      | (.ok a, t) => (.ok a, t)
      | (.error e, t) => exec (handle e) t := by
  show (tryCatch c handle) s = match c s with
    | (.ok a, t) => (.ok a, t)
    | (.error e, t) => handle e t
  simp only [tryCatch, tryCatchThe, MonadExceptOf.tryCatch, ExceptT.tryCatch, ExceptT.mk, bind, StateT.bind]
  cases c s with
  | mk r t => cases r <;> rfl

/-- What comes last is done in both cases; if it raises itself, that is what is raised. -/
theorem exec_tryFinally (c : Comp σ ε α) (last : Comp σ ε β) (s : σ) :
    exec (tryFinally c last) s = match exec c s with
      | (r, t) => match exec last t with
        | (.ok _, u) => (r, u)
        | (.error e, u) => (.error e, u) := by
  show (tryFinally c last) s = match c s with
    | (r, t) => match last t with
      | (.ok _, u) => (r, u)
      | (.error e, u) => (.error e, u)
  simp only [tryFinally, tryFinally', ExceptT.mk, bind, StateT.bind, Functor.map, ExceptT.map, pure]
  cases first : c s with
  | mk r t =>
    cases second : last t with
    | mk q u =>
      cases r with
      | error e => cases q <;> simp only [second] <;> rfl
      | ok a => cases q <;> simp only [second] <;> rfl

/-! ### Rules -/

section
variable {pre mid : σ → Prop} {c : Comp σ ε α} {post : α → σ → Prop} {raises : ε → σ → Prop}

theorem Triple.conseq {pre' : σ → Prop} {post' : α → σ → Prop} {raises' : ε → σ → Prop} (proved : Triple pre' c post' raises')
    (stronger : ∀ s, pre s → pre' s) (weaker : ∀ a s, post' a s → post a s) (weakerRaises : ∀ e s, raises' e s → raises e s) :
    Triple pre c post raises := by
  intro s initial
  have result := proved s (stronger s initial)
  split at result
  · exact weaker _ _ result
  · exact weakerRaises _ _ result

/-- What holds of the result and the state behind it, however the computation ends. -/
theorem Triple.run {ended : Except ε α → σ → Prop} {s : σ}
    (proved : Triple pre c (fun a => ended (.ok a)) (fun e => ended (.error e))) (initial : pre s) :
    ended (exec c s).1 (exec c s).2 := by
  have result := proved s initial
  rcases outcome : exec c s with ⟨e | a, t⟩
  · rwa [outcome] at result
  · rwa [outcome] at result

theorem Triple.cases {ι : Sort*} {pre : ι → σ → Prop} (each : ∀ i, Triple (pre i) c post raises) :
    Triple (fun s => ∃ i, pre i s) c post raises := by
  rintro s ⟨i, here⟩
  exact each i s here

theorem Triple.either {first second : σ → Prop} (left : Triple first c post raises) (right : Triple second c post raises) :
    Triple (fun s => first s ∨ second s) c post raises := by
  rintro s (here | here)
  · exact left s here
  · exact right s here

theorem Triple.fact {fact : Prop} (holds : fact → Triple pre c post raises) : Triple (fun s => fact ∧ pre s) c post raises := by
  rintro s ⟨known, here⟩
  exact holds known s here

theorem Triple.pure {a : α} (holds : ∀ s, pre s → post a s) : Triple pre (pure a) post raises := holds

theorem Triple.throw {e : ε} (holds : ∀ s, pre s → raises e s) : Triple pre (throw e : Comp σ ε α) post raises := holds

theorem Triple.bind {f : α → Comp σ ε β} {mid : α → σ → Prop} {post : β → σ → Prop} (here : Triple pre c mid raises)
    (later : ∀ a, Triple (mid a) (f a) post raises) : Triple pre (c >>= f) post raises := by
  intro s initial
  have first := here s initial
  rw [exec_bind]
  split at first
  · exact later _ _ first
  · exact first

theorem Triple.get {f : σ → Comp σ ε β} {post : β → σ → Prop} (each : ∀ s, pre s → Triple (· = s) (f s) post raises) :
    Triple pre (get >>= f) post raises := by
  intro s initial
  rw [exec_bind, exec_get]
  exact each s initial s rfl

/-- What is raised is handled from the state that the exception left. -/
theorem Triple.tryCatch {handle : ε → Comp σ ε α} {caught : ε → σ → Prop} (body : Triple pre c post caught)
    (handled : ∀ e, Triple (caught e) (handle e) post raises) : Triple pre (tryCatch c handle) post raises := by
  intro s initial
  have first := body s initial
  rw [exec_tryCatch]
  split at first
  · exact first
  · exact handled _ _ first

/-- What comes last restores a condition in both cases and raises nothing. -/
theorem Triple.tryFinally {last : Comp σ ε β} {returned : α → σ → Prop} {failed : ε → σ → Prop} {never : ε → σ → Prop}
    (body : Triple pre c returned failed) (onReturn : ∀ a, Triple (returned a) last (fun _ => post a) never)
    (onRaise : ∀ e, Triple (failed e) last (fun _ => raises e) never) (total : ∀ e s, ¬ never e s) :
    Triple pre (tryFinally c last) post raises := by
  intro s initial
  have first := body s initial
  rw [exec_tryFinally]
  rcases run : exec c s with ⟨e | a, t⟩
  · rw [run] at first
    have second := onRaise e t first
    rcases done : exec last t with ⟨f | b, u⟩
    · rw [done] at second
      exact absurd second (total f u)
    · rw [done] at second
      simpa only [done] using second
  · rw [run] at first
    have second := onReturn a t first
    rcases done : exec last t with ⟨f | b, u⟩
    · rw [done] at second
      exact absurd second (total f u)
    · rw [done] at second
      simpa only [done] using second

end

end

end Effects
