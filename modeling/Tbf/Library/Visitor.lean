import Mathlib.Data.List.Lex
import Mathlib.Order.Basic

/-!
# Visitors over trees

A visitor goes through a tree in preorder and leaves the nodes it has a method for to that method. What it
finds is said by paths, and the order by the lexicographic order of paths.
-/

namespace Visitor

/-- Nodes with their children in order; going down ends. -/
structure NodeTree (N : Type) where
  children : N → List N
  grounded : WellFounded fun c n => c ∈ children n

namespace NodeTree

variable {N α : Type} (T : NodeTree N)

theorem induction {motive : N → Prop} (step : ∀ n, (∀ c ∈ T.children n, motive c) → motive n) (n : N) : motive n :=
  T.grounded.induction n step

/-- The visit of a node: a method of its own adds what it finds, else the children are visited. -/
def visit (method : N → Option (Option α)) (n : N) : List α :=
  match method n with
  | some found => found.toList
  | none => (T.children n).attach.flatMap fun c => visit method c.1
termination_by T.grounded.wrap n
decreasing_by exact c.2

theorem visit_eq (method : N → Option (Option α)) (n : N) : T.visit method n =
    match method n with
    | some found => found.toList
    | none => (T.children n).flatMap (T.visit method) := by
  rw [visit]
  simp only [List.flatMap_subtype, List.unattach_attach]

theorem visit_method {method : N → Option (Option α)} {n : N} {found : Option α} (own : method n = some found) :
    T.visit method n = found.toList := by
  rw [visit_eq, own]

theorem visit_children {method : N → Option (Option α)} {n : N} (generic : method n = none) :
    T.visit method n = (T.children n).flatMap (T.visit method) := by
  rw [visit_eq, generic]

/-- The second node is at this path below the first, with no node in between that stops. -/
inductive At (stop : N → Prop) : N → List Nat → N → Prop
  | here (n : N) : At stop n [] n
  | through {n c m : N} {i : Nat} {path : List Nat} : ¬ stop n → (T.children n)[i]? = some c → At stop c path m →
      At stop n (i :: path) m

variable {T}

theorem At.mono {stop stop' : N → Prop} {n m : N} {path : List Nat} (found : T.At stop n path m)
    (weaker : ∀ n, stop' n → stop n) : T.At stop' n path m := by
  induction found with
  | here n => exact .here n
  | through going child _ ih => exact .through (mt (weaker _) going) child ih

/-- What is found, each with its path: the paths grow, and they are those at which there is something. -/
def Spots (P : List Nat → α → Prop) (xs : List α) : Prop :=
  ∃ spots : List (List Nat × α), spots.map Prod.snd = xs ∧ spots.Pairwise (fun s t => s.1 < t.1) ∧
    ∀ path x, (path, x) ∈ spots ↔ P path x

theorem Spots.mem_iff {P : List Nat → α → Prop} {xs : List α} (found : Spots P xs) {x : α} : x ∈ xs ↔ ∃ path, P path x := by
  obtain ⟨spots, rfl, _, all⟩ := found
  simp only [List.mem_map, Prod.exists, exists_eq_right, all]

/-- The first of the list that passes a test is the one with the least path. -/
theorem Spots.find_iff {P : List Nat → α → Prop} {xs : List α} (found : Spots P xs) {test : α → Bool} {x : α} :
    xs.find? test = some x ↔ ∃ path, P path x ∧ test x = true ∧ ∀ path' x', P path' x' → test x' = true → ¬ path' < path := by
  obtain ⟨spots, rfl, grows, all⟩ := found
  simp only [← all]
  clear all P
  induction spots with
  | nil => simp
  | cons spot spots ih =>
    obtain ⟨path, y⟩ := spot
    obtain ⟨before, grows⟩ := List.pairwise_cons.mp grows
    rw [List.map_cons, List.find?_cons]
    cases passes : test y with
    | true =>
      constructor
      · intro same
        obtain rfl := Option.some.inj same
        refine ⟨path, List.mem_cons_self, passes, fun path' x' member _ => ?_⟩
        rcases List.mem_cons.mp member with same | member
        · rw [(Prod.mk.inj same).1]
          exact lt_irrefl path
        · exact lt_asymm (before _ member)
      · rintro ⟨path', member, _, least⟩
        rcases List.mem_cons.mp member with same | member
        · rw [(Prod.mk.inj same).2]
        · exact absurd (before _ member) (least path y List.mem_cons_self passes)
    | false =>
      rw [ih grows]
      constructor
      · rintro ⟨path', member, passes', least⟩
        refine ⟨path', List.mem_cons_of_mem _ member, passes', fun path'' x' member' passes'' => ?_⟩
        rcases List.mem_cons.mp member' with same | member'
        · rw [(Prod.mk.inj same).2, passes] at passes''
          cases passes''
        · exact least path'' x' member' passes''
      · rintro ⟨path', member, passes', least⟩
        rcases List.mem_cons.mp member with same | member
        · rw [(Prod.mk.inj same).2, passes] at passes'
          cases passes'
        · exact ⟨path', member, passes', fun path'' x' member' => least path'' x' (List.mem_cons_of_mem _ member')⟩

theorem spots_children {P : N → List Nat → α → Prop} {visit : N → List α} {nodes : List N}
    (each : ∀ c ∈ nodes, Spots (P c) (visit c)) (start : Nat) :
    Spots (fun path x => ∃ i c rest, path = (start + i) :: rest ∧ nodes[i]? = some c ∧ P c rest x) (nodes.flatMap visit) := by
  induction nodes generalizing start with
  | nil => exact ⟨[], rfl, .nil, by simp⟩
  | cons c nodes ih =>
    obtain ⟨here, others⟩ := List.forall_mem_cons.mp each
    obtain ⟨spots, values, grows, all⟩ := here
    obtain ⟨spots', values', grows', all'⟩ := ih others (start + 1)
    refine ⟨spots.map (fun spot => (start :: spot.1, spot.2)) ++ spots', ?_, ?_, fun path x => ?_⟩
    · rw [List.map_append, List.map_map, values', List.flatMap_cons, ← values]
      rfl
    · refine List.pairwise_append.mpr ⟨?_, grows', ?_⟩
      · rw [List.pairwise_map]
        exact grows.imp fun {s t} less => List.cons_lt_cons_iff.mpr (Or.inr ⟨rfl, less⟩)
      · intro s first t second
        obtain ⟨spot, _, rfl⟩ := List.mem_map.mp first
        obtain ⟨i, c', rest, path, _⟩ := (all' t.1 t.2).mp second
        rw [path]
        exact List.cons_lt_cons_iff.mpr (Or.inl (by omega))
    · rw [List.mem_append, all', List.mem_map]
      constructor
      · rintro (⟨⟨rest, y⟩, member, same⟩ | ⟨i, c', rest, rfl, child, inside⟩)
        · obtain ⟨rfl, rfl⟩ := Prod.mk.inj same
          exact ⟨0, c, rest, rfl, rfl, (all rest y).mp member⟩
        · exact ⟨i + 1, c', rest, by rw [Nat.add_assoc, Nat.add_comm 1], by simpa using child, inside⟩
      · rintro ⟨i, c', rest, rfl, child, inside⟩
        cases i with
        | zero =>
          obtain rfl := Option.some.inj child
          exact Or.inl ⟨(rest, x), (all rest x).mpr inside, rfl⟩
        | succ i => exact Or.inr ⟨i, c', rest, by rw [Nat.add_assoc, Nat.add_comm 1], by simpa using child, inside⟩

/-- A visit finds what the methods add, at the nodes that no other method keeps it from, in preorder. -/
theorem visit_spots (method : N → Option (Option α)) (n : N) :
    Spots (fun path x => ∃ m, T.At (fun n => (method n).isSome = true) n path m ∧ method m = some (some x))
      (T.visit method n) := by
  induction n using T.induction with
  | step n ih =>
    cases own : method n with
    | some found =>
      rw [T.visit_method own]
      refine ⟨found.toList.map fun x => ([], x), by cases found <;> rfl, by cases found <;> simp, fun path x => ?_⟩
      constructor
      · intro member
        obtain ⟨y, inside, same⟩ := List.mem_map.mp member
        obtain ⟨rfl, rfl⟩ := Prod.mk.inj same
        exact ⟨n, .here n, own.trans (congrArg some (Option.mem_toList.mp inside))⟩
      · rintro ⟨m, at', adds⟩
        cases at' with
        | here =>
          obtain rfl := Option.some.inj (own.symm.trans adds)
          simp
        | through going => exact absurd (by rw [own]; rfl) going
    | none =>
      rw [T.visit_children own]
      obtain ⟨spots, values, grows, all⟩ := spots_children ih 0
      refine ⟨spots, values, grows, fun path x => (all path x).trans ?_⟩
      constructor
      · rintro ⟨i, c, rest, rfl, child, m, at', adds⟩
        rw [Nat.zero_add]
        exact ⟨m, .through (by rw [own]; exact Bool.false_ne_true) child at', adds⟩
      · rintro ⟨m, at', adds⟩
        cases at' with
        | here => cases own.symm.trans adds
        | through _ child at' => exact ⟨_, _, _, by rw [Nat.zero_add], child, m, at', adds⟩

end NodeTree

end Visitor
