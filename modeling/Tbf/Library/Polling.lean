import Mathlib.Data.List.Nodup

/-!
# Polls without repetition

A collection is looked at again and again, and each look takes what has a key that none before it has taken.
-/

namespace Polling

section
variable {α κ : Type*} [BEq κ] [LawfulBEq κ]

def fresh (key : α → κ) (seen : List κ) (listing : List α) : List α := listing.filter fun a => key a ∉ seen

/-- What each look takes, where `seen` is taken before the first one. -/
def polls (key : α → κ) : List κ → List (List α) → List (List α)
  | _, [] => []
  | seen, listing :: later => fresh key seen listing :: polls key (seen ∪ (fresh key seen listing).map key) later

variable {key : α → κ} {seen : List κ} {listing : List α} {listings : List (List α)}

theorem mem_fresh {a : α} : a ∈ fresh key seen listing ↔ a ∈ listing ∧ key a ∉ seen := by
  simp [fresh]

/-- What a look leaves out because it was taken counts as seen anyway. -/
theorem mem_seen {n : κ} : n ∈ seen ∪ (fresh key seen listing).map key ↔ n ∈ seen ∨ n ∈ listing.map key := by
  rw [List.mem_union_iff]
  constructor
  · intro taken
    rcases taken with before | now
    · exact Or.inl before
    · obtain ⟨a, member, rfl⟩ := List.mem_map.mp now
      exact Or.inr (List.mem_map_of_mem (mem_fresh.mp member).1)
  · intro listed
    by_cases before : n ∈ seen
    · exact Or.inl before
    · obtain ⟨a, member, rfl⟩ := List.mem_map.mp (listed.resolve_left before)
      exact Or.inr (List.mem_map_of_mem (mem_fresh.mpr ⟨member, before⟩))

/-- A look takes exactly the members whose key no listing before it has shown. -/
theorem getElem?_polls (k : Nat) : (polls key seen listings)[k]? = listings[k]?.map fun listing =>
    listing.filter fun a => key a ∉ seen ∧ ∀ earlier ∈ listings.take k, key a ∉ earlier.map key := by
  induction listings generalizing seen k with
  | nil => simp [polls]
  | cons listing later ih =>
    cases k with
    | zero => simp [polls, fresh]
    | succ k =>
      have unseen : ∀ n : κ, (n ∉ seen ∪ (fresh key seen listing).map key ∧
          ∀ earlier ∈ later.take k, n ∉ earlier.map key) ↔
          n ∉ seen ∧ ∀ earlier ∈ (listing :: later).take (k + 1), n ∉ earlier.map key := by
        intro n
        rw [mem_seen, not_or, List.take_succ_cons, List.forall_mem_cons, and_assoc]
      simp only [polls, List.getElem?_cons_succ, ih, unseen]

theorem mem_keys {n : κ} : n ∈ (polls key seen listings).flatten.map key ↔
    n ∉ seen ∧ ∃ listing ∈ listings, n ∈ listing.map key := by
  induction listings generalizing seen with
  | nil => simp [polls]
  | cons listing later ih =>
    have here : n ∈ (fresh key seen listing).map key ↔ n ∈ listing.map key ∧ n ∉ seen := by
      simp only [List.mem_map, mem_fresh]
      constructor
      · rintro ⟨a, ⟨member, unseen⟩, rfl⟩
        exact ⟨⟨a, member, rfl⟩, unseen⟩
      · rintro ⟨⟨a, member, rfl⟩, unseen⟩
        exact ⟨a, ⟨member, unseen⟩, rfl⟩
    rw [polls, List.flatten_cons, List.map_append, List.mem_append, here, ih, mem_seen, not_or]
    simp only [List.mem_cons, exists_eq_or_imp]
    tauto

theorem nodup_keys (distinct : ∀ listing ∈ listings, (listing.map key).Nodup) :
    ((polls key seen listings).flatten.map key).Nodup := by
  induction listings generalizing seen with
  | nil => simp [polls]
  | cons listing later ih =>
    obtain ⟨here, behind⟩ := List.forall_mem_cons.mp distinct
    rw [polls, List.flatten_cons, List.map_append]
    apply List.Nodup.append ((List.filter_sublist.map key).nodup here) (ih behind)
    intro n now again
    exact (mem_keys.mp again).1 (List.mem_union_iff.mpr (Or.inr now))

end

end Polling
