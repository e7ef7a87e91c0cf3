import Mathlib.Data.List.Nodup
import Mathlib.Logic.Function.Basic

/-!
# A directory and the files behind its names

A name is bound to a file, and a file goes on to exist for whoever has it open when its name is gone.
-/

/-- `fresh` and all greater numbers are not yet the number of any file. -/
structure Directory (Name Symbol : Type*) where
  entries : List (Name × Nat)
  contents : Nat → List Symbol
  fresh : Nat
  distinct : (entries.map Prod.fst).Nodup
  bounded : ∀ e ∈ entries, e.2 < fresh

namespace Directory
variable {Name Symbol : Type*}

def names (d : Directory Name Symbol) : List Name := d.entries.map Prod.fst

def Binds (d : Directory Name Symbol) (name : Name) (file : Nat) : Prop := (name, file) ∈ d.entries

variable {d : Directory Name Symbol} {name : Name} {file : Nat}

theorem Binds.unique {other : Nat} (bound : d.Binds name file) (again : d.Binds name other) : file = other := by
  have same := List.inj_on_of_nodup_map d.distinct bound again rfl
  exact congrArg Prod.snd same

theorem Binds.lt_fresh (bound : d.Binds name file) : file < d.fresh := d.bounded _ bound

theorem mem_names : name ∈ d.names ↔ ∃ file, d.Binds name file := by
  simp [names, Binds]

def overwrite (d : Directory Name Symbol) (file : Nat) (content : List Symbol) : Directory Name Symbol :=
  { d with contents := Function.update d.contents file content }

def append (d : Directory Name Symbol) (file : Nat) (text : List Symbol) : Directory Name Symbol :=
  d.overwrite file (d.contents file ++ text)

@[simp] theorem contents_append (file other : Nat) (text : List Symbol) :
    (d.append file text).contents other = if other = file then d.contents file ++ text else d.contents other := by
  simp [append, overwrite, Function.update_apply]

@[simp] theorem binds_append (text : List Symbol) {other : Nat} :
    (d.append other text).Binds name file ↔ d.Binds name file := Iff.rfl

@[simp] theorem names_append (text : List Symbol) : (d.append file text).names = d.names := rfl

@[simp] theorem fresh_append (text : List Symbol) : (d.append file text).fresh = d.fresh := rfl

variable [DecidableEq Name]

def lookup (d : Directory Name Symbol) (name : Name) : Option Nat := d.entries.lookup name

theorem lookup_eq_some : d.lookup name = some file ↔ d.Binds name file := by
  constructor
  · intro found
    obtain ⟨front, back, split, _⟩ := List.lookup_eq_some_iff.mp found
    simp [Binds, split]
  · intro bound
    obtain ⟨front, back, split⟩ := List.append_of_mem bound
    refine List.lookup_eq_some_iff.mpr ⟨front, back, split, fun e member => ?_⟩
    have distinct := d.distinct
    rw [split, List.map_append, List.map_cons, List.nodup_append] at distinct
    have different := distinct.2.2 e.1 (List.mem_map_of_mem member) name List.mem_cons_self
    simpa using different.symm

theorem lookup_eq_none : d.lookup name = none ↔ ∀ file, ¬ d.Binds name file := by
  rw [Option.eq_none_iff_forall_ne_some]
  exact forall_congr' fun file => not_congr lookup_eq_some

/-- A new name, with an empty file behind it. -/
def bindFresh (d : Directory Name Symbol) (name : Name) (absent : d.lookup name = none) : Directory Name Symbol where
  entries := (name, d.fresh) :: d.entries
  contents := Function.update d.contents d.fresh []
  fresh := d.fresh + 1
  distinct := by
    refine List.nodup_cons.mpr ⟨fun member => ?_, d.distinct⟩
    obtain ⟨file, bound⟩ := mem_names.mp member
    exact lookup_eq_none.mp absent file bound
  bounded := by
    intro e member
    rcases List.mem_cons.mp member with rfl | member
    · exact Nat.lt_succ_self _
    · exact Nat.lt_succ_of_lt (d.bounded e member)

/-- Opening for writing: a file that exists is cut to nothing, one that does not is created. -/
def openWrite (d : Directory Name Symbol) (name : Name) : Directory Name Symbol × Nat :=
  match found : d.lookup name with
  | some file => (d.overwrite file [], file)
  | none => (d.bindFresh name found, d.fresh)

/-- The file gets the new name, whatever had it before. -/
def rename (d : Directory Name Symbol) (old new : Name) : Directory Name Symbol :=
  match found : d.lookup old with
  | none => d
  | some file =>
    { d with
      entries := (new, file) :: d.entries.filter fun e => e.1 ≠ old ∧ e.1 ≠ new
      distinct := by
        refine List.nodup_cons.mpr ⟨fun member => ?_, (List.filter_sublist.map _).nodup d.distinct⟩
        obtain ⟨e, kept, same⟩ := List.mem_map.mp member
        exact (of_decide_eq_true (List.mem_filter.mp kept).2).2 same
      bounded := by
        intro e member
        rcases List.mem_cons.mp member with rfl | member
        · exact (lookup_eq_some.mp found).lt_fresh
        · exact d.bounded e (List.mem_filter.mp member).1 }

theorem binds_openWrite {opened : Name} : (d.openWrite opened).1.Binds name file ↔
    (if name = opened then file = (d.openWrite opened).2 else d.Binds name file) := by
  unfold openWrite
  split
  · rename_i old found
    have bound := lookup_eq_some.mp found
    change d.Binds name file ↔ _
    split
    · rename_i same
      subst same
      exact ⟨fun again => again.unique bound, fun same => same ▸ bound⟩
    · exact Iff.rfl
  · rename_i absent
    change (name, file) ∈ (opened, d.fresh) :: d.entries ↔ _
    rw [List.mem_cons, Prod.mk.injEq]
    split
    · rename_i same
      subst same
      have missing : (name, file) ∉ d.entries := lookup_eq_none.mp absent file
      simp [missing]
    · rename_i different
      simp [different, Binds]

theorem contents_openWrite {opened : Name} : (d.openWrite opened).1.contents (d.openWrite opened).2 = [] := by
  unfold openWrite
  split
  · simp [overwrite]
  · simp [bindFresh]

/-- Only the opened file loses its content. -/
theorem contents_openWrite_other {opened : Name} (other : file ≠ (d.openWrite opened).2) :
    (d.openWrite opened).1.contents file = d.contents file := by
  revert other
  unfold openWrite
  split
  · exact fun other => Function.update_of_ne other _ _
  · exact fun other => Function.update_of_ne other _ _

/-- The opened file is new, or it had the name before. -/
theorem openWrite_file (opened : Name) :
    (d.openWrite opened).2 = d.fresh ∨ d.Binds opened (d.openWrite opened).2 := by
  unfold openWrite
  split
  · exact Or.inr (lookup_eq_some.mp ‹_›)
  · exact Or.inl rfl

theorem binds_rename {old new : Name} {moved : Nat} (bound : d.Binds old moved) :
    (d.rename old new).Binds name file ↔
      (if name = new then file = moved else name ≠ old ∧ d.Binds name file) := by
  have found := lookup_eq_some.mpr bound
  unfold rename
  split
  · rename_i absent
    rw [found] at absent
    cases absent
  · rename_i other again
    obtain rfl := Option.some.inj (found.symm.trans again)
    change (name, file) ∈ (new, moved) :: _ ↔ _
    rw [List.mem_cons, Prod.mk.injEq, List.mem_filter, decide_eq_true_eq]
    split
    · rename_i same
      simp [same]
    · rename_i different
      simp [different, Binds, and_comm]

theorem contents_rename (old new : Name) : (d.rename old new).contents = d.contents := by
  unfold rename
  split <;> rfl

end Directory
