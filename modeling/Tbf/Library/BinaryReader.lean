import Tbf.Library.CInteger

/-!
# Reading binary files

A reader takes a front of the input and leaves the rest. A file may be looked at while it is still being
written, so a reader is described by what it makes of a whole record and of one that is cut off.
-/

namespace BinaryReader
open Text CInteger

/-- A reader of symbols `τ` that fails with `ε`. -/
abbrev Reader (ε τ α : Type) := StateT (List τ) (Except ε) α

section
variable {ε τ α β : Type}

/-- `f.read(n)`: up to `n` symbols, and all of them for `-1`; any other negative number is refused. -/
def read (refused : ε) (n : Int) : Reader ε τ (List τ) := fun file =>
  if 0 ≤ n then .ok (file.take n.toNat, file.drop n.toNat)
  else if n = -1 then .ok (file, []) else .error refused

def times (r : Reader ε τ α) : Nat → Reader ε τ (List α)
  | 0 => pure []
  | n + 1 => do
    let a ← r
    let others ← times r n
    return a :: others

/-- `data` is read as `a`, whatever is behind it. -/
def Reads (r : Reader ε τ α) (data : List τ) (a : α) : Prop := ∀ rest, r (data ++ rest) = .ok (a, rest)

/-- What is left of `data` where it is cut off is refused. -/
def Refuses (r : Reader ε τ α) (data : List τ) : Prop :=
  ∀ front, front <+: data → front ≠ data → ∃ e, r front = .error e

/-- What is left of `data` where it is cut off is refused, or taken to its end for something else. -/
def Drains (r : Reader ε τ α) (data : List τ) : Prop :=
  ∀ front, front <+: data → front ≠ data → (∃ e, r front = .error e) ∨ ∃ a, r front = .ok (a, [])

/-! ### One after the other -/

theorem bind_apply (r : Reader ε τ α) (f : α → Reader ε τ β) (file : List τ) :
    (r >>= f) file = (r file).bind fun read => f read.1 read.2 := rfl

theorem bind_of_ok {r : Reader ε τ α} {f : α → Reader ε τ β} {file rest : List τ} {a : α} (first : r file = .ok (a, rest)) :
    (r >>= f) file = f a rest := by
  rw [bind_apply, first]
  rfl

theorem bind_of_error {r : Reader ε τ α} {f : α → Reader ε τ β} {file : List τ} {e : ε} (first : r file = .error e) :
    (r >>= f) file = .error e := by
  rw [bind_apply, first]
  rfl

/-- A cut is in the first part or behind it. -/
theorem cut_append {front first second : List τ} (cut : front <+: first ++ second) (short : front ≠ first ++ second) :
    (front <+: first ∧ front ≠ first) ∨ ∃ behind, front = first ++ behind ∧ behind <+: second ∧ behind ≠ second := by
  by_cases inside : front.length < first.length
  · refine Or.inl ⟨List.prefix_of_prefix_length_le cut (List.prefix_append _ _) (Nat.le_of_lt inside), ?_⟩
    rintro rfl
    exact Nat.lt_irrefl _ inside
  · obtain ⟨behind, rfl⟩ := List.prefix_of_prefix_length_le (List.prefix_append first second) cut (Nat.le_of_not_lt inside)
    refine Or.inr ⟨behind, rfl, (List.prefix_append_right_inj first).mp cut, ?_⟩
    rintro rfl
    exact short rfl

theorem reads_pure (a : α) : Reads (pure a : Reader ε τ α) [] a := fun _ => rfl

theorem refuses_nil (r : Reader ε τ α) : Refuses r [] := by
  intro front cut short
  exact absurd (List.prefix_nil.mp cut) short

theorem Refuses.drains {r : Reader ε τ α} {data : List τ} (refuses : Refuses r data) : Drains r data :=
  fun front cut short => Or.inl (refuses front cut short)

section
variable {r : Reader ε τ α} {f : α → Reader ε τ β} {first second : List τ} {a : α} {b : β}

theorem Reads.bind (here : Reads r first a) (later : Reads (f a) second b) : Reads (r >>= f) (first ++ second) b := by
  intro rest
  rw [List.append_assoc, bind_of_ok (here _)]
  exact later rest

/-- A reader that only drains is made up for by one that needs something behind it. -/
theorem Drains.bind_refuses (here : Reads r first a) (drains : Drains r first) (needs : ∀ a, ∃ e, f a [] = .error e)
    (later : Refuses (f a) second) : Refuses (r >>= f) (first ++ second) := by
  intro front cut short
  rcases cut_append cut short with ⟨inside, less⟩ | ⟨behind, rfl, inside, less⟩
  · rcases drains front inside less with ⟨e, refused⟩ | ⟨other, drained⟩
    · exact ⟨e, bind_of_error refused⟩
    · rw [bind_of_ok drained]
      exact needs other
  · rw [bind_of_ok (here behind)]
    exact later behind inside less

theorem Refuses.bind (here : Reads r first a) (refuses : Refuses r first) (later : Refuses (f a) second) :
    Refuses (r >>= f) (first ++ second) := by
  intro front cut short
  rcases cut_append cut short with ⟨inside, less⟩ | ⟨behind, rfl, inside, less⟩
  · obtain ⟨e, refused⟩ := refuses front inside less
    exact ⟨e, bind_of_error refused⟩
  · rw [bind_of_ok (here behind)]
    exact later behind inside less

theorem Refuses.bind_drains (here : Reads r first a) (refuses : Refuses r first) (later : Drains (f a) second) :
    Drains (r >>= f) (first ++ second) := by
  intro front cut short
  rcases cut_append cut short with ⟨inside, less⟩ | ⟨behind, rfl, inside, less⟩
  · obtain ⟨e, refused⟩ := refuses front inside less
    exact Or.inl ⟨e, bind_of_error refused⟩
  · rw [bind_of_ok (here behind)]
    exact later behind inside less

theorem Refuses.bind_left (refuses : Refuses r first) : Refuses (r >>= f) first := by
  intro front cut short
  obtain ⟨e, refused⟩ := refuses front cut short
  exact ⟨e, bind_of_error refused⟩

/-- What comes behind takes nothing more. -/
theorem Drains.bind_still (drains : Drains r first)
    (still : ∀ a, (∃ e, f a [] = .error e) ∨ ∃ b, f a [] = .ok (b, [])) : Drains (r >>= f) first := by
  intro front cut short
  rcases drains front cut short with ⟨e, refused⟩ | ⟨a, drained⟩
  · exact Or.inl ⟨e, bind_of_error refused⟩
  · rw [bind_of_ok drained]
    exact still a

end

/-! ### A number of symbols -/

theorem read_nat (refused : ε) (n : Nat) (file : List τ) :
    read refused (n : Int) file = .ok (file.take n, file.drop n) := by
  simp [read]

theorem reads_read (refused : ε) {data : List τ} {n : Nat} (size : data.length = n) : Reads (read refused (n : Int)) data data := by
  intro rest
  rw [read_nat, List.take_left' size, List.drop_left' size]

theorem drains_read (refused : ε) {data : List τ} {n : Nat} (size : data.length = n) : Drains (read refused (n : Int)) data := by
  intro front cut _
  have fewer : front.length ≤ n := size ▸ cut.length_le
  exact Or.inr ⟨front, by rw [read_nat, List.take_of_length_le fewer, List.drop_of_length_le fewer]⟩

/-! ### A number of records -/

section
variable {ι : Type} {r : Reader ε τ α} {record : ι → List τ} {value : ι → α} {items : List ι}

theorem reads_times (each : ∀ i ∈ items, Reads r (record i) (value i)) :
    Reads (times r items.length) (items.flatMap record) (items.map value) := by
  induction items with
  | nil => exact reads_pure []
  | cons i items ih =>
    obtain ⟨here, others⟩ := List.forall_mem_cons.mp each
    intro rest
    rw [List.flatMap_cons, List.append_assoc, List.length_cons, times, bind_of_ok (here _), bind_of_ok (ih others rest)]
    rfl

/-- Records that only drain are refused where the next one is missing. -/
theorem drains_times (each : ∀ i ∈ items, Reads r (record i) (value i)) (drains : ∀ i ∈ items, Drains r (record i))
    (needs : ∃ e, r [] = .error e) : Drains (times r items.length) (items.flatMap record) := by
  induction items with
  | nil => exact (refuses_nil _).drains
  | cons i items ih =>
    obtain ⟨here, others⟩ := List.forall_mem_cons.mp each
    obtain ⟨drained, rest⟩ := List.forall_mem_cons.mp drains
    intro front cut short
    rw [List.length_cons, times]
    rcases cut_append cut short with ⟨inside, less⟩ | ⟨behind, rfl, inside, less⟩
    · rcases drained front inside less with ⟨e, refused⟩ | ⟨other, read⟩
      · exact Or.inl ⟨e, bind_of_error refused⟩
      · rw [bind_of_ok read]
        cases items with
        | nil => exact Or.inr ⟨[other], rfl⟩
        | cons _ _ =>
          obtain ⟨e, empty⟩ := needs
          exact Or.inl ⟨e, bind_of_error (bind_of_error empty)⟩
    · rw [bind_of_ok (here behind)]
      exact (ih others rest).bind_still (fun _ => Or.inr ⟨_, rfl⟩) behind inside less

end

end

/-! ### Integers -/

def int32 : IntType := ⟨.w32, true⟩

/-- A length as a 32-bit integer. -/
def int32Of (n : Nat) (fits : n < 2 ^ 31) : int32.Val where
  int := n
  lower := by
    show (-2 ^ 31 : Int) ≤ n
    omega
  upper := by
    show (n : Int) ≤ 2 ^ 31 - 1
    omega

/-- `struct.pack('>i', v)` -/
def packInt (v : int32.Val) : Bytes := (int32.bytes v.int).reverse

/-- `struct.unpack('>i', f.read(4))` -/
def unpackInt {ε : Type} (short : ε) : Reader ε UInt8 Int := do
  let data ← read short 4
  if data.length = 4 then return int32.decode data.reverse else throw short

example : packInt (int32Of 258 (by decide)) = [0, 0, 1, 2] := by decide

section
variable {ε : Type} (short : ε)

theorem length_packInt (v : int32.Val) : (packInt v).length = 4 := by
  rw [packInt, List.length_reverse, IntType.bytes, CNumber.length_littleEndianBytes]
  rfl

theorem unpackInt_of_short {file : Bytes} (few : file.length < 4) : unpackInt short file = .error short := by
  have none : (file.take 4).length ≠ 4 := by
    rw [List.length_take]
    omega
  have taken : read short 4 file = .ok (file.take 4, file.drop 4) := read_nat short 4 file
  rw [unpackInt, bind_of_ok taken, if_neg none]
  rfl

theorem reads_unpackInt (v : int32.Val) : Reads (unpackInt short) (packInt v) v.int := by
  intro rest
  have value : int32.decode (packInt v).reverse = v.int := by
    rw [packInt, List.reverse_reverse]
    exact IntType.decode_littleEndianBytes v (IntType.word_emod _ _)
  have taken : read short 4 (packInt v ++ rest) = .ok (packInt v, rest) := reads_read short (length_packInt v) rest
  rw [unpackInt, bind_of_ok taken, if_pos (length_packInt v), value]
  rfl

theorem refuses_unpackInt (v : int32.Val) : Refuses (unpackInt short) (packInt v) := by
  intro front cut less
  have fewer : front.length < 4 := by
    have bound := cut.length_le
    rw [length_packInt] at bound
    refine Nat.lt_of_le_of_ne bound fun same => less ?_
    exact cut.eq_of_length (by rw [same, length_packInt])
  exact ⟨short, unpackInt_of_short short fewer⟩

end

end BinaryReader
