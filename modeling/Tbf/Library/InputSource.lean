import Tbf.Library.Text

/-!
# Input sources

A source answers one read after another. `fgets` turns a byte stream into a source of lines;
two sources simulate each other read by read.
-/

namespace InputSource
open Text

section
variable {σ ρ τ : Type*}

def nth (next : σ → Option τ × σ) : Nat → σ → Option τ
  | 0, s => (next s).1
  | k + 1, s => nth next k (next s).2

def Simulation (left : σ → Option τ × σ) (right : ρ → Option τ × ρ) (rel : σ → ρ → Prop)
    (same : Option τ → Option τ → Prop) : Prop :=
  ∀ s r, rel s r → same (left s).1 (right r).1 ∧ rel (left s).2 (right r).2

theorem nth_simulation {left : σ → Option τ × σ} {right : ρ → Option τ × ρ} {rel : σ → ρ → Prop}
    {same : Option τ → Option τ → Prop} (sim : Simulation left right rel same) {s : σ} {r : ρ}
    (related : rel s r) (k : Nat) : same (nth left k s) (nth right k r) := by
  induction k generalizing s r with
  | zero => exact (sim s r related).1
  | succ k ih => exact ih (sim s r related).2

end

/-! ### Line reading -/

def takeLine : Nat → Bytes → Bytes
  | 0, _ => []
  | _ + 1, [] => []
  | n + 1, b :: rest => if b = newline then [b] else b :: takeLine n rest

/-- C's `fgets(buf, size, stream)`: the bytes read and the rest of the stream, `none` at end of input. -/
def fgets (size : Nat) (stream : Bytes) : Option Bytes × Bytes :=
  if stream = [] then (none, [])
  else (some (takeLine (size - 1) stream), stream.drop (takeLine (size - 1) stream).length)

def cstr (buffer : Bytes) : Bytes := buffer.takeWhile (· ≠ 0)

def chomp (text : Bytes) : Bytes := if text.getLast? = some newline then text.dropLast else text

theorem takeLine_short {line : Bytes} (oneLine : newline ∉ line) {n : Nat} (fits : line.length < n)
    (rest : Bytes) : takeLine n (line ++ newline :: rest) = line ++ [newline] := by
  induction line generalizing n with
  | nil =>
    obtain ⟨n, rfl⟩ := Nat.exists_eq_succ_of_ne_zero (Nat.ne_of_gt fits)
    simp [takeLine]
  | cons b line ih =>
    obtain ⟨n, rfl⟩ := Nat.exists_eq_succ_of_ne_zero (Nat.ne_of_gt (Nat.zero_lt_of_lt fits))
    have other : b ≠ newline := fun same => oneLine (same ▸ List.mem_cons_self)
    simp only [List.cons_append, takeLine, if_neg other]
    rw [ih (fun member => oneLine (List.mem_cons_of_mem _ member)) (by simpa using fits)]

theorem takeLine_long {line : Bytes} (oneLine : newline ∉ line) {n : Nat} (long : n ≤ line.length)
    (rest : Bytes) : takeLine n (line ++ rest) = line.take n := by
  induction n generalizing line with
  | zero => simp [takeLine]
  | succ n ih =>
    cases line with
    | nil => simp at long
    | cons b line =>
      have other : b ≠ newline := fun same => oneLine (same ▸ List.mem_cons_self)
      simp only [List.cons_append, takeLine, if_neg other, List.take_succ_cons]
      rw [ih (fun member => oneLine (List.mem_cons_of_mem _ member)) (by simpa using long)]

theorem fgets_line {line : Bytes} (oneLine : newline ∉ line) {size : Nat} (fits : line.length + 1 < size)
    (rest : Bytes) : fgets size (line ++ newline :: rest) = (some (line ++ [newline]), rest) := by
  rw [fgets, if_neg (by simp), takeLine_short oneLine (by omega)]
  simp [List.drop_append]

theorem fgets_cut {line : Bytes} (oneLine : newline ∉ line) {size : Nat} (long : size ≤ line.length + 1)
    (rest : Bytes) (some_left : line ++ rest ≠ []) :
    (fgets size (line ++ rest)).1 = some (line.take (size - 1)) := by
  rw [fgets, if_neg some_left, takeLine_long oneLine (by omega)]

theorem takeLine_length_le (n : Nat) (stream : Bytes) : (takeLine n stream).length ≤ n := by
  fun_induction takeLine n stream with
  | case1 => simp
  | case2 => simp
  | case3 n rest => simp
  | case4 n b rest other ih => simpa using ih

theorem takeLine_front (n : Nat) (stream : Bytes) : takeLine n stream <+: stream := by
  fun_induction takeLine n stream with
  | case1 => simp
  | case2 => simp
  | case3 n rest => simp
  | case4 n b rest other ih => simpa using ih

theorem cstr_append_of_mem {buffer : Bytes} (ends : 0 ∈ buffer) (rest : Bytes) :
    cstr (buffer ++ rest) = cstr buffer := by
  induction buffer with
  | nil => simp at ends
  | cons b buffer ih =>
    by_cases zero : b = 0
    · simp [cstr, zero]
    · have later : 0 ∈ buffer := by
        rcases List.mem_cons.mp ends with same | later
        · exact absurd same.symm zero
        · exact later
      simpa [cstr, zero] using ih later

theorem cstr_of_not_mem {buffer : Bytes} (clean : 0 ∉ buffer) : cstr buffer = buffer := by
  rw [cstr, List.takeWhile_eq_self_iff]
  intro b member
  simpa using fun zero : b = 0 => clean (zero ▸ member)

theorem chomp_append_newline (text : Bytes) : chomp (text ++ [newline]) = text := by
  simp [chomp]

theorem chomp_of_not_mem {text : Bytes} (oneLine : newline ∉ text) : chomp text = text := by
  rw [chomp, if_neg]
  intro last
  exact oneLine (List.mem_of_getLast? last)

/-! ### Streams of lines -/

def joinLines (lines : List Bytes) : Bytes := lines.flatMap (· ++ [newline])

theorem joinLines_cons (line : Bytes) (lines : List Bytes) :
    joinLines (line :: lines) = line ++ newline :: joinLines lines := by
  simp [joinLines]

theorem joinLines_eq_nil {lines : List Bytes} : joinLines lines = [] ↔ lines = [] := by
  cases lines <;> simp [joinLines]

theorem joinLines_splitOn (content : Bytes) : joinLines (content.splitOn newline) = content ++ [newline] := by
  induction content with
  | nil => rfl
  | cons b content ih =>
    rw [List.splitOn_cons_eq_if_modifyHead]
    obtain ⟨line, lines, split⟩ := List.exists_cons_of_ne_nil (List.splitOn_ne_nil newline content)
    rw [split] at ih ⊢
    by_cases stop : b = newline
    · simp [stop, joinLines_cons] at ih ⊢
      exact ih
    · simpa [stop, joinLines_cons] using ih

theorem nth_fgets_nil (size k : Nat) : nth (fgets size) k [] = none := by
  induction k with
  | zero => rfl
  | succ k ih => exact ih

/-- Reads and lines correspond, each to each, exactly when every line fits the buffer. -/
theorem nth_fgets_joinLines_iff {size : Nat} {lines : List Bytes} (oneLine : ∀ line ∈ lines, newline ∉ line) :
    (∀ k, nth (fgets size) k (joinLines lines) = lines[k]?.map (· ++ [newline])) ↔
      ∀ line ∈ lines, line.length + 1 < size := by
  induction lines with
  | nil => simpa [joinLines] using nth_fgets_nil size
  | cons line lines ih =>
    obtain ⟨here, later⟩ := List.forall_mem_cons.mp oneLine
    rw [List.forall_mem_cons, ← ih later, joinLines_cons]
    by_cases fits : line.length + 1 < size
    · have shifted : ∀ k, nth (fgets size) (k + 1) (line ++ newline :: joinLines lines) =
          nth (fgets size) k (joinLines lines) := by
        intro k
        rw [nth, fgets_line here fits]
      constructor
      · intro all
        exact ⟨fits, fun k => by rw [← shifted, all (k + 1)]; rfl⟩
      · rintro ⟨_, all⟩ k
        cases k with
        | zero => rw [nth, fgets_line here fits]; rfl
        | succ k => rw [shifted, all k]; rfl
    · constructor
      · intro all
        have cut := fgets_cut here (Nat.le_of_not_lt fits) (newline :: joinLines lines) (by simp)
        have first := all 0
        rw [nth, cut] at first
        have size := congrArg List.length (Option.some.inj first)
        simp only [List.length_take, List.length_append, List.length_singleton] at size
        omega
      · exact fun all => absurd all.1 fits

theorem nth_fgets_drop {size : Nat} {lines : List Bytes} (oneLine : ∀ line ∈ lines, newline ∉ line) {k : Nat}
    (fits : ∀ line ∈ lines.take k, line.length + 1 < size) :
    nth (fgets size) k (joinLines lines) = (fgets size (joinLines (lines.drop k))).1 := by
  induction k generalizing lines with
  | zero => rfl
  | succ k ih =>
    cases lines with
    | nil => exact nth_fgets_nil size (k + 1)
    | cons line lines =>
      obtain ⟨here, later⟩ := List.forall_mem_cons.mp oneLine
      obtain ⟨first, rest⟩ := List.forall_mem_cons.mp fits
      rw [joinLines_cons, nth, fgets_line here first]
      exact ih later rest

theorem length_fgets_lt {size : Nat} (room : 0 < size) {stream read : Bytes}
    (found : (fgets size stream).1 = some read) : read.length < size := by
  unfold fgets at found
  split at found
  · cases found
  · obtain rfl := Option.some.inj found
    have := takeLine_length_le (size - 1) stream
    omega

/-- A read yields an empty C string only where the stream goes on with NUL. -/
theorem cstr_fgets_eq_nil {size : Nat} (room : 1 < size) {stream read : Bytes}
    (found : (fgets size stream).1 = some read) : cstr read = [] ↔ stream.head? = some 0 := by
  obtain ⟨n, rfl⟩ : ∃ n, size = n + 2 := ⟨size - 2, by omega⟩
  cases stream with
  | nil => cases found
  | cons b stream =>
    have line : read = takeLine (n + 1) (b :: stream) := (Option.some.inj found).symm
    subst line
    unfold takeLine
    by_cases zero : b = 0
    · simp [cstr, zero, newline]
    · split <;> simp [cstr, zero]

theorem newline_not_mem_cstr {text : Bytes} (oneLine : newline ∉ text) : newline ∉ cstr text :=
  fun member => oneLine ((List.takeWhile_prefix _).subset member)

theorem chomp_cstr_line {line : Bytes} (oneLine : newline ∉ line) :
    chomp (cstr (line ++ [newline])) = cstr line := by
  by_cases ends : 0 ∈ line
  · rw [cstr_append_of_mem ends, chomp_of_not_mem (newline_not_mem_cstr oneLine)]
  · have ends' : 0 ∉ line ++ [newline] := by simp [ends, newline]
    rw [cstr_of_not_mem ends, cstr_of_not_mem ends', chomp_append_newline]

theorem cstr_take {text : Bytes} {n : Nat} (short : (cstr text).length ≤ n) : cstr (text.take n) = cstr text := by
  induction text generalizing n with
  | nil => simp
  | cons b text ih =>
    by_cases zero : b = 0
    · cases n with
      | zero => simp [cstr, zero]
      | succ n => simp [cstr, zero]
    · cases n with
      | zero => simp [cstr, zero] at short
      | succ n =>
        have tail : (cstr text).length ≤ n := by simpa [cstr, zero] using short
        simpa [cstr, zero] using ih tail

theorem fgets_cstr {line : Bytes} (oneLine : newline ∉ line) {size : Nat} (fits : (cstr line).length < size)
    (rest : Bytes) :
    ∃ read, (fgets size (line ++ newline :: rest)).1 = some read ∧ chomp (cstr read) = cstr line := by
  by_cases short : line.length + 1 < size
  · exact ⟨_, by rw [fgets_line oneLine short], chomp_cstr_line oneLine⟩
  · refine ⟨line.take (size - 1), fgets_cut oneLine (Nat.le_of_not_lt short) _ (by simp), ?_⟩
    rw [cstr_take (by omega), chomp_of_not_mem (newline_not_mem_cstr oneLine)]

end InputSource
