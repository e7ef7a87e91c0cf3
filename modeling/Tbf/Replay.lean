import Tbf.Tools.Afl

/-!
# The reported harness

When a test reaches the error, the user receives a second harness, which takes its values from a
switch over the test vector. `Replays` compares its inputs with those of the executed harness.
-/

namespace Tbf.Replay
open Text InputSource CLiteral Harness

def copied (text : Bytes) : Option Bytes := do
  let value ← literal text
  if (cstr value).length < INP_SIZE then some (cstr value) else none

theorem exec_switchCounter (values : List Bytes) (p : Process) (inpVar : Option Bytes) :
    (Stmt.switchCounter values).exec (p, inpVar) =
      ((values[p.accessCounter]?).bind copied).map fun text => (p, some text) := by
  cases found : values[p.accessCounter]? with
  | none => simp [Stmt.exec, found]
  | some text =>
    cases body : literal text with
    | none => simp [Stmt.exec, copied, found, body]
    | some value =>
      by_cases fits : (cstr value).length < INP_SIZE
      · simp [Stmt.exec, copied, found, body, fits]
      · simp [Stmt.exec, copied, found, body, fits]

theorem readInput_switch (tv : TestVector) (p : Process) :
    readInput (some tv) p = match (tv.lines[p.accessCounter]?).bind copied with
      | some text => (some text, { p with accessCounter := (p.accessCounter + 1) % 2 ^ 32 })
      | none => (none, p) := by
  have counted : ∀ s : Process × Option Bytes, Stmt.countAccess.exec s =
      some ({ s.1 with accessCounter := (s.1.accessCounter + 1) % 2 ^ 32 }, s.2) := fun _ => rfl
  have body : (readStatements (some tv)).foldlM (fun s stmt => stmt.exec s) (p, none) =
      ((Stmt.switchCounter tv.lines).exec (p, none)).bind Stmt.countAccess.exec := by
    cases found : (Stmt.switchCounter tv.lines).exec (p, none) <;>
      simp [readStatements, List.foldlM_cons, Stmt.exec.eq_1, Stmt.exec.eq_2, found, counted]
  rw [readInput, execAll, body, exec_switchCounter]
  cases (tv.lines[p.accessCounter]?).bind copied <;> rfl

theorem nth_switch {tv : TestVector} {stdin : Bytes} {k start : Nat} (small : start + k < 2 ^ 32)
    (before : ∀ j < k, ((tv.lines[start + j]?).bind copied).isSome) :
    nth (readInput (some tv)) k ⟨stdin, start⟩ = (tv.lines[start + k]?).bind copied := by
  induction k generalizing start with
  | zero =>
    cases read : (tv.lines[start]?).bind copied with
    | none => simp only [nth, readInput_switch, read]
    | some text => simp only [nth, readInput_switch, read]
  | succ k ih =>
    obtain ⟨text, read⟩ := Option.isSome_iff_exists.mp (before 0 k.succ_pos)
    have step : readInput (some tv) ⟨stdin, start⟩ = (some text, ⟨stdin, start + 1⟩) := by
      have here : (tv.lines[start]?).bind copied = some text := read
      simp only [readInput_switch, here, Nat.mod_eq_of_lt (show start + 1 < 2 ^ 32 by omega)]
    rw [nth, step, ih (by omega)]
    · rw [show start + 1 + k = start + (k + 1) by omega]
    · intro j inside
      rw [show start + 1 + j = start + (j + 1) by omega]
      exact before (j + 1) (by omega)

/-- The value is the body of a string literal, and nothing in its C string is an escape. -/
def Plain (text : Bytes) : Prop := (literal text).isSome ∧ backslash ∉ cstr text

/-- The first NUL is lost in the joint of two lines, and what comes behind it gives the string back its length. -/
def Regained (text : Bytes) : Prop :=
  NulJoined text ∧ ∃ reported, copied text = some reported ∧ chomp (cstr reported) = cstr text

/-- No value is cut by the buffer: one that is followed by another has room for its newline too, and
the counter can count them. -/
structure Fits (tv : TestVector) : Prop where
  counted : tv.length ≤ 2 ^ 32
  framed : ∀ line ∈ tv.lines.dropLast, line.length + 1 < INP_SIZE
  copied : ∀ line ∈ tv.lines, (cstr line).length < INP_SIZE

/-- Call by call, both harnesses hand the same C string to `parse_inp`, up to a trailing newline. -/
def Replays (tv : TestVector) (inherited : Bytes) : Prop :=
  ∃ input, ExecutionRunner.stdin tv inherited = .ok input ∧
    ∀ (calls : List NondetMethod) (k : Nat), k < tv.length → k < (valueCalls calls).length →
      ∃ executed reported,
        (handed (methodBody none) ⟨input, 0⟩ calls)[k]? = some (some executed) ∧
        (handed (methodBody (some tv)) ⟨inherited, 0⟩ calls)[k]? = some (some reported) ∧
        chomp (cstr executed) = chomp (cstr reported)

theorem copied_of_plain {text : Bytes} (plain : Plain text) (fits : (cstr text).length < INP_SIZE) :
    copied text = some (cstr text) := by
  obtain ⟨value, body⟩ := Option.isSome_iff_exists.mp plain.1
  have same : cstr value = cstr text := cstr_literal_of_clean body plain.2
  simp [copied, body, same, fits]

theorem cstr_cstr (text : Bytes) : cstr (cstr text) = cstr text := by
  rw [cstr_of_not_mem]
  intro member
  have := List.mem_takeWhile_imp member
  simp at this

theorem length_chomp_le (text : Bytes) : (chomp text).length ≤ text.length := by
  unfold chomp
  split
  · simp
  · exact Nat.le_refl _

/-- A copied text is the text itself if it has no escapes, or by a coincidence. -/
theorem plain_of_copied {text reported : Bytes} (read : copied text = some reported)
    (same : cstr text = chomp (cstr reported)) : Plain text ∨ Regained text := by
  by_cases joint : NulJoined text
  · exact Or.inr ⟨joint, reported, read, same.symm⟩
  left
  obtain ⟨value, body, rest⟩ := Option.bind_eq_some_iff.mp read
  refine ⟨Option.isSome_iff_exists.mpr ⟨value, body⟩, fun escape => ?_⟩
  have shorter := length_cstr_literal_lt body joint escape
  split at rest
  · obtain rfl := Option.some.inj rest
    rw [cstr_cstr] at same
    have := length_chomp_le (cstr value)
    rw [← same] at this
    omega
  · cases rest

theorem copied_of_replayable {text : Bytes} (oneLine : newline ∉ text) (fits : (cstr text).length < INP_SIZE)
    (replayable : Plain text ∨ Regained text) : ∃ reported, copied text = some reported ∧ chomp (cstr reported) = cstr text := by
  rcases replayable with plain | ⟨_, regained⟩
  · refine ⟨cstr text, copied_of_plain plain fits, ?_⟩
    rw [cstr_cstr, chomp_of_not_mem (newline_not_mem_cstr oneLine)]
  · exact regained

theorem executed_text {tv : TestVector} (oneLine : tv.OneLine) (fits : Fits tv) {k : Nat} {line : Bytes}
    (value : tv.lines[k]? = some line) :
    ∃ read, nth (fgets INP_SIZE) k (joinLines tv.lines) = some read ∧ chomp (cstr read) = cstr line := by
  have lines : ∀ line ∈ tv.lines, newline ∉ line := by
    intro line member
    obtain ⟨v, here, rfl⟩ := List.mem_map.mp member
    exact oneLine v here
  obtain ⟨inside, here⟩ := List.getElem?_eq_some_iff.mp value
  have before : ∀ line ∈ tv.lines.take k, line.length + 1 < INP_SIZE := by
    intro line member
    refine fits.framed line ?_
    rw [List.dropLast_eq_take]
    exact (List.take_sublist_take_left (by omega)).subset member
  rw [nth_fgets_drop lines before, List.drop_eq_getElem_cons inside, here, joinLines_cons]
  have member := List.mem_of_getElem? value
  exact fgets_cstr (lines line member) (fits.copied line member) _

theorem replays_iff_nth {tv : TestVector} (single : tv.SingleTyped) (inherited : Bytes) :
    Replays tv inherited ↔ ∀ k < tv.length, ∃ executed reported,
      nth (fgets INP_SIZE) k (joinLines tv.lines) = some executed ∧
      nth (readInput (some tv)) k ⟨inherited, 0⟩ = some reported ∧
      chomp (cstr executed) = chomp (cstr reported) := by
  unfold Replays
  simp only [ExecutionRunner.stdin_ok single.joinable, Except.ok.injEq, exists_eq_left']
  constructor
  · intro all k inside
    have made : k < (valueCalls (List.replicate (k + 1) ExecutionRunner.intMethod)).length := by
      rw [ExecutionRunner.length_valueCalls_replicate]
      exact Nat.lt_succ_self k
    have nonempty : tv.vector ≠ [] := by
      intro empty
      simp [TestVector.length, empty] at inside
    obtain ⟨executed, reported, read, copied, same⟩ := all _ k inside made
    rw [handed_eq_nth _ _ _ made] at read copied
    rw [nth_readInput_stdin, if_neg nonempty] at read
    exact ⟨executed, reported, Option.some.inj read, Option.some.inj copied, same⟩
  · intro all calls k inside made
    have nonempty : tv.vector ≠ [] := by
      intro empty
      simp [TestVector.length, empty] at inside
    obtain ⟨executed, reported, read, copied, same⟩ := all k inside
    refine ⟨executed, reported, ?_, ?_, same⟩
    · rw [handed_eq_nth _ _ _ made, nth_readInput_stdin, if_neg nonempty, read]
    · rw [handed_eq_nth _ _ _ made, copied]

/-- A vector whose values fit is replayed exactly if each value is plain, or gets back what it has lost in the joint of
two lines. Behind a value that does not fit, calls read what the value before left over. -/
theorem replays_iff_plain {tv : TestVector} (single : tv.SingleTyped) (oneLine : tv.OneLine) (fits : Fits tv)
    (inherited : Bytes) : Replays tv inherited ↔ ∀ line ∈ tv.lines, Plain line ∨ Regained line := by
  have length : tv.lines.length = tv.length := by
    simp [TestVector.lines, TestVector.values, TestVector.length]
  have lines : ∀ line ∈ tv.lines, newline ∉ line := by
    intro line member
    obtain ⟨v, here, rfl⟩ := List.mem_map.mp member
    exact oneLine v here
  constructor
  · intro replays
    have calls := (replays_iff_nth single inherited).mp replays
    -- Call by call: a case is read if all cases before it were.
    have plain : ∀ k (inside : k < tv.lines.length),
        ((tv.lines[0 + k]?).bind copied).isSome ∧ (Plain tv.lines[k] ∨ Regained tv.lines[k]) := by
      intro k
      induction k using Nat.strong_induction_on with
      | _ k earlier =>
        intro inside
        obtain ⟨executed, reported, read, copied, same⟩ := calls k (length ▸ inside)
        obtain ⟨read', executed', text⟩ := executed_text oneLine fits (List.getElem?_eq_getElem inside)
        obtain rfl := Option.some.inj (read.symm.trans executed')
        rw [nth_switch (by have := fits.counted; omega)
          fun j before => (earlier j before (Nat.lt_trans before inside)).1] at copied
        refine ⟨by rw [copied]; rfl, ?_⟩
        rw [Nat.zero_add, List.getElem?_eq_getElem inside] at copied
        exact plain_of_copied copied (text.symm.trans same)
    intro line member
    obtain ⟨k, inside, rfl⟩ := List.getElem_of_mem member
    exact (plain k inside).2
  · intro replayable
    have copies : ∀ k (inside : k < tv.lines.length), ∃ reported, (tv.lines[0 + k]?).bind copied = some reported ∧
        chomp (cstr reported) = cstr tv.lines[k] := by
      intro k inside
      have member := List.getElem_mem inside
      rw [Nat.zero_add, List.getElem?_eq_getElem inside]
      exact copied_of_replayable (lines _ member) (fits.copied _ member) (replayable _ member)
    refine (replays_iff_nth single inherited).mpr fun k inside => ?_
    rw [← length] at inside
    obtain ⟨read, executed, text⟩ := executed_text oneLine fits (List.getElem?_eq_getElem inside)
    obtain ⟨reported, copied, same⟩ := copies k inside
    refine ⟨read, reported, executed, ?_, text.trans same.symm⟩
    rw [nth_switch (by have := fits.counted; omega), copied]
    intro j earlier
    obtain ⟨_, copied, _⟩ := copies j (Nat.lt_trans earlier inside)
    rw [copied]
    rfl

def signVector : TestVector :=
  Afl.getTestVector ⟨"id:000000".toList, "id:000000".toList, encode "7\n-0x80".toList⟩

theorem signVector_replays : Replays signVector [] :=
  (replays_iff_plain (Afl.getTestVector_singleTyped _) (by unfold TestVector.OneLine; decide)
    ⟨by decide, by decide, by decide⟩ []).mpr fun line member => Or.inl (by
      revert line
      unfold Plain
      decide)

def octalVector : TestVector :=
  Afl.getTestVector ⟨"id:000000".toList, "id:000000".toList, encode "\\061".toList⟩

theorem octalVector_not_replays :
    octalVector.SingleTyped ∧ octalVector.OneLine ∧ ¬ Replays octalVector [] := by
  have single : octalVector.SingleTyped := Afl.getTestVector_singleTyped _
  refine ⟨single, by unfold TestVector.OneLine; decide, fun replays => ?_⟩
  obtain ⟨executed, reported, read, copied, same⟩ := (replays_iff_nth single []).mp replays 0 (by decide)
  have digit : nth (readInput (some octalVector)) 0 ⟨[], 0⟩ = some (encode "1".toList) := by decide
  have whole : nth (fgets INP_SIZE) 0 (joinLines octalVector.lines) = some (encode "\\061\n".toList) := by decide
  obtain rfl := Option.some.inj (digit.symm.trans copied)
  obtain rfl := Option.some.inj (whole.symm.trans read)
  revert same
  decide

end Tbf.Replay
