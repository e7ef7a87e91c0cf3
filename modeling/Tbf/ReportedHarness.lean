import Tbf.ErrorSearch
import Tbf.Replay

/-!
# The verdict and the reported harness

With the verdict `FALSE` the user receives a harness for the one test. The result of the test was read off the
generic harness; here the reported one is run, on any stdin.
-/

namespace Tbf.ReportedHarness
open Text InputSource CNumber CLiteral Harness Interaction ErrorSearch Replay

variable {methods : List NondetMethod}

/-- The nondet methods of the harness for a test vector. Behind its last value it aborts. -/
def reported (unit : CUnit) (tv : TestVector) : Oracle {method // method ∈ methods} Bytes Crash Process
  | method, p =>
    let (inpVar, next) := Harness.call (methodBody (some tv)) method.1 p
    if method.1.isVoid then (.ok [], next)
    else match inpVar with
      | none => (.error (if p.accessCounter < tv.lines.length then .undefined else .aborted []), next)
      | some buffer => (reply unit method.1.type (cstr buffer), next)

/-- The value that is taken means in a string literal what it is, and it is one line of a length that the buffer
holds. An empty one is no value here: nothing stands in front of its end that could be a newline. -/
def UsableAt (lines : List Bytes) (method : {method // method ∈ methods}) (k : Nat) : Prop :=
  method.1.isVoid = false → ∀ line, lines[k]? = some line →
    newline ∉ line ∧ Plain line ∧ cstr line ≠ [] ∧ (cstr line).length < INP_SIZE

def Usable (meaning : Meaning) (program : Tested methods) (tv : TestVector) : Prop :=
  ∀ fuel, Asks program (givenValues meaning tv.lines) (UsableAt tv.lines) fuel program.start 0

theorem reported_void (unit : CUnit) (tv : TestVector) {method : {method // method ∈ methods}}
    (void : method.1.isVoid = true) (p : Process) : reported unit tv method p = (.ok [], p) := by
  unfold reported
  simp only [void, if_true, call_void void]

/-- The value goes from the literal into the buffer as it is, and the parser takes it as it is given. -/
theorem reported_value (unit : CUnit) {tv : TestVector} (counted : tv.lines.length < 2 ^ 32)
    {method : {method // method ∈ methods}} {p : Process} (value : method.1.isVoid = false)
    (usable : UsableAt tv.lines method p.accessCounter) {line : Bytes} (taken : tv.lines[p.accessCounter]? = some line) :
    reported unit tv method p =
      (received unit method.1.type (.of (convert unit (cstr line))), { p with accessCounter := p.accessCounter + 1 }) := by
  obtain ⟨oneLine, plain, nonempty, short⟩ := usable value line taken
  obtain ⟨inside, -⟩ := List.getElem?_eq_some_iff.mp taken
  have next : (p.accessCounter + 1) % 2 ^ 32 = p.accessCounter + 1 := Nat.mod_eq_of_lt (by omega)
  have read : readInput (some tv) p = (some (cstr line), { p with accessCounter := p.accessCounter + 1 }) := by
    rw [readInput_switch, taken, Option.bind_some, copied_of_plain plain short]
    simp only [next]
  have size : INP_SIZE ≤ 2 ^ 32 := by decide
  have parsed : parseInp unit (cstr (cstr line)) = .of (convert unit (cstr line)) := by
    have converted := parseInp_chomp unit nonempty (by omega)
    rw [chomp_of_not_mem (newline_not_mem_cstr oneLine)] at converted
    rw [cstr_cstr]
    exact converted
  unfold reported
  simp only [value, Bool.false_eq_true, if_false, call_readInput value, read, reply, parsed]

theorem reported_behind (unit : CUnit) {tv : TestVector} {method : {method // method ∈ methods}} {p : Process}
    (value : method.1.isVoid = false) (ended : tv.lines[p.accessCounter]? = none) :
    ∃ crash next, reported unit tv method p = (.error crash, next) := by
  have read : readInput (some tv) p = (none, p) := by
    rw [readInput_switch, ended, Option.bind_none]
  unfold reported
  simp only [value, Bool.false_eq_true, if_false, call_readInput value, read]
  exact ⟨_, _, rfl⟩

theorem reported_answers {unit : CUnit} {meaning : Meaning} {tv : TestVector} (counted : tv.lines.length < 2 ^ 32)
    {method : {method // method ∈ methods}} {k : Nat} {p : Process} (count : p.accessCounter = k)
    (usable : UsableAt tv.lines method k) (delivered : DeliveredAt unit meaning tv.lines method k) :
    Answers (fun k p => p.accessCounter = k) (fun _ _ => True) (givenValues meaning tv.lines method k)
      (reported unit tv method p) := by
  subst count
  cases value : method.1.isVoid with
  | true =>
    rw [reported_void unit tv value]
    simp only [givenValues, value, if_true]
    exact ⟨rfl, rfl⟩
  | false =>
    cases taken : tv.lines[p.accessCounter]? with
    | none =>
      obtain ⟨crash, next, aborted⟩ := @reported_behind methods unit tv method p value taken
      rw [aborted]
      simp only [givenValues, value, taken, Bool.false_eq_true, if_false]
      exact trivial
    | some line =>
      have same := delivered value line taken
      rw [reported_value unit counted value usable taken]
      simp only [givenValues, value, taken, Bool.false_eq_true, if_false]
      rcases converted : convert unit (cstr line) with (message | _) | written
      · cases meant : meaning method.1 line with
        | none => exact trivial
        | some value => simp [converted, meant] at same
      · simp [converted] at same
      · cases meant : meaning method.1 line with
        | none => simp [converted, meant] at same
        | some value =>
          simp only [converted, meant] at same
          simp only [Parsed.of, received, same]
          exact ⟨rfl, rfl⟩

section
variable {unit : CUnit} {meaning : Meaning} {program : Tested methods} {tv : TestVector}

/-- The reported harness does what the program does on the values of the vector, on whatever stdin it is run. -/
theorem endings_reported (counted : tv.lines.length < 2 ^ 32) (usable : Usable meaning program tv)
    (delivered : Delivered unit meaning program tv) (stdin : Bytes) (fuel : Nat) :
    Endings (fun _ _ => True) (exec program (givenValues meaning tv.lines) fuel program.start 0)
      (exec program (reported unit tv) fuel program.start ⟨stdin, 0⟩) := by
  have sim : ∀ (method : {method // method ∈ methods}) (k : Nat) (p : Process), p.accessCounter = k →
      (UsableAt tv.lines method k ∧ DeliveredAt unit meaning tv.lines method k) →
      Answers (fun k p => p.accessCounter = k) (fun _ _ => True) (givenValues meaning tv.lines method k)
        (reported unit tv method p) :=
    fun _ _ _ count good => reported_answers counted count good.1 good.2
  exact exec_simulation sim (asks_and (usable fuel) (delivered fuel)) rfl

theorem callsError_iff_reported (counted : tv.lines.length < 2 ^ 32) (usable : Usable meaning program tv)
    (delivered : Delivered unit meaning program tv) (stdin : Bytes) :
    CallsError meaning program tv ↔ ∃ fuel, exec program (reported unit tv) fuel program.start ⟨stdin, 0⟩ = some .failed := by
  refine exists_congr fun fuel => ?_
  have alike := endings_reported counted usable delivered stdin fuel
  generalize exec program (givenValues meaning tv.lines) fuel program.start 0 = values at alike ⊢
  generalize exec program (reported unit tv) fuel program.start ⟨stdin, 0⟩ = ended at alike ⊢
  rcases values with _ | _ | _ | _ <;> rcases ended with _ | _ | _ | _ <;> simp_all [Endings]

/-- Every value of the vector is pasted into the harness, which compiles only if all of them are bodies of literals. -/
def Compiles (tv : TestVector) : Prop := ∀ line ∈ tv.lines, (literal line).isSome = true

/-- The reported harness compiles, and on this stdin it calls the error method. -/
def ReportsError (unit : CUnit) (program : Tested methods) (tv : TestVector) (stdin : Bytes) : Prop :=
  Compiles tv ∧ ∃ fuel, exec program (reported unit tv) fuel program.start ⟨stdin, 0⟩ = some .failed

/-- The test is reported with `[FALSE]` if and only if the harness that is reported with it calls the error method,
whatever its stdin is and was, where all values are bodies of literals and every value that the program takes is one
that both harnesses can take and deliver as it is meant. -/
theorem false_iff_reported {unit' : CUnit} (joinable : tv.Joinable) (fits : ErrorSearch.Fits meaning program tv)
    (harmless : Harmless unit meaning program tv) (usable : Usable meaning program tv)
    (delivered : Delivered unit meaning program tv) (delivered' : Delivered unit' meaning program tv)
    (compiles : Compiles tv) (counted : tv.lines.length < 2 ^ 32) (inherited stdin : Bytes) :
    Returns unit program tv inherited (.ok [.FALSE]) ↔ ReportsError unit' program tv stdin := by
  rw [(exact_of_harmless joinable fits harmless delivered inherited).1, callsError_iff_reported counted usable delivered' stdin]
  exact (and_iff_right compiles).symm

end

theorem sevenVector_reported : Returns bareUnit sevenProgram sevenVector [] (.ok [.FALSE]) ↔
    ReportsError bareUnit sevenProgram sevenVector (encode "8\n".toList) := by
  have fits : FitsAt sevenVector.lines ⟨ExecutionRunner.intMethod, List.mem_singleton_self _⟩ 0 :=
    fun _ => ⟨by simp, by decide⟩
  have harmless : HarmlessAt bareUnit sevenVector.lines ⟨ExecutionRunner.intMethod, List.mem_singleton_self _⟩ 0 :=
    fun _ => ⟨encode "0x07".toList, by decide, by decide, fun message rejected => by cases rejected⟩
  have usable : UsableAt sevenVector.lines ⟨ExecutionRunner.intMethod, List.mem_singleton_self _⟩ 0 := by
    intro _ line taken
    obtain rfl := Option.some.inj taken
    unfold Plain
    decide
  have delivered : Delivered bareUnit wordMeaning sevenProgram sevenVector := by
    have here : DeliveredAt bareUnit wordMeaning sevenVector.lines ⟨ExecutionRunner.intMethod, List.mem_singleton_self _⟩ 0 := by
      intro _ line taken
      obtain rfl := Option.some.inj taken
      exact (rfl : load bareUnit "int".toList (littleEndianBytes 8 7) = .ok (littleEndianBytes 4 7))
    intro fuel
    rcases fuel with _ | _ | fuel <;> trivial
  refine @false_iff_reported [ExecutionRunner.intMethod] bareUnit wordMeaning sevenProgram sevenVector bareUnit
    (by simp [TestVector.Joinable, sevenVector, TestVector.values, TestVector.new, TestVector.add])
    (fun fuel => ?_) (fun fuel => ?_) (fun fuel => ?_) delivered delivered (by unfold Compiles; decide) (by decide) [] _
  · rcases fuel with _ | _ | fuel <;> trivial
  · rcases fuel with _ | _ | fuel <;> trivial
  · rcases fuel with _ | _ | fuel <;> trivial

end Tbf.ReportedHarness
