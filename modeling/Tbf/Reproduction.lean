import Tbf.ErrorSearch
import Tbf.TestDirectory
import Tbf.Tools.Afl
import Tbf.Tools.KleeExecution
import Tbf.Tools.RandomTester

/-!
# Findings and their tests

A tool runs the program itself, and the test it writes is run once more in the harness. Where the run of the
tool has an ending, the harness comes to the same one.
-/

namespace Tbf.Reproduction
open Text InputSource CNumber Harness Interaction ErrorSearch

variable {methods : List NondetMethod}

/-! ### The program that AFL instruments -/

/-- The nondet methods that AFL's `Preprocessor` appends, over the bytes of a test file. The unit is another one: clang
declares the parsers itself. -/
def instrumented (unit : CUnit) : Oracle {method // method ∈ methods} Bytes Crash Process
  | method, p =>
    let (inpVar, next) := Harness.call Afl.methodBody method.1 p
    if method.1.isVoid then (.ok [], next)
    else match inpVar with
      | none => (.error .undefined, next)
      | some buffer => (reply unit method.1.type (cstr buffer), next)

theorem instrumented_eq (unit : CUnit) : @instrumented methods unit = harness unit := by
  funext method p
  have same := Afl.methodBody_eq
  unfold instrumented harness
  generalize Afl.methodBody = body at same ⊢
  subst same
  rfl

/-- Both units make the same of the text that the call reads. -/
def AlikeAt (unit unit' : CUnit) (method : {method // method ∈ methods}) (p : Process) : Prop :=
  method.1.isVoid = false → ∀ buffer, (fgets INP_SIZE p.stdin).1 = some buffer →
    reply unit method.1.type (cstr buffer) = reply unit' method.1.type (cstr buffer)

/-- What is left of the test file, and of the input of the harness. -/
def BehindFile (p p' : Process) : Prop := Afl.Behind p.stdin p'.stdin

theorem head_of_behind {stream longer : Bytes} (behind : Afl.Behind stream longer) (left : stream ≠ []) :
    longer.head? = stream.head? := by
  rcases behind with rfl | ⟨ended, _⟩
  · rw [List.head?_append_of_ne_nil _ left]
  · exact absurd ended left

theorem reply_behind (unit : CUnit) {type : Str} {stream longer buffer buffer' : Bytes} (behind : Afl.Behind stream longer)
    (read : (fgets INP_SIZE stream).1 = some buffer) (read' : (fgets INP_SIZE longer).1 = some buffer')
    (text : chomp (cstr buffer) = chomp (cstr buffer')) : reply unit type (cstr buffer') = reply unit type (cstr buffer) := by
  have left : stream ≠ [] := by
    rintro rfl
    cases read
  have empty := cstr_fgets_eq_nil (by decide) read
  have empty' := cstr_fgets_eq_nil (by decide) read'
  rw [head_of_behind behind left, ← empty] at empty'
  have short : ∀ {stream buffer : Bytes}, (fgets INP_SIZE stream).1 = some buffer → (cstr buffer).length ≤ 2 ^ 32 := by
    intro stream buffer read
    have room : buffer.length < INP_SIZE := length_fgets_lt (by decide) read
    have shorter : (cstr buffer).length ≤ buffer.length := (List.takeWhile_prefix _).length_le
    have size : INP_SIZE ≤ 2 ^ 32 := by decide
    omega
  by_cases none : cstr buffer = []
  · rw [none, empty'.mpr none]
  · rw [reply, reply, parseInp_chomp unit none (short read), parseInp_chomp unit (fun h => none (empty'.mp h)) (short read'),
      text]

theorem instrumented_answers {unit unit' : CUnit} {method : {method // method ∈ methods}} {p p' : Process}
    (behind : BehindFile p p') (alike : AlikeAt unit unit' method p)
    (clear : ∀ reason, (instrumented unit' method p).1 = .error reason → reason ≠ .undefined) :
    Answers BehindFile (· = ·) (instrumented unit' method p) (harness unit method p') := by
  rw [instrumented_eq] at clear ⊢
  cases value : method.1.isVoid with
  | true =>
    rw [harness_void unit value, harness_void unit' value]
    exact ⟨rfl, behind⟩
  | false =>
    obtain ⟨text, later⟩ := Afl.fgets_behind (show 1 < INP_SIZE by decide) p.stdin p'.stdin behind
    rw [harness_value unit' value] at clear ⊢
    rw [harness_value unit value]
    cases read : (fgets INP_SIZE p.stdin).1 with
    | none =>
      simp only [read] at clear
      exact absurd rfl (clear _ rfl)
    | some buffer =>
      obtain ⟨buffer', read', text⟩ := text buffer read
      simp only [read', reply_behind unit behind read read' text, alike value buffer read]
      cases reply unit' method.1.type (cstr buffer) with
      | ok written => exact ⟨rfl, later⟩
      | error crash => exact rfl

/-- Where AFL's program runs on the file, the call reads texts that both units take alike. -/
def Alike (unit unit' : CUnit) (program : Tested methods) (content : Bytes) : Prop :=
  ∀ fuel, Asks program (instrumented unit') (AlikeAt unit unit') fuel program.start ⟨content, 0⟩

theorem exec_harness_of_instrumented {unit unit' : CUnit} {program : Tested methods} {content : Bytes} {fuel : Nat}
    {ending : Ending Crash} (alike : Alike unit unit' program content)
    (ran : exec program (instrumented unit') fuel program.start ⟨content, 0⟩ = some ending) (meant : ending ≠ .cut .undefined) :
    exec program (harness unit) fuel program.start ⟨content ++ [newline], 0⟩ = some ending := by
  have clear : Asks program (instrumented unit')
      (fun method p => ∀ reason, (instrumented unit' method p).1 = .error reason → reason ≠ .undefined) fuel program.start
      ⟨content, 0⟩ :=
    asks_of_exec ran fun reason cut undefined => meant (cut.trans (congrArg _ undefined))
  have sim : ∀ (method : {method // method ∈ methods}) p p', BehindFile p p' →
      (AlikeAt unit unit' method p ∧ ∀ reason, (instrumented unit' method p).1 = .error reason → reason ≠ .undefined) →
      Answers BehindFile (· = ·) (instrumented unit' method p) (harness unit method p') :=
    fun _ _ _ behind both => instrumented_answers behind both.1 both.2
  have same := exec_simulation sim (asks_and (alike fuel) clear)
    (show BehindFile ⟨content, 0⟩ ⟨content ++ [newline], 0⟩ from Or.inl rfl)
  rw [ran] at same
  exact (eq_of_endings same).symm

theorem checkResult_stderr (returncode : Int) (output err : Bytes) :
    checkResult (executionResult returncode output err) = checkResult (executionResult 0 [] err) := by
  unfold checkResult
  rw [foundErr_executionResult, foundErr_executionResult]

/-- A run of the harness with a meaning decides the result. -/
theorem returns_of_exec {unit : CUnit} {program : Tested methods} {tv : TestVector} (joinable : tv.Joinable)
    {inherited : Bytes} {fuel : Nat} {ending : Ending Crash}
    (ran : exec program (harness unit) fuel program.start
      ⟨if tv.lines = [] then inherited else joinLines tv.lines, 0⟩ = some ending)
    {err : Bytes} (meant : errOutput ending = some err) (result : Except Raised (List Status)) :
    Returns unit program tv inherited result ↔ result = checkResult (executionResult 0 [] err) := by
  rw [returns_iff joinable]
  constructor
  · rintro ⟨fuel', ending', ran', returned⟩
    obtain rfl := exec_unique ran ran'
    obtain ⟨returncode, output, same⟩ := returned err meant
    rw [same, checkResult_stderr]
  · rintro rfl
    refine ⟨fuel, ending, ran, ?_⟩
    rintro err' meant'
    obtain rfl := Option.some.inj (meant.symm.trans meant')
    exact ⟨0, [], rfl⟩

theorem ne_undefined {ending : Ending Crash} {err : Bytes} (meant : errOutput ending = some err) :
    ending ≠ .cut .undefined := by
  rintro rfl
  cases meant

theorem returns_afl {unit unit' : CUnit} {program : Tested methods} {testCase : TestCase Bytes} {fuel : Nat}
    {ending : Ending Crash} (alike : Alike unit unit' program testCase.content)
    (ran : exec program (instrumented unit') fuel program.start ⟨testCase.content, 0⟩ = some ending)
    {err : Bytes} (meant : errOutput ending = some err) (inherited : Bytes) (result : Except Raised (List Status)) :
    Returns unit program (Afl.getTestVector testCase) inherited result ↔
      result = checkResult (executionResult 0 [] err) := by
  have nonempty : (Afl.getTestVector testCase).lines ≠ [] := by
    simpa [TestVector.lines, TestVector.values] using Afl.getTestVector_ne_nil testCase
  have stdin : (if (Afl.getTestVector testCase).lines = [] then inherited else joinLines (Afl.getTestVector testCase).lines) =
      testCase.content ++ [newline] := by
    rw [if_neg nonempty, Afl.joinLines_getTestVector]
  have repeated := exec_harness_of_instrumented alike ran (ne_undefined meant)
  rw [← stdin] at repeated
  exact returns_of_exec (Afl.getTestVector_singleTyped testCase).joinable repeated meant result

/-- A run of AFL's program on a test file that has a meaning, and reads texts that both units take alike, is repeated by
the harness on the joined vector, step by step, and the result of the test is read off what AFL's program itself wrote
to stderr. -/
theorem afl_reproduced {unit unit' : CUnit} {program : Tested methods} {testCase : TestCase Bytes} {fuel : Nat}
    {ending : Ending Crash} (alike : Alike unit unit' program testCase.content)
    (ran : exec program (instrumented unit') fuel program.start ⟨testCase.content, 0⟩ = some ending)
    {err : Bytes} (meant : errOutput ending = some err) :
    exec program (harness unit) fuel program.start ⟨joinLines (Afl.getTestVector testCase).lines, 0⟩ = some ending ∧
      ∀ inherited result, Returns unit program (Afl.getTestVector testCase) inherited result ↔
        result = checkResult (executionResult 0 [] err) := by
  refine ⟨?_, returns_afl alike ran meant⟩
  rw [Afl.joinLines_getTestVector]
  exact exec_harness_of_instrumented alike ran (ne_undefined meant)

/-- Of what clang compiles: all parsers are declared. -/
def clangUnit : CUnit := { bareUnit with declares := fun _ => true }

theorem sevenFile_failed : exec sevenProgram (instrumented clangUnit) 2 sevenProgram.start ⟨Afl.sevenFile.content, 0⟩ =
    some .failed := by decide

theorem sevenFile_alike : Alike bareUnit clangUnit sevenProgram Afl.sevenFile.content := by
  intro fuel
  have here : AlikeAt bareUnit clangUnit (⟨ExecutionRunner.intMethod, List.mem_singleton_self _⟩ :
      {method // method ∈ [ExecutionRunner.intMethod]}) ⟨Afl.sevenFile.content, 0⟩ := by
    intro _ buffer read
    obtain rfl := Option.some.inj read
    decide
  rcases fuel with _ | _ | fuel
  · trivial
  · exact ⟨here, trivial⟩
  · exact ⟨here, trivial⟩

theorem sevenFile_reproduced :
    exec sevenProgram (harness bareUnit) 2 none ⟨joinLines (Afl.getTestVector Afl.sevenFile).lines, 0⟩ = some .failed ∧
      ∀ inherited result, Returns bareUnit sevenProgram (Afl.getTestVector Afl.sevenFile) inherited result ↔
        result = checkResult (executionResult 0 [] errorOutput) :=
  afl_reproduced sevenFile_alike sevenFile_failed rfl

/-! ### Runs on recorded values -/

inductive Shortage where
  | starved
  | misfit
  deriving DecidableEq, Repr

/-- The run of a tool that has an input for each call and puts what `store` makes of it into the variable. -/
def stored {ι : Type} (store : NondetMethod → ι → Option Bytes) (inputs : List ι) :
    Oracle {method // method ∈ methods} Bytes Shortage Nat
  | method, k =>
    if method.1.isVoid then (.ok [], k)
    else match inputs[k]? with
      | none => (.error .starved, k)
      | some input => match store method.1 input with
        | some data => (.ok data, k + 1)
        | none => (.error .misfit, k)

/-- The run of a tool that stores into the variable of each call as many bytes as it has, and records them. -/
def recorded (unit : CUnit) (values : List Bytes) : Oracle {method // method ∈ methods} Bytes Shortage Nat :=
  stored (fun method value => if value.length = unit.sizeOf method.type then some value else none) values

/-- The lines of the vector are read one by one, and line `k` is converted to value `k`. -/
structure Carries (unit : CUnit) (tv : TestVector) (values : List Bytes) : Prop where
  joinable : tv.Joinable
  oneRead : ∀ line ∈ tv.lines, OneRead line
  converted : ∀ (k : Nat) (value : Bytes), values[k]? = some value → ∃ line, tv.lines[k]? = some line ∧ line.head? ≠ some 0 ∧
    ∃ written, convert unit (cstr line) = .ok written ∧ written.take value.length = value

/-- What is stored for an input is the front of the value that the vector carries for it. -/
def Fronts {ι : Type} (methods : List NondetMethod) (unit : CUnit) (store : NondetMethod → ι → Option Bytes)
    (inputs : List ι) (values : List Bytes) : Prop :=
  ∀ method ∈ methods, method.isVoid = false → ∀ (k : Nat) (input : ι), inputs[k]? = some input →
    ∀ data, store method input = some data →
      ∃ value, values[k]? = some value ∧ unit.sizeOf method.type ≤ value.length ∧ data = value.take (unit.sizeOf method.type)

section
variable {ι : Type} {unit : CUnit} {tv : TestVector} {values : List Bytes} {store : NondetMethod → ι → Option Bytes}
  {inputs : List ι}

theorem stored_answers (carries : Carries unit tv values) (fronts : Fronts methods unit store inputs values)
    {inherited : Bytes} (method : {method // method ∈ methods}) (k : Nat) (p : Process)
    (wired : Wired tv.lines inherited k p)
    (clear : ∀ reason, (stored store inputs method k).1 = .error reason → ¬ True) :
    Answers (Wired tv.lines inherited) (fun _ _ => False) (stored store inputs method k) (harness unit method p) := by
  cases value : method.1.isVoid with
  | true =>
    simp only [stored, value, if_true, harness_void unit value]
    exact ⟨rfl, wired⟩
  | false =>
    simp only [stored, value, Bool.false_eq_true, if_false] at clear ⊢
    cases given : inputs[k]? with
    | none =>
      simp only [given] at clear
      exact absurd trivial (clear _ rfl)
    | some input =>
      simp only [given] at clear ⊢
      cases put : store method.1 input with
      | none =>
        simp only [put] at clear
        exact absurd trivial (clear _ rfl)
      | some data =>
        obtain ⟨whole, carried, within, rfl⟩ := fronts method.1 method.2 value k input given data put
        obtain ⟨line, taken, noNul, written, read, same⟩ := carries.converted k whole carried
        have framed : FitsAt tv.lines method k := by
          intro _
          refine ⟨fun line member => carries.oneRead line (List.mem_of_mem_take member), fun line here => ?_⟩
          obtain ⟨oneLine, short⟩ := carries.oneRead line (List.mem_of_getElem? here)
          have shorter : (cstr line).length ≤ line.length := (List.takeWhile_prefix _).length_le
          exact ⟨oneLine, by omega⟩
        have front : written.take (unit.sizeOf method.1.type) = whole.take (unit.sizeOf method.1.type) := by
          rw [← same, List.take_take, Nat.min_eq_left within]
        have long : unit.sizeOf method.1.type ≤ written.length := by
          have length := congrArg List.length same
          rw [List.length_take] at length
          omega
        simp only [harness_line unit wired value framed taken, if_neg noNul, read, Parsed.of, received, load, if_pos long]
        exact ⟨front.symm, wired_next wired taken⟩

/-- A run on the inputs that came to its end is repeated by the harness, whose result is `[FALSE]` if and only if the
run called the error method. -/
theorem stored_reproduced (carries : Carries unit tv values) (fronts : Fronts methods unit store inputs values)
    {program : Tested methods} {fuel : Nat} {ending : Ending Shortage}
    (ran : exec program (stored store inputs) fuel program.start 0 = some ending)
    (whole : ∀ reason, ending ≠ .cut reason) (inherited : Bytes) (result : Except Raised (List Status)) :
    Returns unit program tv inherited result ↔ result = .ok [if ending = .failed then .FALSE else .UNKNOWN] := by
  have alike := exec_repeated (fun method k p => stored_answers carries fronts method k p) ran
    (fun reason cut => absurd cut (whole reason)) (wired_start tv.lines inherited)
  generalize repeated : exec program (harness unit) fuel program.start _ = ended at alike
  cases ending with
  | cut reason => exact absurd rfl (whole reason)
  | exited =>
    rcases ended with _ | _ | _ | _ <;> first | exact False.elim alike | skip
    rw [returns_of_exec carries.joinable repeated rfl, checkResult_exited]
    simp
  | failed =>
    rcases ended with _ | _ | _ | _ <;> first | exact False.elim alike | skip
    rw [returns_of_exec carries.joinable repeated rfl, checkResult_failed]
    simp

theorem recorded_reproduced (carries : Carries unit tv values) {program : Tested methods} {fuel : Nat}
    {ending : Ending Shortage} (ran : exec program (recorded unit values) fuel program.start 0 = some ending)
    (whole : ∀ reason, ending ≠ .cut reason) (inherited : Bytes) (result : Except Raised (List Status)) :
    Returns unit program tv inherited result ↔ result = .ok [if ending = .failed then .FALSE else .UNKNOWN] := by
  refine stored_reproduced carries ?_ ran whole inherited result
  intro method _ _ k value here data put
  dsimp only at put
  by_cases fits : value.length = unit.sizeOf method.type
  · rw [if_pos fits] at put
    obtain rfl := Option.some.inj put
    refine ⟨value, here, Nat.le_of_eq fits.symm, ?_⟩
    rw [← fits, List.take_length]
  · rw [if_neg fits] at put
    cases put

end

/-! ### KLEE -/

/-- The values of a test that is cut off: the last one has zeros for the high bytes that are missing. -/
def filled (n : Nat) (inputs : List (CIdentifier × Bytes)) : List Bytes :=
  List.zipWith (fun whole kept => Ktest.padded whole.2.length kept.2) inputs (Ktest.cutLast n inputs)

theorem carries_vectorOf (unit : CUnit) (name origin : Str) {inputs : List (Str × Bytes)} {values : List Bytes}
    (each : ∀ input ∈ inputs, input.2 ≠ [] ∧ input.2.length ≤ 8)
    (stored : ∀ (k : Nat) (value : Bytes), values[k]? = some value → ∃ input size, inputs[k]? = some input ∧
      value = Ktest.padded size input.2 ∧ input.2.length ≤ size ∧ size ≤ 8 ∧
        unit.Keeps size (Numeral.littleEndian input.2)) :
    Carries unit (Ktest.vectorOf name origin inputs) values := by
  have lines : (Ktest.vectorOf name origin inputs).lines = inputs.map fun input => encode (Numeral.hexText input.2) := by
    simp [Ktest.vectorOf, TestVector.lines, TestVector.values, Value.toBytes, Function.comp_def]
  refine ⟨?_, ?_, ?_⟩
  · refine TestVector.SingleTyped.joinable (Or.inl fun v member => ?_)
    simp only [Ktest.vectorOf, TestVector.values, List.map_map, List.mem_map] at member
    obtain ⟨input, _, rfl⟩ := member
    rfl
  · intro line member
    rw [lines] at member
    obtain ⟨input, present, rfl⟩ := List.mem_map.mp member
    have size := Ktest.length_encode_hexText input.2
    have small := (each input present).2
    refine ⟨fun inside => (Ktest.mem_hexText_plain inside).1 rfl, ?_⟩
    unfold INP_SIZE
    omega
  · intro k value given
    obtain ⟨input, size, here, rfl, within, cell, keeps⟩ := stored k value given
    obtain ⟨nonempty, small⟩ := each input (List.mem_of_getElem? here)
    have clean : 0 ∉ encode (Numeral.hexText input.2) := fun inside => (Ktest.mem_hexText_plain inside).2 rfl
    have converted := Ktest.convert_hexText unit nonempty small
    rw [← cstr_of_not_mem clean] at converted
    refine ⟨encode (Numeral.hexText input.2), ?_, fun first => clean (List.mem_of_head? first), _, converted, ?_⟩
    · rw [lines, List.getElem?_map, here]
      rfl
    · have length : (Ktest.padded size input.2).length = size := by
        rw [Ktest.padded, List.length_append, List.length_replicate]
        omega
      rw [length, Ktest.take_kept within cell keeps]

theorem begun_of_whole {s : Ktest.Stored} {inputs : List (CIdentifier × Bytes)} {front : Bytes}
    (holds : s.objects.map Ktest.plain = inputs.map Ktest.symbolic) (nonempty : ∀ input ∈ inputs, input.2 ≠ [])
    (begun : s.dataStart < front.length ∨ front = s.bytes) :
    s.dataStart ≤ front.length ∧ (inputs = [] ∨ s.dataStart < front.length) := by
  rcases begun with begun | rfl
  · exact ⟨Nat.le_of_lt begun, Or.inr begun⟩
  · refine ⟨Nat.sub_le _ _, ?_⟩
    rcases List.eq_nil_or_concat inputs with none | ⟨front, input, rfl⟩
    · exact Or.inl none
    · right
      have objects : s.objects ≠ [] := by
        rintro none
        simp [none] at holds
      obtain ⟨init, last, split⟩ := (List.eq_nil_or_concat s.objects).resolve_left objects
      rw [List.concat_eq_append] at split
      obtain ⟨bytes, start⟩ := Ktest.bytes_of_objects split
      have data : last.2.data = input.2 := by
        rw [split, List.concat_eq_append, List.map_append, List.map_append] at holds
        have ends := congrArg List.getLast? holds
        simp only [List.map_singleton, List.getLast?_concat, Option.some.injEq] at ends
        exact congrArg Prod.snd ends
      have filled := List.length_pos_of_ne_nil (nonempty input (by simp))
      rw [start, bytes, data]
      simp only [List.length_append]
      omega

/-- KLEE's test in its file, whole or as far as KLEE has written it: the program is run on the values that the
file has so far, and the harness comes to the ending of that run, where the numbers of the values are kept. -/
theorem klee_reproduced (unit : CUnit) (r : Ktest.TextRepr) (name origin : Str) {s : Ktest.Stored}
    {inputs : List (CIdentifier × Bytes)} {front : Bytes}
    (holds : s.objects.map Ktest.plain = inputs.map Ktest.symbolic)
    (escaped : ∀ input ∈ inputs, ∀ b ∈ input.2, ByteRepr.isEscaped b = true)
    (cell : ∀ input ∈ inputs, input.2 ≠ [] ∧ input.2.length ≤ 8) (cut : front <+: s.bytes)
    (begun : s.dataStart < front.length ∨ front = s.bytes)
    (keeps : ∀ (k : Nat) (whole kept : CIdentifier × Bytes), inputs[k]? = some whole →
      (Ktest.cutLast (front.length - s.dataStart) inputs)[k]? = some kept →
        unit.Keeps whole.2.length (Numeral.littleEndian kept.2)) :
    ∃ tv, Ktest.getTestVector r name origin (some front) = .ok tv ∧
      ∀ {program : Tested methods} {fuel : Nat} {ending : Ending Shortage},
        exec program (recorded unit (filled (front.length - s.dataStart) inputs)) fuel program.start 0 = some ending →
        (∀ reason, ending ≠ .cut reason) → ∀ inherited result,
          Returns unit program tv inherited result ↔
            result = .ok [if ending = .failed then .FALSE else .UNKNOWN] := by
  obtain ⟨long, started⟩ := begun_of_whole holds (fun input member => (cell input member).1) begun
  refine ⟨_, Ktest.getTestVector_long r name origin holds escaped cut long, ?_⟩
  have kept : ∀ (k : Nat) (input : CIdentifier × Bytes), (Ktest.cutLast (front.length - s.dataStart) inputs)[k]? = some input →
      ∃ whole, inputs[k]? = some whole ∧ input.2 ≠ [] ∧ input.2.length ≤ whole.2.length ∧ whole.2.length ≤ 8 := by
    intro k input here
    obtain ⟨whole, present, rfl | rfl⟩ := Ktest.getElem?_cutLast here
    · obtain ⟨nonempty, small⟩ := cell _ (List.mem_of_getElem? present)
      exact ⟨_, present, nonempty, Nat.le_refl _, small⟩
    · obtain ⟨nonempty, small⟩ := cell _ (List.mem_of_getElem? present)
      have begun := started.resolve_left (List.ne_nil_of_mem (List.mem_of_getElem? present))
      refine ⟨whole, present, ?_, List.length_take_le' _ _, small⟩
      simpa [List.take_eq_nil_iff, nonempty] using Nat.sub_ne_zero_of_lt begun
  intro program fuel ending ran whole inherited result
  refine recorded_reproduced (carries_vectorOf unit name origin ?_ ?_) ran whole inherited result
  · intro input member
    obtain ⟨entry, inside, rfl⟩ := List.mem_map.mp member
    obtain ⟨k, here⟩ := List.getElem?_of_mem inside
    obtain ⟨whole, _, nonempty, within, small⟩ := kept k entry here
    exact ⟨nonempty, Nat.le_trans within small⟩
  · intro k value given
    obtain ⟨input, entry, present, here, rfl⟩ := List.getElem?_zipWith_eq_some.mp given
    obtain ⟨other, there, _, within, small⟩ := kept k entry here
    obtain rfl := Option.some.inj (present.symm.trans there)
    refine ⟨(entry.1.name, entry.2), _, ?_, rfl, within, small, keeps k _ _ present here⟩
    rw [List.getElem?_map, here]
    rfl

theorem intFile_reproduced : ∃ tv, Ktest.getTestVector Ktest.quoted "test000001".toList
    "klee-tests/test000001.ktest".toList (some (Ktest.intFile.bytes.take 50)) = .ok tv ∧
      ∀ result, Returns bareUnit sevenProgram tv [] result ↔ result = .ok [.UNKNOWN] := by
  obtain ⟨tv, converted, reproduced⟩ := @klee_reproduced [ExecutionRunner.intMethod] bareUnit Ktest.quoted
    "test000001".toList "klee-tests/test000001.ktest".toList Ktest.intFile [Ktest.intInput] _ (by decide)
    Ktest.intInput_escaped (by decide) (List.take_prefix 50 _) (Or.inl (by decide)) (fun k whole kept here _ => by
      have small : whole.2.length ≤ 4 := by
        obtain rfl := List.mem_singleton.mp (List.mem_of_getElem? here)
        decide
      exact bareUnit.keeps_of_small small _)
  exact ⟨tv, converted, @reproduced sevenProgram 2 .exited (by decide) (by simp) []⟩

/-! ### PRTest -/

theorem carries_draws (unit : CUnit) (name origin : Str) {draws : List RandomTester.Draw} {values : List Str}
    (fits : ∀ d ∈ draws, d.Fits unit)
    (read : List.Forall₂ (fun (d : RandomTester.Draw) value => RandomTester.getValue d.row = .ok value) draws values) :
    Carries unit ⟨name, origin, values.map fun value => ⟨.str value, none⟩⟩ (draws.map RandomTester.Draw.newVal) := by
  have lines : TestVector.lines ⟨name, origin, values.map fun value => ⟨.str value, none⟩⟩ = values.map encode := by
    simp [TestVector.lines, TestVector.values, Value.toBytes, Function.comp_def]
  refine ⟨TestVector.SingleTyped.joinable (Or.inl ?_), ?_, ?_⟩
  · simp [TestVector.values, Value.isBytes]
  · intro line member
    rw [lines] at member
    obtain ⟨value, inside, rfl⟩ := List.mem_map.mp member
    obtain ⟨k, here, rfl⟩ := List.getElem_of_mem inside
    have inDraws : k < draws.length := read.length_eq ▸ here
    have row : RandomTester.getValue draws[k].row = .ok values[k] := read.get inDraws here
    have short := RandomTester.length_getValue row
    refine ⟨RandomTester.not_mem_encode_getValue row (by decide), ?_⟩
    unfold INP_SIZE
    omega
  · intro k value given
    rw [List.getElem?_map, Option.map_eq_some_iff] at given
    obtain ⟨d, drawn, rfl⟩ := given
    obtain ⟨inside, rfl⟩ := List.getElem?_eq_some_iff.mp drawn
    have here : k < values.length := read.length_eq ▸ inside
    obtain ⟨text, row, written, converted, stored⟩ :=
      (RandomTester.replays_iff_fits unit _).mpr (fits _ (List.getElem_mem inside))
    obtain rfl : text = values[k] := Except.ok.inj (row.symm.trans (read.get inside here))
    have clean : 0 ∉ encode values[k] := RandomTester.not_mem_encode_getValue row (by decide)
    refine ⟨encode values[k], ?_, fun first => clean (List.mem_of_head? first), written, ?_, ?_⟩
    · rw [lines, List.getElem?_map, List.getElem?_eq_getElem here]
      rfl
    · rw [cstr_of_not_mem clean, converted]
    · exact ((readAs_iff rfl).mp stored).2

theorem readable_of_fits {unit : CUnit} {draws : List RandomTester.Draw} (fits : ∀ d ∈ draws, d.Fits unit) :
    ∃ values, List.Forall₂ (fun (d : RandomTester.Draw) value => RandomTester.getValue d.row = .ok value) draws values := by
  induction draws with
  | nil => exact ⟨[], List.Forall₂.nil⟩
  | cons d draws ih =>
    obtain ⟨here, later⟩ := List.forall_mem_cons.mp fits
    obtain ⟨value, row, _⟩ := (RandomTester.replays_iff_fits unit d).mpr here
    obtain ⟨values, read⟩ := ih later
    exact ⟨value :: values, List.Forall₂.cons row read⟩

/-- A run of the random tester, whose draws fit the rows of its test file, is repeated by the harness. -/
theorem prtest_reproduced (unit : CUnit) (name origin : Str) {draws : List RandomTester.Draw}
    (fits : ∀ d ∈ draws, d.Fits unit) :
    ∃ tv, RandomTester.getTestVector ⟨name, origin, RandomTester.writeTest (draws.map RandomTester.Draw.row)⟩ = .ok tv ∧
      ∀ {program : Tested methods} {fuel : Nat} {ending : Ending Shortage},
        exec program (recorded unit (draws.map RandomTester.Draw.newVal)) fuel program.start 0 = some ending →
        (∀ reason, ending ≠ .cut reason) → ∀ inherited result,
          Returns unit program tv inherited result ↔
            result = .ok [if ending = .failed then .FALSE else .UNKNOWN] := by
  obtain ⟨values, read⟩ := readable_of_fits fits
  refine ⟨_, (RandomTester.getTestVector_writeTest name origin draws _).mpr ⟨values, read, rfl⟩, ?_⟩
  intro program fuel ending ran whole
  exact recorded_reproduced (carries_draws unit name origin fits read) ran whole

def sevenDraw : RandomTester.Draw := ⟨.of "input".toList (by decide), [0, 0, 0, 7], by decide⟩

theorem sevenDraw_fits : sevenDraw.Fits bareUnit :=
  ⟨by decide, Or.inl ⟨by decide, bareUnit.keeps_of_small (by decide) _⟩⟩

theorem sevenDraw_reproduced : ∃ tv, RandomTester.getTestVector ⟨"vector0.test".toList, "vector0.test".toList,
    RandomTester.writeTest ([sevenDraw].map RandomTester.Draw.row)⟩ = .ok tv ∧
      ∀ result, Returns bareUnit sevenProgram tv [] result ↔ result = .ok [.FALSE] := by
  obtain ⟨tv, converted, reproduced⟩ := @prtest_reproduced [ExecutionRunner.intMethod] bareUnit
    "vector0.test".toList "vector0.test".toList [sevenDraw] (by simpa using sevenDraw_fits)
  exact ⟨tv, converted, @reproduced sevenProgram 2 .failed (by decide) (by simp) []⟩

/-! ### The verdict -/

/-- What AFL's program does with the bytes of a test file. -/
def RunsTo (unit : CUnit) (program : Tested methods) (content : Bytes) (ending : Ending Crash) : Prop :=
  ∃ fuel, exec program (instrumented unit) fuel program.start ⟨content, 0⟩ = some ending

theorem afl_result {unit unit' : CUnit} {program : Tested methods} {testCase : TestCase Bytes} {ending : Ending Crash}
    (alike : Alike unit unit' program testCase.content) (ran : RunsTo unit' program testCase.content ending) (whole : ∀ reason, ending ≠ .cut reason) {inherited : Bytes}
    {result : List Status} (returned : Returns unit program (Afl.getTestVector testCase) inherited (.ok result)) :
    .FALSE ∈ result ↔ ending = .failed := by
  obtain ⟨fuel, ran⟩ := ran
  cases ending with
  | cut reason => exact absurd rfl (whole reason)
  | exited =>
    have same := (returns_afl alike ran rfl inherited _).mp returned
    rw [checkResult_exited] at same
    obtain rfl := Except.ok.inj same
    simp
  | failed =>
    have same := (returns_afl alike ran rfl inherited _).mp returned
    rw [checkResult_failed] at same
    obtain rfl := Except.ok.inj same
    simp

theorem fromFile_afl (directory : Str) (file : TestDirectory.File) : TestDirectory.afl.fromFile directory file =
    .ok (Afl.getTestVector ⟨basename (TestDirectory.path directory file), TestDirectory.path directory file, file.content⟩) :=
  rfl

/-- AFL keeps the test files on which its program neither crashes nor hangs. Processing that runs beside it and polls
its directory returns `FALSE` if and only if the program called the error method on one of them. -/
theorem afl_verdict {unit unit' : CUnit} {program : Tested methods} {config : Processing.ProcessingConfig}
    {result : TestVector → List Status} {directory : Str} {schedule : List TestDirectory.Label}
    {s : TestDirectory.State} {inherited : Bytes}
    (contract : Transition.Along (TestDirectory.step TestDirectory.afl directory config)
      (TestDirectory.Contract TestDirectory.afl directory result) TestDirectory.start schedule)
    (reached : Transition.run (TestDirectory.step TestDirectory.afl directory config) TestDirectory.start schedule = some s)
    (alike : ∀ file ∈ TestDirectory.afl.tests s.files, Alike unit unit' program file.content)
    (queue : ∀ file ∈ TestDirectory.afl.tests s.files, ∃ ending, RunsTo unit' program file.content ending ∧
      ∀ reason, ending ≠ .cut reason)
    (validated : ∀ file ∈ TestDirectory.afl.tests s.files, ∀ tv, TestDirectory.afl.fromFile directory file = .ok tv →
      Returns unit program tv inherited (.ok (result tv)))
    {v : Verdict} (returned : s.loop.point = .returned v) :
    v.verdict = .FALSE ↔ ∃ file ∈ TestDirectory.afl.tests s.files, RunsTo unit' program file.content .failed := by
  rw [(TestDirectory.follows_run contract reached).false_iff returned]
  constructor
  · rintro ⟨file, inside, tv, made, found⟩
    obtain ⟨ending, ran, whole⟩ := queue file inside
    have answer := validated file inside tv made
    obtain rfl := Except.ok.inj ((fromFile_afl directory file).symm.trans made)
    obtain rfl := (afl_result (alike file inside) ran whole answer).mp found
    exact ⟨file, inside, ran⟩
  · rintro ⟨file, inside, failed⟩
    have answer := validated file inside _ (fromFile_afl directory file)
    exact ⟨file, inside, _, fromFile_afl directory file, (afl_result (alike file inside) failed (by simp) answer).mpr rfl⟩

/-- The loop polls once, behind AFL's last test file. -/
def oneFile : List TestDirectory.Label :=
  [.write TestDirectory.firstFile, .finish true, .tau, .tau, .poll [TestDirectory.firstFile], .execute (.ok [.FALSE]), .tau]

theorem oneFile_verdict :
    ∃ s v, Transition.run (TestDirectory.step TestDirectory.afl "queue".toList ⟨false, true⟩) TestDirectory.start oneFile = some s ∧
      s.loop.point = .returned v ∧ (v.verdict = .FALSE ↔
        ∃ file ∈ TestDirectory.afl.tests s.files, RunsTo clangUnit sevenProgram file.content .failed) := by
  have finished : (Transition.run (TestDirectory.step TestDirectory.afl "queue".toList ⟨false, true⟩) TestDirectory.start
      oneFile).any (fun s => s.loop.point = .returned (Processing.decideFinalVerdict ⟨false, true⟩ s.loop.verdicts) ∧
        s.files = [TestDirectory.firstFile]) = true := by decide
  obtain ⟨s, ran, known⟩ := (Option.any_eq_true _ _).mp finished
  obtain ⟨returned, files⟩ := of_decide_eq_true known
  have only : ∀ file ∈ TestDirectory.afl.tests s.files, file = TestDirectory.firstFile := by
    intro file member
    simpa [files] using (List.mem_filter.mp member).1
  refine ⟨s, _, ran, returned, @afl_verdict _ bareUnit clangUnit sevenProgram ⟨false, true⟩ (fun _ => [.FALSE]) "queue".toList
    oneFile s [] (by decide) ran ?_ ?_ ?_ _ returned⟩
  · intro file member
    obtain rfl := only file member
    exact sevenFile_alike
  · intro file member
    obtain rfl := only file member
    exact ⟨.failed, ⟨2, sevenFile_failed⟩, by simp⟩
  · intro file member tv made
    obtain rfl := only file member
    obtain rfl := Except.ok.inj ((fromFile_afl "queue".toList TestDirectory.firstFile).symm.trans made)
    exact (returns_afl sevenFile_alike sevenFile_failed rfl [] _).mpr (checkResult_failed 0 []).symm

end Tbf.Reproduction
