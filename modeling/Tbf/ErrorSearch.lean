import Tbf.Execution
import Tbf.Library.Interaction

/-!
# The result of a test

`ExecutionRunner.run` looks for the text of the error method in what the compiled harness writes to
stderr. A tested program is a machine that calls nondet methods; it is run once on what the values of the vector
mean, which is what the result is about, and once in the harness, which is what it is read off.
-/

namespace Tbf.ErrorSearch
open Text InputSource CNumber Harness Interaction

/-! ### The two runs -/

/-- A program under test: it calls the nondet methods in its list and receives a value of their type, as bytes;
it exits, or it calls the error method. It writes nothing to stderr. -/
abbrev Tested (methods : List NondetMethod) := Program {method // method ∈ methods} Bytes

/-- The value that a text means where a method is to return it, `none` if it means none. -/
abbrev Meaning := NondetMethod → Bytes → Option Bytes

inductive Refusal where
  | starved
  | rejected (value : Bytes)
  deriving DecidableEq, Repr

/-- Call `k` is given value `k` of the vector, if there is one and it has a meaning. -/
def givenValues {methods : List NondetMethod} (meaning : Meaning) (lines : List Bytes) :
    Oracle {method // method ∈ methods} Bytes Refusal Nat
  | method, k =>
    if method.1.isVoid then (.ok [], k)
    else match lines[k]? with
      | none => (.error .starved, k)
      | some line => match meaning method.1 line with
        | some value => (.ok value, k + 1)
        | none => (.error (.rejected line), k)

inductive Crash where
  | aborted (errOutput : Bytes)
  | undefined
  deriving DecidableEq, Repr

/-- The value of a type at the pointer that `parse_inp` returns. A type that is larger than what `parse_inp` has
written there takes in bytes that nobody wrote. -/
def load (unit : CUnit) (type : Str) (written : Bytes) : Except Crash Bytes :=
  if unit.sizeOf type ≤ written.length then .ok (written.take (unit.sizeOf type)) else .error .undefined

/-- What the method returns. The call of an undeclared `strtold` has no meaning in C. -/
def received (unit : CUnit) (type : Str) : Parsed → Except Crash Bytes
  | .value written => load unit type written
  | .abort errOutput => .error (.aborted errOutput)
  | .stray | .undefined => .error .undefined

/-- `*((T *) parse_inp(inp))`. -/
def reply (unit : CUnit) (type : Str) (inp : Bytes) : Except Crash Bytes := received unit type (parseInp unit inp)

def harness {methods : List NondetMethod} (unit : CUnit) : Oracle {method // method ∈ methods} Bytes Crash Process
  | method, p =>
    let (inpVar, next) := call (methodBody none) method.1 p
    if method.1.isVoid then (.ok [], next)
    else match inpVar with
      | none => (.error .undefined, next)
      | some buffer => (reply unit method.1.type (cstr buffer), next)

/-- What the harness has written to stderr, `none` where C gives the run no meaning. -/
def errOutput : Ending Crash → Option Bytes
  | .exited => some []
  | .failed => some errorOutput
  | .cut (.aborted message) => some message
  | .cut .undefined => none

def checkResult (runResult : ExecutionResult) : Except Raised (List Status) := do
  if ← foundErr runResult then return [.FALSE] else return [.UNKNOWN]

variable {methods : List NondetMethod}

/-- A result that `ExecutionRunner.run` can have; a run without a meaning can have any. -/
def Returns (unit : CUnit) (program : Tested methods) (tv : TestVector) (inherited : Bytes)
    (result : Except Raised (List Status)) : Prop :=
  match ExecutionRunner.stdin tv inherited with
  | .error e => result = .error e
  | .ok input => ∃ fuel ending, exec program (harness unit) fuel program.start ⟨input, 0⟩ = some ending ∧
      ∀ err, errOutput ending = some err →
        ∃ returncode output, result = checkResult (executionResult returncode output err)

/-- Given the values of the vector, the program calls the error method. -/
def CallsError (meaning : Meaning) (program : Tested methods) (tv : TestVector) : Prop :=
  ∃ fuel, exec program (givenValues meaning tv.lines) fuel program.start 0 = some .failed

/-- The result is `[FALSE]` if and only if the program calls the error method, else it is `[UNKNOWN]`. -/
def Exact (unit : CUnit) (meaning : Meaning) (program : Tested methods) (tv : TestVector) : Prop :=
  ∀ inherited, (Returns unit program tv inherited (.ok [.FALSE]) ↔ CallsError meaning program tv) ∧
    ∀ result, Returns unit program tv inherited result → result = .ok [.FALSE] ∨ result = .ok [.UNKNOWN]

/-! ### The conditions -/

def OneRead (line : Bytes) : Prop := newline ∉ line ∧ line.length + 1 < INP_SIZE

/-- No value that the program takes is cut by the buffer of the method. -/
def FitsAt (lines : List Bytes) (method : {method // method ∈ methods}) (k : Nat) : Prop :=
  method.1.isVoid = false → (∀ line ∈ lines.take k, OneRead line) ∧
    ∀ line, lines[k]? = some line → newline ∉ line ∧ (cstr line).length < INP_SIZE

/-- There is a value to take, it does not start with NUL, and it is a number or a text that does not
itself hold the text of the error method. -/
def HarmlessAt (unit : CUnit) (lines : List Bytes) (method : {method // method ∈ methods}) (k : Nat) : Prop :=
  method.1.isVoid = false → ∃ line, lines[k]? = some line ∧ line.head? ≠ some 0 ∧
    ∀ message, convert unit (cstr line) = .error (.message message) →
      ∃ text, decode (cstr line) = some text ∧ ¬ ERROR_STRING <:+: text

/-- What the conversions make of the text is what it means: the value in the bytes of the type, or nothing. -/
def DeliveredAt (unit : CUnit) (meaning : Meaning) (lines : List Bytes) (method : {method // method ∈ methods})
    (k : Nat) : Prop :=
  method.1.isVoid = false → ∀ line, lines[k]? = some line →
    match convert unit (cstr line), meaning method.1 line with
    | .ok written, some value => load unit method.1.type written = .ok value
    | .error (.message _), none => True
    | _, _ => False

def Fits (meaning : Meaning) (program : Tested methods) (tv : TestVector) : Prop :=
  ∀ fuel, Asks program (givenValues meaning tv.lines) (FitsAt tv.lines) fuel program.start 0

def Harmless (unit : CUnit) (meaning : Meaning) (program : Tested methods) (tv : TestVector) : Prop :=
  ∀ fuel, Asks program (givenValues meaning tv.lines) (HarmlessAt unit tv.lines) fuel program.start 0

def Delivered (unit : CUnit) (meaning : Meaning) (program : Tested methods) (tv : TestVector) : Prop :=
  ∀ fuel, Asks program (givenValues meaning tv.lines) (DeliveredAt unit meaning tv.lines) fuel program.start 0

/-! ### What is found on stderr -/

theorem convert_message {unit : CUnit} {inp message : Bytes} (h : convert unit inp = .error (.message message)) :
    message = parseError inp (strtoldRest inp) := by
  unfold convert at h
  dsimp only at h
  split at h
  · split at h
    · split at h
      · exact (Unread.message.inj (Except.error.inj h)).symm
      · split at h <;> cases h
    · cases h
  · cases h

theorem decode_strtoldRest {inp : Bytes} {text : Str} (decoded : decode inp = some text) :
    ∃ rest, decode (strtoldRest inp) = some rest ∧ rest <:+ text := by
  obtain ⟨front, split, ascii⟩ := scanned_strtoldRest inp
  rcases List.eq_nil_or_concat front with rfl | ⟨front, a, rfl⟩
  · rw [List.nil_append] at split
    exact ⟨text, split ▸ decoded, List.suffix_refl _⟩
  · rw [List.concat_eq_append, List.append_assoc, List.singleton_append] at split
    rw [split] at decoded
    obtain ⟨t, u, rfl, _, rest⟩ := (decode_append_ascii (ascii a (by simp))).mp decoded
    exact ⟨u, rest, ⟨t ++ [Char.ofNat a.toNat], by simp⟩⟩

theorem infix_parseError {text rest : Str} (suffix : rest <:+ text) :
    ERROR_STRING <:+: "Can't parse input: '".toList ++ text ++ "' (failing at '".toList ++ rest ++ "')\n".toList ↔
      ERROR_STRING <:+: text := by
  have noQuote : '\'' ∉ ERROR_STRING := by decide
  have message : "Can't parse input: '".toList ++ text ++ "' (failing at '".toList ++ rest ++ "')\n".toList =
      "Can".toList ++ '\'' :: ("t parse input: ".toList ++ '\'' :: (text ++ '\'' ::
        (" (failing at ".toList ++ '\'' :: (rest ++ '\'' :: ")\n".toList)))) := by
    rw [show "Can't parse input: '".toList = "Can".toList ++ '\'' :: ("t parse input: ".toList ++ ['\'']) from rfl,
      show "' (failing at '".toList = '\'' :: (" (failing at ".toList ++ ['\'']) from rfl,
      show "')\n".toList = '\'' :: ")\n".toList from rfl]
    simp only [List.append_assoc, List.cons_append, List.nil_append]
  have can : ¬ ERROR_STRING <:+: "Can".toList := by decide
  have parse : ¬ ERROR_STRING <:+: "t parse input: ".toList := by decide
  have failing : ¬ ERROR_STRING <:+: " (failing at ".toList := by decide
  have close : ¬ ERROR_STRING <:+: ")\n".toList := by decide
  rw [message]
  simp only [infix_append_cons noQuote, can, parse, failing, close, false_or, or_false]
  constructor
  · intro found
    rcases found with inText | inRest
    · exact inText
    · exact inRest.trans suffix.isInfix
  · exact Or.inl

theorem foundErr_parseError (inp : Bytes) (returncode : Int) (output : Bytes) :
    foundErr (executionResult returncode output (parseError inp (strtoldRest inp))) =
      match decode inp with
      | some text => .ok (decide (ERROR_STRING <:+: text))
      | none => .error .unicodeDecodeError := by
  rw [foundErr_executionResult]
  cases decoded : decode inp with
  | some text =>
    obtain ⟨rest, decodedRest, suffix⟩ := decode_strtoldRest decoded
    have message : decode (parseError inp (strtoldRest inp)) =
        some ("Can't parse input: '".toList ++ text ++ "' (failing at '".toList ++ rest ++ "')\n".toList) := by
      rw [decode_eq_some] at decoded decodedRest ⊢
      simp only [encode_append, decoded, decodedRest, parseError]
    simp only [message, infix_parseError suffix]
  | none =>
    have undecodable : decode (parseError inp (strtoldRest inp)) = none := by
      cases message : decode (parseError inp (strtoldRest inp)) with
      | none => rfl
      | some text =>
        have split : parseError inp (strtoldRest inp) =
            (encode "Can't parse input: ".toList ++ 39 :: inp) ++ 39 ::
              (encode " (failing at '".toList ++ strtoldRest inp ++ encode "')\n".toList) := by
          rw [parseError, show encode "Can't parse input: '".toList = encode "Can't parse input: ".toList ++ [39] from rfl,
            show encode "' (failing at '".toList = 39 :: encode " (failing at '".toList from rfl]
          simp only [List.append_assoc, List.cons_append, List.nil_append]
        rw [split] at message
        obtain ⟨front, _, _, decodedFront, _⟩ := (decode_append_ascii (by decide)).mp message
        obtain ⟨_, value, _, _, decodedValue⟩ := (decode_append_ascii (by decide)).mp decodedFront
        rw [decoded] at decodedValue
        cases decodedValue
    simp only [undecodable]

theorem checkResult_exited (returncode : Int) (output : Bytes) :
    checkResult (executionResult returncode output []) = .ok [.UNKNOWN] := by
  have decoded : decode [] = some [] := decode_eq_some.mpr rfl
  unfold checkResult
  rw [foundErr_executionResult, decoded]
  rfl

theorem checkResult_failed (returncode : Int) (output : Bytes) :
    checkResult (executionResult returncode output errorOutput) = .ok [.FALSE] := by
  have decoded : decode errorOutput = some (ERROR_STRING ++ ['\n']) := decode_eq_some.mpr rfl
  have found : ERROR_STRING <:+: ERROR_STRING ++ ['\n'] := List.infix_append' [] _ _
  unfold checkResult
  rw [foundErr_executionResult, decoded]
  simp only [decide_eq_true found]
  rfl

theorem checkResult_parseError (inp : Bytes) (returncode : Int) (output : Bytes) :
    checkResult (executionResult returncode output (parseError inp (strtoldRest inp))) =
      match decode inp with
      | some text => if ERROR_STRING <:+: text then .ok [.FALSE] else .ok [.UNKNOWN]
      | none => .error .unicodeDecodeError := by
  unfold checkResult
  rw [foundErr_parseError]
  cases decode inp with
  | none => rfl
  | some text =>
    by_cases found : ERROR_STRING <:+: text
    · simp [found, bind, Except.bind, pure, Except.pure]
    · simp [found, bind, Except.bind, pure, Except.pure]

/-! ### One call -/

/-- Before call `k` the rest of stdin is the rest of the lines, if all of them before fitted. -/
def Wired (lines : List Bytes) (inherited : Bytes) (k : Nat) (p : Process) : Prop :=
  (∀ line ∈ lines.take k, OneRead line) →
    p.stdin = if lines = [] then inherited else joinLines (lines.drop k)

theorem wired_next {lines : List Bytes} {inherited : Bytes} {k : Nat} {p : Process}
    (wired : Wired lines inherited k p) {line : Bytes} (value : lines[k]? = some line) :
    Wired lines inherited (k + 1) { p with stdin := (fgets INP_SIZE p.stdin).2 } := by
  intro fits
  obtain ⟨inside, here⟩ := List.getElem?_eq_some_iff.mp value
  have nonempty : lines ≠ [] := List.ne_nil_of_mem (List.mem_of_getElem? value)
  have before : ∀ line ∈ lines.take k, OneRead line :=
    fun line member => fits line ((List.take_sublist_take_left (Nat.le_succ k)).subset member)
  have read : OneRead line := by
    refine fits line ?_
    rw [List.take_add_one, value]
    simp
  have stdin := wired before
  rw [if_neg nonempty, List.drop_eq_getElem_cons inside, here, joinLines_cons] at stdin
  simp only [stdin, if_neg nonempty]
  rw [fgets_line read.1 read.2]

theorem harness_void (unit : CUnit) {method : {method // method ∈ methods}} (void : method.1.isVoid = true)
    (p : Process) : harness unit method p = (.ok [], p) := by
  unfold harness
  simp only [void, if_true, call_void void]

theorem harness_value (unit : CUnit) {method : {method // method ∈ methods}} (value : method.1.isVoid = false)
    (p : Process) : harness unit method p =
      match (fgets INP_SIZE p.stdin).1 with
      | none => (.error .undefined, { p with stdin := (fgets INP_SIZE p.stdin).2 })
      | some buffer => (reply unit method.1.type (cstr buffer), { p with stdin := (fgets INP_SIZE p.stdin).2 }) := by
  unfold harness
  simp only [value, Bool.false_eq_true, if_false, call_readInput value, readInput_stdin]

theorem harness_line (unit : CUnit) {lines : List Bytes} {inherited : Bytes} {k : Nat} {p : Process}
    (wired : Wired lines inherited k p) {method : {method // method ∈ methods}}
    (value : method.1.isVoid = false) (fits : FitsAt lines method k) {line : Bytes} (taken : lines[k]? = some line) :
    harness unit method p =
      (if line.head? = some 0 then .error .undefined else received unit method.1.type (.of (convert unit (cstr line))),
        { p with stdin := (fgets INP_SIZE p.stdin).2 }) := by
  obtain ⟨inside, here⟩ := List.getElem?_eq_some_iff.mp taken
  obtain ⟨framed, copied⟩ := fits value
  have stdin := wired framed
  rw [if_neg (List.ne_nil_of_mem (List.mem_of_getElem? taken)), List.drop_eq_getElem_cons inside, here,
    joinLines_cons] at stdin
  obtain ⟨oneLine, short⟩ := copied line taken
  obtain ⟨read, found, text⟩ := fgets_cstr oneLine short (joinLines (lines.drop (k + 1)))
  have ends := cstr_fgets_eq_nil (by decide) found
  have head : (line ++ newline :: joinLines (lines.drop (k + 1))).head? = some 0 ↔ line.head? = some 0 := by
    cases line with
    | nil => simp [newline]
    | cons b line => rfl
  rw [← stdin] at found
  have room : read.length < INP_SIZE := length_fgets_lt (by decide) found
  rw [harness_value unit value, found]
  dsimp only
  generalize (fgets INP_SIZE p.stdin).2 = after
  by_cases nul : line.head? = some 0
  · rw [if_pos nul, ends.mpr (head.mpr nul), reply, parseInp_nil]
    rfl
  · have nonempty : cstr read ≠ [] := fun empty => nul (head.mp (ends.mp empty))
    have short : (cstr read).length ≤ 2 ^ 32 := by
      have shorter : (cstr read).length ≤ read.length := (List.takeWhile_prefix _).length_le
      have size : INP_SIZE ≤ 2 ^ 32 := by decide
      omega
    rw [if_neg nul, reply, parseInp_chomp unit nonempty short, text]

def Quiet (_ : Refusal) (crash : Crash) : Prop :=
  ∃ message, crash = .aborted message ∧
    ∀ returncode output, checkResult (executionResult returncode output message) = .ok [.UNKNOWN]

theorem harness_answers {unit : CUnit} {meaning : Meaning} {lines : List Bytes} {inherited : Bytes}
    {method : {method // method ∈ methods}} {k : Nat} {p : Process}
    (wired : Wired lines inherited k p) (fits : FitsAt lines method k) (harmless : HarmlessAt unit lines method k)
    (delivered : DeliveredAt unit meaning lines method k) :
    Answers (Wired lines inherited) Quiet (givenValues meaning lines method k) (harness unit method p) := by
  cases value : method.1.isVoid with
  | true =>
    simp only [givenValues, value, if_true, harness_void unit value]
    exact ⟨rfl, wired⟩
  | false =>
    obtain ⟨line, taken, noNul, quiet⟩ := harmless value
    have same := delivered value line taken
    simp only [givenValues, value, Bool.false_eq_true, if_false, taken,
      harness_line unit wired value fits taken, if_neg noNul]
    rcases converted : convert unit (cstr line) with (message | _) | written
    · cases meant : meaning method.1 line with
      | some value => simp [converted, meant] at same
      | none =>
        obtain ⟨text, decoded, absent⟩ := quiet message converted
        refine ⟨message, rfl, fun returncode output => ?_⟩
        rw [convert_message converted, checkResult_parseError, decoded]
        simp only [if_neg absent]
    · simp [converted] at same
    · cases meant : meaning method.1 line with
      | none => simp [converted, meant] at same
      | some value =>
        simp only [converted, meant] at same
        simp only [Parsed.of, received, same]
        exact ⟨rfl, wired_next wired taken⟩

/-- How a call that meets no harmless value ends the harness, beside what the vector answers. -/
def Harm (answer : Except Refusal Bytes) (crash : Crash) : Prop :=
  crash = .undefined ∨ ∃ value, answer = .error (.rejected value) ∧ ∃ message, crash = .aborted message ∧
    ∀ returncode output, checkResult (executionResult returncode output message) ≠ .ok [.UNKNOWN]

theorem harness_harm {unit : CUnit} {meaning : Meaning} {lines : List Bytes} {method : {method // method ∈ methods}}
    {k : Nat} {p : Process} (wired : Wired lines [] k p) (fits : FitsAt lines method k)
    (delivered : DeliveredAt unit meaning lines method k) (harmful : ¬ HarmlessAt unit lines method k) :
    ∃ crash, (harness unit method p).1 = .error crash ∧ Harm (givenValues meaning lines method k).1 crash := by
  unfold HarmlessAt at harmful
  obtain ⟨value, harmful⟩ := Classical.not_imp.mp harmful
  cases taken : lines[k]? with
  | none =>
    have ended : p.stdin = [] := by
      rw [wired (fits value).1, List.drop_eq_nil_of_le (List.getElem?_eq_none_iff.mp taken)]
      simp [joinLines]
    refine ⟨.undefined, ?_, Or.inl rfl⟩
    rw [harness_value unit value, ended]
    rfl
  | some line =>
    rw [harness_line unit wired value fits taken]
    by_cases nul : line.head? = some 0
    · exact ⟨.undefined, by rw [if_pos nul], Or.inl rfl⟩
    · rw [if_neg nul]
      have same := delivered value line taken
      rcases converted : convert unit (cstr line) with (message | _) | written
      · refine ⟨.aborted message, rfl, Or.inr ⟨line, ?_, message, rfl, fun returncode output => ?_⟩⟩
        · cases meant : meaning method.1 line with
          | some value => simp [converted, meant] at same
          | none => simp [givenValues, value, taken, meant]
        · rw [convert_message converted, checkResult_parseError]
          cases decoded : decode (cstr line) with
          | none => simp
          | some text =>
            by_cases found : ERROR_STRING <:+: text
            · simp [found]
            · exact absurd ⟨line, taken, nul, fun _ _ => ⟨text, decoded, found⟩⟩ harmful
      · simp [converted] at same
      · exact absurd ⟨line, taken, nul, by simp [converted]⟩ harmful

/-- A look at an answer by which the harness gives itself away: it has no meaning, or it does not call the error method
where the program does, or it does where the program does not. -/
def Missed (answer : Except Refusal Bytes) (reply : Except Crash Bytes) : Prop :=
  reply = .error .undefined ∨ ∃ test,
    (told test answer = .failed ∧ ∃ err, errOutput (told test reply) = some err ∧
      ∀ returncode output, checkResult (executionResult returncode output err) = .ok [.UNKNOWN]) ∨
    (told test answer ≠ .failed ∧ told test reply = .failed)

theorem harness_missed {unit : CUnit} {meaning : Meaning} {lines : List Bytes} {method : {method // method ∈ methods}}
    {k : Nat} {p : Process} {inherited : Bytes} (wired : Wired lines inherited k p) (fits : FitsAt lines method k)
    (harmless : HarmlessAt unit lines method k) (other : ¬ DeliveredAt unit meaning lines method k) :
    Missed (givenValues meaning lines method k).1 (harness unit method p).1 := by
  unfold DeliveredAt at other
  obtain ⟨value, other⟩ := Classical.not_imp.mp other
  obtain ⟨line, taken, noNul, quiet⟩ := harmless value
  rw [harness_line unit wired value fits taken, if_neg noNul]
  have given : givenValues meaning lines method k = match meaning method.1 line with
      | some value => (.ok value, k + 1)
      | none => (.error (.rejected line), k) := by
    simp only [givenValues, value, Bool.false_eq_true, if_false, taken]
  simp only [taken, Option.some.injEq, forall_eq'] at other
  rw [given]
  rcases converted : convert unit (cstr line) with (message | _) | written
  · obtain ⟨text, decoded, absent⟩ := quiet message converted
    cases meant : meaning method.1 line with
    | none => simp [converted, meant] at other
    | some value =>
      refine Or.inr ⟨fun _ => true, Or.inl ⟨by simp [told], message, rfl, fun returncode output => ?_⟩⟩
      rw [convert_message converted, checkResult_parseError, decoded]
      simp only [if_neg absent]
  · exact Or.inl rfl
  · simp only [Parsed.of, received]
    rcases loaded : load unit method.1.type written with crash | data
    · left
      unfold load at loaded
      split at loaded
      · cases loaded
      · exact loaded.symm
    · right
      cases meant : meaning method.1 line with
      | none => exact ⟨fun _ => true, Or.inr ⟨by simp [told], by simp [told]⟩⟩
      | some value =>
        have differs : data ≠ value := by
          rintro rfl
          simp [converted, meant, loaded] at other
        refine ⟨(· == value), Or.inl ⟨by simp [told], [], ?_, fun returncode output => checkResult_exited returncode output⟩⟩
        simp [told, differs, errOutput]

/-! ### The result -/

theorem returns_iff {unit : CUnit} {program : Tested methods} {tv : TestVector} (joinable : tv.Joinable)
    {inherited : Bytes} {result : Except Raised (List Status)} :
    Returns unit program tv inherited result ↔
      ∃ fuel ending, exec program (harness unit) fuel program.start
          ⟨if tv.lines = [] then inherited else joinLines tv.lines, 0⟩ = some ending ∧
        ∀ err, errOutput ending = some err →
          ∃ returncode output, result = checkResult (executionResult returncode output err) := by
  have empty : tv.lines = [] ↔ tv.vector = [] := by simp [TestVector.lines, TestVector.values]
  unfold Returns
  rw [ExecutionRunner.stdin_ok joinable]
  simp only [empty]

section
variable {unit : CUnit} {meaning : Meaning} {program : Tested methods} {tv : TestVector}

theorem wired_start (lines : List Bytes) (inherited : Bytes) :
    Wired lines inherited 0 ⟨if lines = [] then inherited else joinLines lines, 0⟩ :=
  fun _ => rfl

/-- A program that takes fitting, harmless values as they are meant ends alike in both runs. -/
theorem endings_of_harmless (fits : Fits meaning program tv) (harmless : Harmless unit meaning program tv)
    (delivered : Delivered unit meaning program tv) (inherited : Bytes) (fuel : Nat) :
    Endings Quiet (exec program (givenValues meaning tv.lines) fuel program.start 0)
      (exec program (harness unit) fuel program.start
        ⟨if tv.lines = [] then inherited else joinLines tv.lines, 0⟩) := by
  have sim : ∀ (method : {method // method ∈ methods}) k p, Wired tv.lines inherited k p →
      ((FitsAt tv.lines method k ∧ HarmlessAt unit tv.lines method k) ∧ DeliveredAt unit meaning tv.lines method k) →
      Answers (Wired tv.lines inherited) Quiet (givenValues meaning tv.lines method k) (harness unit method p) :=
    fun _ _ _ wired good => harness_answers wired good.1.1 good.1.2 good.2
  exact exec_simulation sim (asks_and (asks_and (fits fuel) (harmless fuel)) (delivered fuel)) (wired_start _ _)

/-- What a run of the harness returns, next to the ending of the run on the values. -/
theorem result_of_harmless (fits : Fits meaning program tv) (harmless : Harmless unit meaning program tv)
    (delivered : Delivered unit meaning program tv) {inherited : Bytes} {fuel : Nat} {ending : Ending Crash}
    {result : Except Raised (List Status)}
    (ended : exec program (harness unit) fuel program.start
      ⟨if tv.lines = [] then inherited else joinLines tv.lines, 0⟩ = some ending)
    (returned : ∀ err, errOutput ending = some err →
      ∃ returncode output, result = checkResult (executionResult returncode output err)) :
    (result = .ok [.FALSE] ∧ CallsError meaning program tv) ∨ result = .ok [.UNKNOWN] := by
  have alike := endings_of_harmless fits harmless delivered inherited fuel
  rw [ended] at alike
  cases ending with
  | exited =>
    obtain ⟨returncode, output, rfl⟩ := returned [] rfl
    exact Or.inr (checkResult_exited returncode output)
  | failed =>
    obtain ⟨returncode, output, rfl⟩ := returned errorOutput rfl
    refine Or.inl ⟨checkResult_failed returncode output, fuel, ?_⟩
    generalize exec program (givenValues meaning tv.lines) fuel program.start 0 = values at alike ⊢
    rcases values with _ | _ | _ | _
    · exact False.elim alike
    · exact False.elim alike
    · rfl
    · exact False.elim alike
  | cut crash =>
    generalize exec program (givenValues meaning tv.lines) fuel program.start 0 = values at alike
    rcases values with _ | _ | _ | refusal
    · exact False.elim alike
    · exact False.elim alike
    · exact False.elim alike
    · obtain ⟨message, rfl, quiet⟩ := alike
      obtain ⟨returncode, output, rfl⟩ := returned message rfl
      exact Or.inr (quiet returncode output)

theorem exact_of_harmless (joinable : tv.Joinable) (fits : Fits meaning program tv)
    (harmless : Harmless unit meaning program tv) (delivered : Delivered unit meaning program tv) :
    Exact unit meaning program tv := by
  intro inherited
  simp only [returns_iff joinable]
  refine ⟨⟨?_, ?_⟩, ?_⟩
  · rintro ⟨fuel, ending, ended, returned⟩
    rcases result_of_harmless fits harmless delivered ended returned with ⟨_, calls⟩ | other
    · exact calls
    · cases other
  · rintro ⟨fuel, failed⟩
    have alike := endings_of_harmless fits harmless delivered inherited fuel
    rw [failed] at alike
    generalize ended : exec program (harness unit) fuel program.start _ = ending at alike
    rcases ending with _ | _ | _ | _
    · exact False.elim alike
    · exact False.elim alike
    · refine ⟨fuel, .failed, ended, ?_⟩
      rintro err same
      obtain rfl := Option.some.inj same
      exact ⟨1, [], (checkResult_failed 1 []).symm⟩
    · exact False.elim alike
  · rintro result ⟨fuel, ending, ended, returned⟩
    rcases result_of_harmless fits harmless delivered ended returned with ⟨same, _⟩ | same
    · exact Or.inl same
    · exact Or.inr same

theorem harmless_of_exact (joinable : tv.Joinable) (fits : Fits meaning program tv)
    (delivered : Delivered unit meaning program tv) (exact : Exact unit meaning program tv) :
    Harmless unit meaning program tv := by
  intro fuel
  by_contra harmful
  obtain ⟨false_iff, known⟩ := exact []
  simp only [returns_iff joinable] at false_iff known
  have sim : ∀ (method : {method // method ∈ methods}) k p, Wired tv.lines [] k p →
      (FitsAt tv.lines method k ∧ DeliveredAt unit meaning tv.lines method k) → HarmlessAt unit tv.lines method k →
      Answers (Wired tv.lines []) Quiet (givenValues meaning tv.lines method k) (harness unit method p) :=
    fun _ _ _ wired good harmless => harness_answers wired good.1 harmless good.2
  have broken : ∀ (method : {method // method ∈ methods}) k p, Wired tv.lines [] k p →
      (FitsAt tv.lines method k ∧ DeliveredAt unit meaning tv.lines method k) → ¬ HarmlessAt unit tv.lines method k →
      ∃ crash, (harness unit method p).1 = .error crash ∧ Harm (givenValues meaning tv.lines method k).1 crash :=
    fun _ _ _ wired good => harness_harm wired good.1 good.2
  obtain ⟨answer, crash, ended, harm, cut⟩ :=
    exec_bad sim broken (asks_and (fits fuel) (delivered fuel)) harmful (wired_start _ _)
  rcases harm with rfl | ⟨value, rfl, message, rfl, loud⟩
  · have any := known (.error .other) ⟨fuel, _, ended, fun _ none => by cases none⟩
    rcases any with same | same <;> cases same
  · have returned : ∀ err, errOutput (.cut (.aborted message)) = some err → ∃ returncode output,
        checkResult (executionResult 0 [] message) = checkResult (executionResult returncode output err) := by
      rintro err same
      exact ⟨0, [], by rw [Option.some.inj same]⟩
    rcases known _ ⟨fuel, _, ended, returned⟩ with same | same
    · obtain ⟨fuel', failed⟩ := false_iff.mp ⟨fuel, _, ended, same ▸ returned⟩
      have unique := exec_unique (cut _ rfl) failed
      cases unique
    · exact loud 0 [] same

theorem joinable_of_exact (exact : Exact unit meaning program tv) : tv.Joinable := by
  by_contra mixed
  have returned : Returns unit program tv [] (.error .typeError) := by
    unfold Returns
    rw [ExecutionRunner.stdin_error mixed]
  rcases (exact []).2 _ returned with same | same <;> cases same

/-- A run that tells an answer from a missed reply has no exact result. -/
theorem not_exact_of_missed (joinable : tv.Joinable) {answer : Except Refusal Bytes} {reply : Except Crash Bytes}
    (missed : Missed answer reply) :
    ∃ test, ∀ {other : Tested methods} {fuel : Nat},
      exec other (givenValues meaning tv.lines) fuel other.start 0 = some (told test answer) →
      exec other (harness unit) fuel other.start ⟨if tv.lines = [] then [] else joinLines tv.lines, 0⟩ =
        some (told test reply) → ¬ Exact unit meaning other tv := by
  rcases missed with rfl | ⟨test, ⟨failed, err, heard, quiet⟩ | ⟨passed, failed⟩⟩
  · refine ⟨fun _ => true, fun {other fuel} _ second exact => ?_⟩
    obtain ⟨-, known⟩ := exact []
    simp only [returns_iff joinable] at known
    have any := known (.error .other) ⟨fuel, _, second, fun _ none => by cases none⟩
    rcases any with same | same <;> cases same
  · refine ⟨test, fun {other fuel} first second exact => ?_⟩
    obtain ⟨false_iff, -⟩ := exact []
    simp only [returns_iff joinable] at false_iff
    obtain ⟨fuel', ending, ended, returned⟩ := false_iff.mpr ⟨fuel, failed ▸ first⟩
    obtain rfl := exec_unique second ended
    obtain ⟨returncode, output, same⟩ := returned err heard
    rw [quiet] at same
    cases same
  · refine ⟨test, fun {other fuel} first second exact => ?_⟩
    obtain ⟨false_iff, -⟩ := exact []
    simp only [returns_iff joinable] at false_iff
    have found : ∀ err, errOutput (told test reply) = some err → ∃ returncode output,
        (.ok [.FALSE] : Except Raised (List Status)) = checkResult (executionResult returncode output err) := by
      rw [failed]
      rintro err same
      obtain rfl := Option.some.inj same
      exact ⟨1, [], (checkResult_failed 1 []).symm⟩
    obtain ⟨fuel', calls⟩ := false_iff.mp ⟨fuel, _, second, found⟩
    exact passed (exec_unique first calls)

/-- If a program takes a value that is delivered as another, then some program that makes the same calls up to there
has a wrong result. -/
theorem delivered_of_exact (joinable : tv.Joinable) (fits : Fits meaning program tv)
    (harmless : Harmless unit meaning program tv)
    (exact : ∀ other : Tested methods, Fits meaning other tv → Harmless unit meaning other tv → Exact unit meaning other tv) :
    Delivered unit meaning program tv := by
  intro fuel
  by_contra wrong
  have sim : ∀ (method : {method // method ∈ methods}) k p, Wired tv.lines [] k p →
      (FitsAt tv.lines method k ∧ HarmlessAt unit tv.lines method k) → DeliveredAt unit meaning tv.lines method k →
      Answers (Wired tv.lines []) Quiet (givenValues meaning tv.lines method k) (harness unit method p) :=
    fun _ _ _ wired good delivered => harness_answers wired good.1 good.2 delivered
  obtain ⟨n, method, k, p, wired, good, bad, looked⟩ :=
    watch_bad sim (fun fuel => asks_and (fits fuel) (harmless fuel)) wrong (wired_start _ _)
  obtain ⟨test, notExact⟩ := @not_exact_of_missed _ unit meaning tv joinable _ _ (harness_missed wired good.1 good.2 bad)
  obtain ⟨asked, fuel', first, second⟩ := looked n test
  refine notExact first second (exact (program.watch n test) (fun fuel => ?_) fun fuel => ?_)
  · exact asks_mono (fun _ _ both => both.1) (asked fuel)
  · exact asks_mono (fun _ _ both => both.2) (asked fuel)

end

/-- The result is exact for a vector that can be joined and whose values, as far as the program takes them, fit the
buffer, are harmless and are delivered as they are meant. Of the programs that take fitting values as they are meant,
it is exact for no others. And where it is exact for all programs that take fitting, harmless values, these take them
as they are meant. Behind a value that does not fit, calls read what the value before left over. -/
theorem exact_iff_delivered (unit : CUnit) (meaning : Meaning) (tv : TestVector) :
    (∀ program : Tested methods, tv.Joinable ∧ Fits meaning program tv ∧ Harmless unit meaning program tv ∧
        Delivered unit meaning program tv → Exact unit meaning program tv) ∧
      (∀ program : Tested methods, Fits meaning program tv → Delivered unit meaning program tv →
        Exact unit meaning program tv → tv.Joinable ∧ Harmless unit meaning program tv) ∧
      ((∀ program : Tested methods, Fits meaning program tv → Harmless unit meaning program tv →
          Exact unit meaning program tv) →
        ∀ program : Tested methods, Fits meaning program tv → Harmless unit meaning program tv →
          Delivered unit meaning program tv) := by
  refine ⟨?_, ?_, ?_⟩
  · rintro program ⟨joinable, fits, harmless, delivered⟩
    exact exact_of_harmless joinable fits harmless delivered
  · intro program fits delivered exact
    have joinable := joinable_of_exact exact
    exact ⟨joinable, harmless_of_exact joinable fits delivered exact⟩
  · intro exact program fits harmless
    exact delivered_of_exact (joinable_of_exact (exact program fits harmless)) fits harmless exact

/-- `if (input() == 7) error();` -/
def sevenProgram : Tested [ExecutionRunner.intMethod] where
  State := Option Bool
  start := none
  next
    | none => .ask ⟨ExecutionRunner.intMethod, List.mem_singleton_self _⟩ fun value =>
        some (value == littleEndianBytes 4 7)
    | some true => .fail
    | some false => .exit

/-- The integers, of four bytes. -/
def wordMeaning : Meaning := fun _ text =>
  if (strtoull text).2 = [] then some (littleEndianBytes 4 (strtoull text).1) else none

def sevenVector : TestVector :=
  (TestVector.new "vector0.test".toList "vector0.test".toList).add (.str "0x07".toList) none

theorem sevenProgram_exact : Exact bareUnit wordMeaning sevenProgram sevenVector := by
  refine (exact_iff_delivered bareUnit wordMeaning sevenVector).1 sevenProgram ⟨by simp [TestVector.Joinable, sevenVector,
    TestVector.values, TestVector.new, TestVector.add], fun fuel => ?_, fun fuel => ?_, fun fuel => ?_⟩
  · have fits : FitsAt sevenVector.lines ⟨ExecutionRunner.intMethod, List.mem_singleton_self _⟩ 0 :=
      fun _ => ⟨by simp, by decide⟩
    rcases fuel with _ | _ | fuel
    · trivial
    · exact ⟨fits, trivial⟩
    · exact ⟨fits, trivial⟩
  · have line : HarmlessAt bareUnit sevenVector.lines ⟨ExecutionRunner.intMethod, List.mem_singleton_self _⟩ 0 := by
      intro _
      exact ⟨encode "0x07".toList, by decide, by decide, fun message rejected => by cases rejected⟩
    rcases fuel with _ | _ | fuel
    · trivial
    · exact ⟨line, trivial⟩
    · exact ⟨line, trivial⟩
  · have line : DeliveredAt bareUnit wordMeaning sevenVector.lines ⟨ExecutionRunner.intMethod, List.mem_singleton_self _⟩ 0 := by
      intro _ line taken
      obtain rfl := Option.some.inj taken
      exact (rfl : load bareUnit "int".toList (littleEndianBytes 8 7) = .ok (littleEndianBytes 4 7))
    rcases fuel with _ | _ | fuel
    · trivial
    · exact ⟨line, trivial⟩
    · exact ⟨line, trivial⟩

def errorTextVector : TestVector :=
  (TestVector.new "id:000000".toList "id:000000".toList).add (.bytes (encode ERROR_STRING)) none

/-- The value is no number, and the message that says so reads like the error method. -/
theorem errorTextVector_not_exact : ¬ Exact bareUnit wordMeaning sevenProgram errorTextVector := by
  intro exact
  have joinable : errorTextVector.Joinable := by
    simp [TestVector.Joinable, errorTextVector, TestVector.values, TestVector.new, TestVector.add]
  have rejected : exec sevenProgram (givenValues wordMeaning errorTextVector.lines) 1 none 0 =
      some (.cut (.rejected (encode ERROR_STRING))) := by decide
  have aborted : exec sevenProgram (harness bareUnit) 1 none ⟨encode ERROR_STRING ++ [newline], 0⟩ =
      some (.cut (.aborted (parseError (encode ERROR_STRING) (strtoldRest (encode ERROR_STRING))))) := by decide
  have false_positive : Returns bareUnit sevenProgram errorTextVector [] (.ok [.FALSE]) := by
    refine (returns_iff joinable).mpr ⟨1, _, aborted, ?_⟩
    rintro err same
    obtain rfl := Option.some.inj same
    refine ⟨134, [], ?_⟩
    rw [checkResult_parseError, decode_encode]
    simp
  obtain ⟨fuel, failed⟩ := (exact []).1.mp false_positive
  have unique := exec_unique rejected failed
  cases unique

end Tbf.ErrorSearch
