import Tbf.Library.CLiteral
import Tbf.Utils

/-!
# The harness of `harness_generation.py`

A nondet method is a list of C statements; `Stmt.render` is the text `create_harness` writes for
a statement and `Stmt.exec` what the compiled statement does. `parseInp` is the value parser.
-/

namespace Tbf
open Text InputSource CNumber CLiteral

structure NondetMethod where
  name : Str
  type : Str
  params : List Str
  deriving DecidableEq, Repr

def NondetMethod.isVoid (m : NondetMethod) : Bool := m.type == "void".toList

namespace Harness

/-! ### The value parser -/

inductive NumberParser where
  | strtoull | strtoll | strtold
  deriving DecidableEq, Repr

/-- The unit of program and harness, which gcc compiles as one. The harness declares none of its number parsers; one
that the program does not declare either is called as a function that returns `int`. -/
structure CUnit where
  declares : NumberParser → Bool
  strtold : Bytes → Bytes
  sizeOf : Str → Nat

/-- What the harness is given of a 64-bit result. -/
def CUnit.result (unit : CUnit) (parser : NumberParser) (word : Nat) : Nat :=
  if unit.declares parser then word else signExtended word

/-- The first bytes of a `strtoull` result are given as they are: it is declared, or the number is one of an `int` as
far as the bytes go. -/
def CUnit.Keeps (unit : CUnit) (size word : Nat) : Prop :=
  unit.declares .strtoull = true ∨ (word + 2 ^ 31) % 256 ^ size < 2 ^ 32

/-- A program that declares none of the parsers. -/
def bareUnit : CUnit := ⟨fun _ => false, fun _ => List.replicate 16 0, fun _ => 4⟩

theorem CUnit.keeps_of_small (unit : CUnit) {size : Nat} (small : size ≤ 4) (word : Nat) : unit.Keeps size word :=
  Or.inr (Nat.lt_of_lt_of_le (Nat.mod_lt _ (Nat.pow_pos (by decide))) (Nat.pow_le_pow_right (by decide) small))

theorem CUnit.keeps_iff (unit : CUnit) {size : Nat} (cell : size ≤ 8) (word : Nat) :
    littleEndianBytes size (unit.result .strtoull word) = littleEndianBytes size word ↔ unit.Keeps size word := by
  unfold CUnit.result CUnit.Keeps
  cases declared : unit.declares .strtoull with
  | true => simp
  | false => simp [littleEndianBytes_signExtended_iff cell]

/-- What the conversions do instead of writing a number: they print a message, or they write what stands where an
undeclared `strtold` would leave an `int`. Its result is left on the x87 stack. -/
inductive Unread where
  | message (errOutput : Bytes)
  | stray
  deriving DecidableEq, Repr

inductive Parsed where
  | value (written : Bytes)
  | stray
  | abort (errOutput : Bytes)
  | undefined
  deriving DecidableEq, Repr

def Parsed.of : Except Unread Bytes → Parsed
  | .ok written => .value written
  | .error .stray => .stray
  | .error (.message errOutput) => .abort errOutput

@[simp] theorem Parsed.of_eq_value {converted : Except Unread Bytes} {written : Bytes} :
    Parsed.of converted = .value written ↔ converted = .ok written := by
  rcases converted with (_ | _) | _ <;> simp [Parsed.of]

def parseError (inp parseEnd : Bytes) : Bytes :=
  encode "Can't parse input: '".toList ++ inp ++ encode "' (failing at '".toList ++ parseEnd ++ encode "')\n".toList

/-- The conversions of `parse_inp`: the bytes written to `value_pointer`, or why they are no number. -/
def convert (unit : CUnit) (inp : Bytes) : Except Unread Bytes :=
  let (intVal, parseEnd) := strtoull inp
  if parseEnd ≠ [] then
    let (sintVal, parseEnd) := strtoll inp
    if parseEnd ≠ [] then
      let parseEnd := strtoldRest inp
      if parseEnd ≠ [] then .error (.message (parseError inp parseEnd))
      else if unit.declares .strtold then .ok (unit.strtold inp) else .error .stray
    else .ok (littleEndianBytes 8 (unit.result .strtoll sintVal))
  else .ok (littleEndianBytes 8 (unit.result .strtoull intVal))

def inputLength (inp : Bytes) : Nat := (2 ^ 32 - 1 + inp.length) % 2 ^ 32

/-- An index behind the string is no part of it, so reading there is undefined. -/
def parseInp (unit : CUnit) (inp : Bytes) : Parsed :=
  if inp.length < inputLength inp then .undefined
  else
    let inp := if inp[inputLength inp]? = some newline then inp.take (inputLength inp) else inp
    .of (convert unit inp)

/-- `*((T *) parse_inp(inp_var))` for a type of `size` bytes; `junk` is what `malloc` left behind the
bytes that were written. -/
def readAs (size : Nat) (written junk : Bytes) : Bytes := (written ++ junk).take size

theorem readAs_iff {size : Nat} {written data : Bytes} (long : data.length = size) :
    (∀ junk, size ≤ (written ++ junk).length → readAs size written junk = data) ↔
      size ≤ written.length ∧ written.take size = data := by
  constructor
  · intro all
    by_cases enough : size ≤ written.length
    · refine ⟨enough, ?_⟩
      have whole := all [] (by simpa using enough)
      rwa [readAs, List.append_nil] at whole
    · have zeros := all (List.replicate size 0) (by simp)
      have ones := all (List.replicate size 1) (by simp)
      have position : written.length < size := Nat.lt_of_not_le enough
      have differ := congrArg (fun data : Bytes => data[written.length]?) (zeros.trans ones.symm)
      simp [readAs, position] at differ
  · rintro ⟨enough, rfl⟩ junk _
    rw [readAs, List.take_append_of_le_length enough]

def errorOutput : Bytes := encode (ERROR_STRING ++ ['\n'])

/-- The parser drops one trailing newline; the empty text is read behind its end. -/
theorem parseInp_nil (unit : CUnit) : parseInp unit [] = .undefined := rfl

theorem parseInp_chomp (unit : CUnit) {inp : Bytes} (nonempty : inp ≠ []) (short : inp.length ≤ 2 ^ 32) :
    parseInp unit inp = .of (convert unit (chomp inp)) := by
  have positive := List.length_pos_of_ne_nil nonempty
  have last : inputLength inp = inp.length - 1 := by
    unfold inputLength
    omega
  have chomped : (if inp[inp.length - 1]? = some newline then inp.take (inp.length - 1) else inp) = chomp inp := by
    rw [chomp, List.getLast?_eq_getElem?, List.dropLast_eq_take]
  rw [parseInp, last, if_neg (by omega)]
  dsimp only
  rw [chomped]

/-! ### Nondet methods -/

inductive Stmt where
  | declareSize
  | mallocBuffer
  | fgetsStdin
  | switchCounter (values : List Bytes)
  | countAccess
  | returnParsed (type : Str)
  deriving DecidableEq, Repr

def INP_SIZE : Nat := 3000

def renderCase (value : Bytes) (idx : Nat) : Bytes :=
  encode ("case ".toList ++ Numeral.decimal idx ++ ": strcpy(inp_var, \"".toList) ++ value ++
    encode "\"); break;\n".toList

def Stmt.render : Stmt → Bytes
  | declareSize => encode "    unsigned int inp_size = 3000;\n".toList
  | mallocBuffer => encode "    char * inp_var = malloc(inp_size);\n".toList
  | fgetsStdin => encode "    fgets(inp_var, inp_size, stdin);\n".toList
  | switchCounter values =>
    encode "    switch(access_counter) \x7b\n".toList ++
      values.zipIdx.flatMap (fun (value, idx) => renderCase value idx) ++
      encode "        default: abort();\n    \x7d\n".toList
  | countAccess => encode "    access_counter++;\n".toList
  | returnParsed type => encode ("    return *((".toList ++ type ++ " *) parse_inp(inp_var));\n".toList)

/-- The statements that fill `inp_var`: from stdin, or from the test vector. -/
def readStatements (testVector : Option TestVector) : List Stmt :=
  match testVector with
  | none => [.declareSize, .mallocBuffer, .fgetsStdin]
  | some tv => [.declareSize, .mallocBuffer, .switchCounter tv.lines, .countAccess]

def methodBody (testVector : Option TestVector) (method : NondetMethod) : List Stmt :=
  if method.isVoid then [] else readStatements testVector ++ [.returnParsed method.type]

/-- What `_get_nondet_method_definitions` writes between the braces of a method. -/
def bodyText (testVector : Option TestVector) (method : NondetMethod) : Bytes :=
  (methodBody testVector method).flatMap Stmt.render

structure Process where
  stdin : Bytes
  accessCounter : Nat
  deriving DecidableEq, Repr

/-- One statement on the shared state and the contents of `inp_var`; `none` ends the program. A value
that is no literal body, and one that does not fit `inp_var`, leave the C program without a meaning. -/
def Stmt.exec : Stmt → Process × Option Bytes → Option (Process × Option Bytes)
  | declareSize, s => some s
  | mallocBuffer, (p, _) => some (p, none)
  | fgetsStdin, (p, inpVar) =>
    match fgets INP_SIZE p.stdin with
    | (some line, rest) => some ({ p with stdin := rest }, some line)
    | (none, rest) => some ({ p with stdin := rest }, inpVar)
  | switchCounter values, (p, _) => do
    let text ← values[p.accessCounter]?
    let value ← literal text
    if (cstr value).length < INP_SIZE then some (p, some (cstr value)) else none
  | countAccess, (p, inpVar) => some ({ p with accessCounter := (p.accessCounter + 1) % 2 ^ 32 }, inpVar)
  | returnParsed _, s => some s

def execAll (statements : List Stmt) (p : Process) : Option Bytes × Process :=
  match statements.foldlM (fun s stmt => stmt.exec s) (p, none) with
  | some (p, inpVar) => (inpVar, p)
  | none => (none, p)

/-- One call: the contents of `inp_var` when it reaches `parse_inp`, `none` where it holds no text. -/
def call (body : NondetMethod → List Stmt) (method : NondetMethod) (p : Process) : Option Bytes × Process :=
  execAll (body method) p

/-- The buffers that a sequence of calls hands to `parse_inp`; void methods hand none. -/
def handed (body : NondetMethod → List Stmt) : Process → List NondetMethod → List (Option Bytes)
  | _, [] => []
  | p, method :: rest =>
    let (inpVar, next) := call body method p
    if method.isVoid then handed body next rest else inpVar :: handed body next rest

def readInput (testVector : Option TestVector) (p : Process) : Option Bytes × Process :=
  execAll (readStatements testVector) p

theorem call_void {method : NondetMethod} (void : method.isVoid = true) (testVector : Option TestVector)
    (p : Process) : (call (methodBody testVector) method p).2 = p := by
  rw [call, methodBody, if_pos void]
  rfl

theorem call_readInput {method : NondetMethod} (value : method.isVoid = false)
    (testVector : Option TestVector) (p : Process) :
    call (methodBody testVector) method p = readInput testVector p := by
  rw [call, methodBody, if_neg (by simp [value]), readInput, execAll, execAll, List.foldlM_append]
  cases (readStatements testVector).foldlM (fun s stmt => stmt.exec s) (p, none) <;> rfl

def valueCalls (calls : List NondetMethod) : List NondetMethod := calls.filter fun method => !method.isVoid

theorem length_handed (body : NondetMethod → List Stmt) (calls : List NondetMethod) (p : Process) :
    (handed body p calls).length = (valueCalls calls).length := by
  induction calls generalizing p with
  | nil => rfl
  | cons method calls ih =>
    cases void : method.isVoid with
    | true =>
      simp only [handed, valueCalls, void, if_true, List.filter_cons, Bool.not_true, Bool.false_eq_true, if_false]
      exact ih _
    | false =>
      simp only [handed, valueCalls, void, Bool.false_eq_true, if_false, List.filter_cons, Bool.not_false,
        if_true, List.length_cons]
      exact congrArg (· + 1) (ih _)

/-- The calls to non-void methods read one input each, in order, whichever methods they are. -/
theorem handed_eq_nth (testVector : Option TestVector) (calls : List NondetMethod) (p : Process) {k : Nat}
    (made : k < (valueCalls calls).length) :
    (handed (methodBody testVector) p calls)[k]? = some (nth (readInput testVector) k p) := by
  induction calls generalizing p k with
  | nil => simp [valueCalls] at made
  | cons method calls ih =>
    cases void : method.isVoid with
    | true =>
      have same : valueCalls (method :: calls) = valueCalls calls := by simp [valueCalls, void]
      rw [same] at made
      simp only [handed, void, if_true, call_void void]
      exact ih p made
    | false =>
      have same : valueCalls (method :: calls) = method :: valueCalls calls := by simp [valueCalls, void]
      rw [same, List.length_cons] at made
      simp only [handed, void, Bool.false_eq_true, if_false, call_readInput void]
      cases k with
      | zero => rfl
      | succ k => exact ih _ (Nat.lt_of_succ_lt_succ made)

theorem readInput_stdin (p : Process) :
    readInput none p = ((fgets INP_SIZE p.stdin).1, { p with stdin := (fgets INP_SIZE p.stdin).2 }) := by
  unfold readInput execAll readStatements
  simp only [List.foldlM_cons, List.foldlM_nil, Stmt.exec, Option.bind_eq_bind, Option.bind_some]
  rcases fgets INP_SIZE p.stdin with ⟨_ | line, rest⟩ <;> rfl

theorem nth_readInput_stdin (k : Nat) (p : Process) :
    nth (readInput none) k p = nth (fgets INP_SIZE) k p.stdin := by
  have sim : Simulation (readInput none) (fgets INP_SIZE) (fun p stream => p.stdin = stream) (· = ·) := by
    rintro p _ rfl
    rw [readInput_stdin]
    exact ⟨rfl, rfl⟩
  exact nth_simulation sim rfl k

end Harness

end Tbf
