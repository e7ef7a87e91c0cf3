import Mathlib.Data.List.Forall2
import Tbf.Library.Text

/-! The shared values of `utils.py`: test cases, test vectors, verdicts, and the result of a child process. -/

namespace Tbf
open Text

/-- The exceptions that matter to a run; `other` is one that no handler names. -/
inductive Raised where
  | compileError | parseError | fileNotFoundError | timeoutError | assertionError
  | unicodeDecodeError | typeError | valueError | indexError | attributeError | other
  deriving DecidableEq, Repr

def check (condition : Bool) : Except Raised Unit := if condition then .ok () else .error .assertionError

/-- The result constants, which the source keeps as strings. -/
inductive Status where
  | FALSE | UNKNOWN | TRUE | ERROR | DONE
  deriving DecidableEq, Repr

def SYM_VAR_PREFIX : Str := "__sym_".toList

def ERROR_STRING : Str := "Error found.".toList

/-- The declarations put behind a prepared program, line by line. -/
def EXTERNAL_DECLARATIONS : Str :=
  ["", "struct _IO_FILE;", "typedef struct _IO_FILE FILE;", "extern struct _IO_FILE *stdin;",
    "extern struct _IO_FILE *stderr;", "typedef long unsigned int size_t;",
    "extern void abort (void) __attribute__ ((__nothrow__ , __leaf__))",
    "    __attribute__ ((__noreturn__));",
    "extern void exit (int __status) __attribute__ ((__nothrow__ , __leaf__))",
    "     __attribute__ ((__noreturn__));",
    "extern char *fgets (char *__restrict __s, int __n, FILE *__restrict __stream);",
    "extern int sscanf (const char *__restrict __s,",
    "    const char *__restrict __format, ...) __attribute__ ((__nothrow__ , __leaf__));",
    "extern size_t strlen (const char *__s)",
    "    __attribute__ ((__nothrow__ , __leaf__))",
    "    __attribute__ ((__pure__)) __attribute__ ((__nonnull__ (1)));",
    "extern int fprintf (FILE *__restrict __stream,",
    "    const char *__restrict __format, ...);",
    "extern void *malloc (size_t __size) __attribute__ ((__nothrow__ , __leaf__))",
    "    __attribute__ ((__malloc__));",
    "extern void *memcpy (void *__restrict __dest, const void *__restrict __src,",
    "    size_t __n) __attribute__ ((__nothrow__ , __leaf__)) __attribute__ ((__nonnull__ (1, 2)));",
    ""].flatMap fun line => line.toList ++ ['\n']

def getAssumeMethod : Str :=
  "void __VERIFIER_assume(int cond) \x7b\n    if(!cond) \x7b\n        abort();\n    \x7d\n\x7d\n".toList

/-- A value is a `str` or a `bytes`; the two do not mix. -/
inductive Value where
  | str (text : Str)
  | bytes (data : Bytes)
  deriving DecidableEq, Repr

namespace Value

def isBytes : Value → Bool
  | str _ => false
  | bytes _ => true

def toBytes : Value → Bytes
  | str text => encode text
  | bytes data => data

/-- Python's truth value: the empty string and the empty byte string are false. -/
def truthy : Value → Bool
  | str text => !text.isEmpty
  | bytes data => !data.isEmpty

def add : Value → Value → Except Raised Value
  | str s, str t => .ok (str (s ++ t))
  | bytes b, bytes c => .ok (bytes (b ++ c))
  | _, _ => .error .typeError

end Value

/-- A test case; `content` is what its converter stores there. -/
structure TestCase (γ : Type) where
  name : Str
  origin : Str
  content : γ
  deriving DecidableEq, Repr

/-- One test input: the value, and the method it is for, if the converter knows it. -/
structure TestInput where
  value : Value
  name : Option Str
  deriving DecidableEq, Repr

structure TestVector where
  name : Str
  origin : Str
  vector : List TestInput
  deriving DecidableEq, Repr

namespace TestVector

def new (name origin : Str) : TestVector := ⟨name, origin, []⟩

def add (tv : TestVector) (value : Value) (method : Option Str) : TestVector :=
  { tv with vector := tv.vector ++ [⟨value, method⟩] }

def length (tv : TestVector) : Nat := tv.vector.length

def values (tv : TestVector) : List Value := tv.vector.map TestInput.value

def lines (tv : TestVector) : List Bytes := tv.values.map Value.toBytes

theorem foldl_add_vector {ι : Type} (value : ι → Value) (method : ι → Option Str) (items : List ι)
    (tv : TestVector) :
    (items.foldl (fun v item => v.add (value item) (method item)) tv).vector =
      tv.vector ++ items.map fun item => ⟨value item, method item⟩ := by
  induction items generalizing tv with
  | nil => simp
  | cons item items ih =>
    rw [List.foldl_cons, ih]
    simp [add]

end TestVector

structure Verdict where
  verdict : Status
  test : Option Str
  testVector : Option TestVector
  harness : Option Str
  deriving DecidableEq, Repr

namespace Verdict

def isPositive (v : Verdict) : Bool := v.verdict == .FALSE

end Verdict

def VerdictTrue : Verdict := ⟨.TRUE, none, none, none⟩

def VerdictFalse (testOrigin : Str) (testVector : Option TestVector) : Verdict :=
  ⟨.FALSE, some testOrigin, testVector, none⟩

def VerdictUnknown : Verdict := ⟨.UNKNOWN, none, none, none⟩

def isIdentifierChar (c : Char) : Bool := c.isAlphanum || c == '_'

theorem isIdentifierChar_codes {c : Char} (identifier : isIdentifierChar c = true) : 48 ≤ c.toNat ∧ c.toNat < 128 := by
  delta isIdentifierChar Char.isAlphanum Char.isAlpha Char.isUpper Char.isLower Char.isDigit at identifier
  simp only [Bool.or_eq_true, Bool.and_eq_true, decide_eq_true_eq, beq_iff_eq, UInt32.le_iff_toNat_le]
    at identifier
  have same : c.toNat = c.val.toNat := rfl
  have underscore : '_'.toNat = 95 := rfl
  rcases identifier with ((⟨low, high⟩ | ⟨low, high⟩) | ⟨low, high⟩) | rfl
  · have : 'A'.val.toNat = 65 := rfl
    have : 'Z'.val.toNat = 90 := rfl
    omega
  · have : 'a'.val.toNat = 97 := rfl
    have : 'z'.val.toNat = 122 := rfl
    omega
  · have : '0'.val.toNat = 48 := rfl
    have : '9'.val.toNat = 57 := rfl
    omega
  · omega

theorem isIdentifierChar_ascii {c : Char} (identifier : isIdentifierChar c = true) : c.toNat < 128 :=
  (isIdentifierChar_codes identifier).2

theorem isIdentifierChar_of_isSpace {c : Char} (space : isSpace c = true) : isIdentifierChar c = false := by
  rw [← Bool.not_eq_true]
  intro identifier
  have codes := isIdentifierChar_codes identifier
  delta isSpace at space
  simp only [Bool.or_eq_true, Bool.and_eq_true, decide_eq_true_eq, beq_iff_eq] at space
  omega

structure CIdentifier where
  name : Str
  nonempty : name ≠ []
  chars : ∀ c ∈ name, isIdentifierChar c = true
  noDigit : ∀ c ∈ name.head?, c.isDigit = false

def CIdentifier.of (name : Str)
    (valid : (!name.isEmpty && name.all isIdentifierChar && name.head?.all (!·.isDigit)) = true) : CIdentifier where
  name := name
  nonempty := by
    rintro rfl
    cases valid
  chars := by
    simp only [Bool.and_eq_true, List.all_eq_true] at valid
    exact valid.1.2
  noDigit := by
    simp only [Bool.and_eq_true] at valid
    intro c first
    simpa [Option.mem_def.mp first] using valid.2

def getSymVarName (methodName : Str) : Str := SYM_VAR_PREFIX ++ methodName

theorem mem_getSymVarName (method : CIdentifier) {c : Char} (member : c ∈ getSymVarName method.name) :
    isIdentifierChar c = true := by
  rcases List.mem_append.mp member with inPrefix | inName
  · have all : ∀ c ∈ SYM_VAR_PREFIX, isIdentifierChar c = true := forall_mem_of_all (by decide)
    exact all c inPrefix
  · exact method.chars c inName

def getCorrespondingMethodName (symVarName : Str) : Str := symVarName.drop SYM_VAR_PREFIX.length

theorem getCorrespondingMethodName_getSymVarName (methodName : Str) :
    getCorrespondingMethodName (getSymVarName methodName) = methodName :=
  List.drop_left

theorem bind_ok {α β : Type} {x : Except Raised α} {f : α → Except Raised β} {b : β} :
    x >>= f = .ok b ↔ ∃ a, x = .ok a ∧ f a = .ok b := by
  cases x with
  | error e => simp [bind, Except.bind]
  | ok a => simp [bind, Except.bind]

theorem check_ok {condition : Bool} {u : Unit} : check condition = .ok u ↔ condition = true := by
  cases condition <;> simp [check]

theorem foldlM_invariant {σ ι : Type} {step : σ → ι → Except Raised σ} {inv : σ → Prop} {items : List ι}
    (preserved : ∀ s s', ∀ item ∈ items, inv s → step s item = .ok s' → inv s') {s last : σ} (initial : inv s)
    (folded : items.foldlM step s = .ok last) : inv last := by
  induction items generalizing s with
  | nil => exact Except.ok.inj folded ▸ initial
  | cons item items ih =>
    rw [List.foldlM_cons] at folded
    obtain ⟨middle, first, rest⟩ := bind_ok.mp folded
    exact ih (fun s s' other member => preserved s s' other (List.mem_cons_of_mem _ member))
      (preserved s middle item List.mem_cons_self initial first) rest

theorem mapM_ok_iff {α β : Type} {f : α → Except Raised β} {xs : List α} {ys : List β} :
    xs.mapM f = .ok ys ↔ List.Forall₂ (fun x y => f x = .ok y) xs ys := by
  induction xs generalizing ys with
  | nil => cases ys <;> simp [pure, Except.pure]
  | cons x xs ih =>
    rw [List.mapM_cons, List.forall₂_cons_left_iff]
    cases first : f x with
    | error e => simp [bind, Except.bind]
    | ok y =>
      cases rest : xs.mapM f with
      | error e => simp [bind, Except.bind, ← ih, rest]
      | ok others => simp [bind, Except.bind, pure, Except.pure, ← ih, rest, eq_comm]

theorem exists_mapM_ok {α β : Type} {f : α → Except Raised β} {xs : List α} (each : ∀ x ∈ xs, ∃ y, f x = .ok y) :
    ∃ ys, xs.mapM f = .ok ys := by
  induction xs with
  | nil => exact ⟨[], rfl⟩
  | cons x xs ih =>
    obtain ⟨⟨y, here⟩, others⟩ := List.forall_mem_cons.mp each
    obtain ⟨ys, rest⟩ := ih others
    refine ⟨y :: ys, ?_⟩
    rw [List.mapM_cons, here, rest]
    rfl

theorem mem_of_mapM {α β : Type} {f : α → Except Raised β} {xs : List α} {ys : List β} (made : xs.mapM f = .ok ys) {y : β} :
    y ∈ ys ↔ ∃ x ∈ xs, f x = .ok y := by
  have each := mapM_ok_iff.mp made
  clear made
  induction each with
  | nil => simp
  | @cons x y' xs ys here _ ih =>
    simp only [List.mem_cons, ih, exists_eq_or_imp, here, Except.ok.injEq]
    rw [eq_comm]

/-! ### Child processes -/

structure ExecutionResult where
  returncode : Int
  stdout : Value
  stderr : Value
  deriving DecidableEq, Repr

/-- What `execute` keeps of an output stream: text where it decodes, else the raw bytes. -/
def decodeOutput (output : Bytes) : Value :=
  if output = [] then .str []
  else match decode output with
    | some text => .str text
    | none => .bytes output

/-- The end of `execute`, with `err_to_output` off: the exit code and the two streams of the child. -/
def executionResult (returncode : Int) (output errOutput : Bytes) : ExecutionResult :=
  ⟨returncode, decodeOutput output, decodeOutput errOutput⟩

/-- The child's stdin: a pipe with the input if there is any input, else the stdin of tbf itself. -/
def childStdin (inputStr : Option Value) (inherited : Bytes) : Bytes :=
  match inputStr with
  | some input => if input.truthy then input.toBytes else inherited
  | none => inherited

def foundErr (runResult : ExecutionResult) : Except Raised Bool := do
  let errOut ← match runResult.stderr with
    | .bytes data => match decode data with
      | some text => .ok text
      | none => .error .unicodeDecodeError
    | .str text => .ok text
  return runResult.stderr.truthy && decide (ERROR_STRING <:+: errOut)

/-- `found_err` after `execute` searches the decoded stream, and raises where it does not decode. -/
theorem foundErr_executionResult (returncode : Int) (output errOutput : Bytes) :
    foundErr (executionResult returncode output errOutput) =
      match decode errOutput with
      | some text => .ok (decide (ERROR_STRING <:+: text))
      | none => .error .unicodeDecodeError := by
  by_cases empty : errOutput = []
  · subst empty
    rfl
  · cases decoded : decode errOutput with
    | none => simp [foundErr, executionResult, decodeOutput, empty, decoded]
    | some text =>
      have nonempty : text ≠ [] := by
        rintro rfl
        exact empty (decode_eq_some.mp decoded).symm
      simp [foundErr, executionResult, decodeOutput, empty, decoded, Value.truthy, nonempty]

theorem ascii_ERROR_STRING : Ascii ERROR_STRING := forall_mem_of_all (by decide)

/-- `found_err` answers by the bytes of stderr exactly where these are text; elsewhere it raises. -/
theorem foundErr_decides_iff (returncode : Int) (output errOutput : Bytes) :
    foundErr (executionResult returncode output errOutput) =
        .ok (decide (encode ERROR_STRING <:+: errOutput)) ↔ ∃ text, encode text = errOutput := by
  rw [foundErr_executionResult]
  constructor
  · intro answered
    cases decoded : decode errOutput with
    | none =>
      rw [decoded] at answered
      cases answered
    | some text => exact ⟨text, decode_eq_some.mp decoded⟩
  · rintro ⟨text, rfl⟩
    rw [decode_encode]
    exact congrArg Except.ok (decide_eq_decide.mpr (encode_infix_iff ascii_ERROR_STRING).symm)

theorem foundErr_raises : foundErr (executionResult 0 [] [0xFF]) = .error .unicodeDecodeError := by
  have undecodable : decode [0xFF] = none := by decide
  rw [foundErr_executionResult, undecodable]

end Tbf
