import Tbf.Library.ByteRepr
import Tbf.Utils

/-!
# KLEE

`ktest-tool` prints the name, size and data of each symbolic object; `KleeTestConverter` takes these
lines apart again.
-/

namespace Tbf.Klee
open Text Numeral ByteRepr

/-! ### The lines of `ktest-tool` -/

structure SymbolicObject where
  method : CIdentifier
  data : Bytes
  nonempty : data ≠ []

def SymbolicObject.name (o : SymbolicObject) : Bytes := encode (getSymVarName o.method.name)

def objectLine (i : Nat) (field rest : Str) : Str :=
  "object ".toList ++ (decimal i).leftpad 4 ' ' ++ ": ".toList ++ field ++ ": ".toList ++ rest

def printObject (i : Nat) (o : SymbolicObject) : List Str :=
  [objectLine i "name".toList (bytesRepr o.name),
    objectLine i "size".toList (decimal o.data.length),
    objectLine i "data".toList (bytesRepr o.data)]

def printObjects : Nat → List SymbolicObject → List Str
  | _, [] => []
  | i, o :: objects => printObject i o ++ printObjects (i + 1) objects

def stdout (lines : List Str) : Str := lines.flatMap (· ++ ['\n'])

/-! ### The converter -/

/-- Python's `int(s)`, with ASCII digits. -/
def int (s : Str) : Except Raised Int :=
  let (negative, digits) := match strip s with
    | '-' :: rest => (true, rest)
    | '+' :: rest => (false, rest)
    | rest => (false, rest)
  let groups := digits.splitOn '_'
  if groups.all fun group => group ≠ [] && group.all Char.isDigit then
    let value : Int := Nat.ofDigitChars 10 groups.flatten 0
    .ok (if negative then -value else value)
  else .error .valueError

def getVarNumber (testInfoLine : Str) : Except Raised Str := do
  check ("object".toList <:+: testInfoLine)
  let head := (testInfoLine.splitOn ':').head (List.splitOn_ne_nil _ _)
  return (head.splitOn ' ').getLast (List.splitOn_ne_nil _ _)

/-- From behind the first quote, or from the start, up to but without the last character. -/
def unquote (s : Str) : Str :=
  let start := match s.findIdx? (· = '\'') with
    | some prefixEnd => prefixEnd + 1
    | none => 0
  s.dropLast.drop start

def getValue (singleLine : Str) : Except Raised Str :=
  match (singleLine.splitOn ':')[2]? with
  | some varName => .ok (unquote (strip varName))
  | none => .error .indexError

def convertBytestringToHex (bytestring : Str) : Str :=
  "0x".toList ++ (splitSub "\\x".toList bytestring).reverse.flatten

structure Reader where
  lastNumber : Int
  lastNondetMethod : Option Str
  lastValue : Option Str
  vector : TestVector
  deriving DecidableEq

def Reader.readLine (r : Reader) (line : Str) : Except Raised Reader := do
  if "name:".toList <:+: line then
    let varNumber ← int (← getVarNumber line)
    check (r.lastNumber < varNumber)
    let varName ← getValue line
    check r.lastNondetMethod.isNone
    check ('\'' ∉ varName)
    return { r with lastNumber := varNumber, lastNondetMethod := some (getCorrespondingMethodName varName) }
  else if "data:".toList <:+: line then
    let _ ← getVarNumber line
    check r.lastNondetMethod.isSome
    let value ← getValue line
    check r.lastValue.isNone
    return { r with lastValue := some (convertBytestringToHex value) }
  else return r

/-- The end of a round: a method and a value make an entry of the vector. -/
def Reader.flush (r : Reader) : Reader :=
  match r.lastNondetMethod, r.lastValue with
  | some method, some value => ⟨r.lastNumber, none, none, r.vector.add (.str value) (some method)⟩
  | _, _ => r

def Reader.lookAt (r : Reader) (line : Str) : Except Raised Reader := do
  return (← r.readLine line).flush

/-- `KleeTestConverter.get_test_vector`, given what `ktest-tool` printed for the test. -/
def getTestVector (name origin : Str) (execOutput : Str) : Except Raised TestVector := do
  let testInfo := execOutput.splitOn '\n'
  let lines := testInfo.filter fun line => "object".toList.isPrefixOf line
  let last ← lines.foldlM Reader.lookAt ⟨-1, none, none, .new name origin⟩
  return last.vector

/-! ### Taking a line apart -/

theorem digit_not {c d : Char} (digit : c.isDigit = true) (other : d.isDigit = false) : c ≠ d := by
  rintro rfl
  simp [digit] at other

theorem not_mem_decimal {n : Nat} {c : Char} (other : c.isDigit = false) : c ∉ decimal n :=
  fun member => digit_not (isDigit_of_mem_decimal member) other rfl

theorem leftpad_eq (s : Str) : s.leftpad 4 ' ' = List.replicate (4 - s.length) ' ' ++ s := rfl

theorem not_mem_padded {n : Nat} {c : Char} (other : c.isDigit = false) (solid : c ≠ ' ') :
    c ∉ (decimal n).leftpad 4 ' ' := by
  rw [leftpad_eq]
  intro member
  rcases List.mem_append.mp member with blank | digit
  · exact solid (List.eq_of_mem_replicate blank)
  · exact not_mem_decimal other digit

/-- The parts of a line between its first two colons, and what is up to the next one. -/
theorem splitOn_objectLine (i : Nat) {field : Str} (noColon : ':' ∉ field) (rest : Str) :
    (objectLine i field rest).splitOn ':' = ("object ".toList ++ (decimal i).leftpad 4 ' ') ::
      (' ' :: field) :: (' ' :: rest).splitOn ':' := by
  have split : objectLine i field rest = ("object ".toList ++ (decimal i).leftpad 4 ' ') ++
      ':' :: ((' ' :: field) ++ ':' :: (' ' :: rest)) := by
    have colon : ": ".toList = [':', ' '] := rfl
    unfold objectLine
    simp only [colon, List.append_assoc, List.cons_append, List.nil_append]
  have first : ':' ∉ "object ".toList ++ (decimal i).leftpad 4 ' ' := by
    intro member
    rcases List.mem_append.mp member with member | member
    · revert member
      decide
    · exact not_mem_padded (by decide) (by decide) member
  have second : ':' ∉ ' ' :: field := by simpa using noColon
  rw [split, List.splitOn_append_cons_self_of_not_mem first, List.splitOn_append_cons_self_of_not_mem second]

theorem head_splitOn (a : Char) (xs : Str) : (xs.splitOn a)[0]? = some (xs.takeWhile (· ≠ a)) := by
  induction xs with
  | nil => rfl
  | cons x xs ih =>
    rw [List.splitOn_cons_eq_if_modifyHead]
    by_cases same : x = a
    · simp [same]
    · obtain ⟨part, parts, split⟩ := List.exists_cons_of_ne_nil (List.splitOn_ne_nil a xs)
      rw [split] at ih ⊢
      simp only [List.getElem?_cons_zero, Option.some.injEq] at ih
      simp [same, ih]

theorem getValue_objectLine (i : Nat) {field : Str} (noColon : ':' ∉ field) (rest : Str) :
    getValue (objectLine i field rest) = .ok (unquote (strip ((' ' :: rest).takeWhile (· ≠ ':')))) := by
  have third : ((objectLine i field rest).splitOn ':')[2]? = some ((' ' :: rest).takeWhile (· ≠ ':')) := by
    rw [splitOn_objectLine i noColon]
    exact head_splitOn ':' (' ' :: rest)
  rw [getValue, third]

theorem object_number (i : Nat) : ∃ front, "object ".toList ++ (decimal i).leftpad 4 ' ' = front ++ ' ' :: decimal i := by
  rw [leftpad_eq]
  generalize decimal i = number
  cases 4 - number.length with
  | zero => exact ⟨"object".toList, rfl⟩
  | succ n =>
    refine ⟨"object ".toList ++ List.replicate n ' ', ?_⟩
    rw [List.replicate_succ']
    simp only [List.append_assoc, List.cons_append, List.nil_append]

theorem getVarNumber_objectLine (i : Nat) {field : Str} (noColon : ':' ∉ field) (rest : Str) :
    getVarNumber (objectLine i field rest) = .ok (decimal i) := by
  have object : "object".toList <:+: objectLine i field rest := by
    unfold objectLine
    generalize (decimal i).leftpad 4 ' ' = number
    exact ⟨[], ' ' :: (number ++ ": ".toList ++ field ++ ": ".toList ++ rest), by simp⟩
  have last : (("object ".toList ++ (decimal i).leftpad 4 ' ').splitOn ' ').getLast? = some (decimal i) := by
    obtain ⟨front, split⟩ := object_number i
    rw [split, List.splitOn_append_cons_self, List.splitOn_eq_singleton (not_mem_decimal (by decide))]
    simp
  have parts := splitOn_objectLine i noColon rest
  have found : check (decide ("object".toList <:+: objectLine i field rest)) = .ok () := check_ok.mpr (decide_eq_true object)
  unfold getVarNumber
  rw [found]
  simp only [parts, List.head_cons]
  rw [List.getLast?_eq_some_getLast (List.splitOn_ne_nil _ _)] at last
  exact congrArg Except.ok (Option.some.inj last)

theorem int_decimal (i : Nat) : int (decimal i) = .ok (i : Int) := by
  have solid : ∀ c ∈ decimal i, isSpace c = false := by
    intro c member
    have digit := isDigit_of_mem_decimal member
    obtain ⟨n, small, rfl⟩ := exists_digitChar_of_isHexDigit (show isHexDigit c = true by simp [isHexDigit, digit])
    have all : ∀ n : Fin 16, isSpace n.val.digitChar = false := by decide
    exact all ⟨n, small⟩
  have stripped : strip (decimal i) = decimal i :=
    strip_pad (show ∀ c ∈ ([] : Str), isSpace c = true by simp) (fun c head => solid c (List.mem_of_head? head))
      (fun c last => solid c (List.mem_of_getLast? last))
  obtain ⟨c, rest, split⟩ := List.exists_cons_of_ne_nil (decimal_ne_nil i)
  have digit : c.isDigit = true := isDigit_of_mem_decimal (n := i) (by simp [split])
  have unsigned : (match strip (decimal i) with
      | '-' :: rest => (true, rest)
      | '+' :: rest => (false, rest)
      | rest => (false, rest)) = (false, decimal i) := by
    rw [stripped, split]
    split
    · rename_i same
      exact absurd (List.cons.inj same).1 (digit_not digit (by decide))
    · rename_i same
      exact absurd (List.cons.inj same).1 (digit_not digit (by decide))
    · rfl
  have single : (decimal i).splitOn '_' = [decimal i] := List.splitOn_eq_singleton (not_mem_decimal (by decide))
  have digits : ∀ c ∈ decimal i, c.isDigit = true := fun c => isDigit_of_mem_decimal
  have value : Nat.ofDigitChars 10 (decimal i) 0 = i := Nat.ofDigitChars_ten_toDigits
  unfold int
  rw [unsigned]
  simp [single, decimal_ne_nil, value]
  exact digits

/-! ### The value of a data line -/

/-- What the converter makes of the data of an object. -/
def decoded (data : Bytes) : Str :=
  convertBytestringToHex (unquote (strip ((' ' :: bytesRepr data).takeWhile (· ≠ ':'))))

theorem splitSub_escapes (data : Bytes) :
    splitSub "\\x".toList (data.flatMap fun b => '\\' :: 'x' :: hexPair b) = [] :: data.map hexPair := by
  induction data with
  | nil => rfl
  | cons b data ih =>
    have notEscape : ∀ (n : Nat) (rest : Str), n < 16 → ¬ "\\x".toList <+: n.digitChar :: rest := by
      rintro n rest small ⟨tail, same⟩
      have digit := isHexDigit_digitChar small
      rw [← (List.cons.inj same).1] at digit
      revert digit
      decide
    have bound := b.toNat_lt
    have step : (b :: data).flatMap (fun b => '\\' :: 'x' :: hexPair b) =
        "\\x".toList ++ ((b.toNat / 16).digitChar :: (b.toNat % 16).digitChar ::
          data.flatMap fun b => '\\' :: 'x' :: hexPair b) := rfl
    rw [step, splitSub_sep_append (by decide), splitSub_cons (notEscape _ _ (by omega)),
      splitSub_cons (notEscape _ _ (by omega)), ih]
    rfl

theorem takeWhile_eq_self_of_not_mem {s : Str} (noColon : ':' ∉ s) : s.takeWhile (· ≠ ':') = s := by
  rw [List.takeWhile_eq_self_iff]
  intro c member
  simpa using fun same : c = ':' => noColon (same ▸ member)

theorem unquote_line {body : Str} (noColon : ':' ∉ body) :
    unquote (strip ((' ' :: 'b' :: '\'' :: body ++ ['\'']).takeWhile (· ≠ ':'))) = body := by
  have whole : (' ' :: 'b' :: '\'' :: body ++ ['\'']).takeWhile (· ≠ ':') = ' ' :: 'b' :: '\'' :: body ++ ['\''] := by
    refine takeWhile_eq_self_of_not_mem fun member => ?_
    simp only [List.cons_append, List.mem_cons, List.mem_append, List.not_mem_nil, or_false] at member
    rcases member with h | h | h | h | h
    · cases h
    · cases h
    · cases h
    · exact noColon h
    · cases h
  have solidEnd : ∀ c ∈ ('b' :: '\'' :: body ++ ['\'']).getLast?, isSpace c = false := by
    have quote : ('b' :: '\'' :: body ++ ['\'']).getLast? = some '\'' := List.getLast?_concat
    intro c last
    rw [Option.mem_def, quote] at last
    obtain rfl := Option.some.inj last
    decide
  have stripped : strip (' ' :: 'b' :: '\'' :: body ++ ['\'']) = 'b' :: '\'' :: body ++ ['\''] :=
    strip_pad (show ∀ c ∈ [' '], isSpace c = true from forall_mem_of_all (by decide)) (fun c head => by
      obtain rfl := Option.some.inj head
      decide) solidEnd
  have init : ('b' :: '\'' :: body ++ ['\'']).dropLast = 'b' :: '\'' :: body := List.dropLast_concat
  rw [whole, stripped, unquote, init]
  rfl

theorem decoded_escaped {data : Bytes} (escaped : ∀ b ∈ data, isEscaped b = true) : decoded data = hexText data := by
  have noColon : ':' ∉ data.flatMap fun b => '\\' :: 'x' :: hexPair b := by
    intro member
    obtain ⟨b, _, inByte⟩ := List.mem_flatMap.mp member
    simp only [List.mem_cons] at inByte
    rcases inByte with h | h | h
    · cases h
    · cases h
    · have digit := isHexDigit_of_mem_hexPair h
      revert digit
      decide
  rw [decoded, bytesRepr_escaped escaped, convertBytestringToHex]
  have line := unquote_line noColon
  simp only [List.cons_append] at line ⊢
  rw [line, splitSub_escapes]
  simp [hexText, hexDigits, List.flatMap]

theorem countP_convertBytestringToHex (bytestring : Str) :
    (convertBytestringToHex bytestring).countP isHexDigit = 1 + bytestring.countP isHexDigit := by
  have reversed : (splitSub "\\x".toList bytestring).reverse.flatten.countP isHexDigit =
      (splitSub "\\x".toList bytestring).flatten.countP isHexDigit :=
    (List.reverse_perm _).flatten.countP_eq _
  have zero : "0x".toList.countP isHexDigit = 1 := by decide
  rw [convertBytestringToHex, List.countP_append, reversed, zero,
    countP_flatten_splitSub (by decide) (forall_mem_of_all (by decide))]

theorem strip_line {q : Char} (noColon : q ≠ ':') (solid : isSpace q = false) (rest : Str) :
    strip ((' ' :: 'b' :: q :: rest).takeWhile (· ≠ ':')) =
      'b' :: q :: (rest.takeWhile (· ≠ ':')).rdropWhile isSpace := by
  have line : (' ' :: 'b' :: q :: rest).takeWhile (· ≠ ':') = [' '] ++ (['b', q] ++ rest.takeWhile (· ≠ ':')) := by
    simp [noColon]
  have front : ∀ c ∈ ['b', q], isSpace c = false := by
    simpa [solid] using show isSpace 'b' = false by decide
  rw [line, strip_solid (forall_mem_of_all (by decide)) (by simp) front]
  rfl

/-- The digits in the decoded text are digits of the bytes: the `b` before the quotes comes in only where
double quotes stand there. -/
theorem countP_decoded (data : Bytes) :
    (decoded data).countP isHexDigit ≤ 1 + (data.length + data.countP isEscaped) := by
  have body := countP_body data
  have quotes := reprQuote_cases data
  rw [decoded, countP_convertBytestringToHex, bytesRepr]
  generalize reprQuote data = q at body quotes ⊢
  generalize data.flatMap (reprByte q) = text at body ⊢
  have noColon : q ≠ ':' := by rcases quotes with rfl | rfl <;> decide
  have solid : isSpace q = false := by rcases quotes with rfl | rfl <;> decide
  have noDigit : isHexDigit q = false := by rcases quotes with rfl | rfl <;> decide
  rw [List.cons_append, List.cons_append, strip_line noColon solid]
  have kept : (((text ++ [q]).takeWhile (· ≠ ':')).rdropWhile isSpace).countP isHexDigit ≤ text.countP isHexDigit := by
    have front : ((text ++ [q]).takeWhile (· ≠ ':')).rdropWhile isSpace <+: text ++ [q] :=
      (List.rdropWhile_prefix isSpace _).trans (List.takeWhile_prefix _)
    have fewer := front.sublist.countP_le (p := isHexDigit)
    rw [List.countP_append, List.countP_singleton, noDigit] at fewer
    simpa using fewer
  generalize ((text ++ [q]).takeWhile (· ≠ ':')).rdropWhile isSpace = rest at kept ⊢
  rcases quotes with rfl | rfl
  · have all : (unquote ('b' :: '"' :: rest)).countP isHexDigit ≤ ('b' :: '"' :: rest).countP isHexDigit :=
      ((List.drop_sublist _ _).trans (List.dropLast_sublist _)).countP_le
    have prefixed : ('b' :: '"' :: rest).countP isHexDigit = rest.countP isHexDigit + 1 := by
      rw [List.countP_cons, List.countP_cons]
      rfl
    rw [if_pos rfl] at body
    omega
  · have behind : (unquote ('b' :: '\'' :: rest)).Sublist rest := by
      have start : unquote ('b' :: '\'' :: rest) = ('b' :: '\'' :: rest).dropLast.drop 2 := rfl
      rw [start]
      exact (List.dropLast_sublist _).drop 2
    have fewer := behind.countP_le (p := isHexDigit)
    rw [if_neg (by decide)] at body
    omega

theorem decoded_eq_iff (data : Bytes) : decoded data = hexText data ↔ ∀ b ∈ data, isEscaped b = true := by
  constructor
  · intro same
    have digits : (hexText data).countP isHexDigit = 1 + 2 * data.length := by
      have all : (hexDigits data).countP isHexDigit = (hexDigits data).length :=
        List.countP_eq_length.mpr fun c => isHexDigit_of_mem_hexDigits
      have zero : isHexDigit '0' = true := by decide
      have x : isHexDigit 'x' = false := by decide
      simp [hexText, all, length_hexDigits, zero, x, Nat.add_comm]
    have bound := countP_decoded data
    rw [same, digits] at bound
    have most := List.countP_le_length (p := isEscaped) (l := data)
    exact List.countP_eq_length.mp (by omega)
  · exact decoded_escaped

/-! ### Reading the lines -/

theorem not_infix_of_not_mem {word line : Str} {c : Char} (member : c ∈ word) (absent : c ∉ line) :
    ¬ word <:+: line :=
  fun found => absent (found.subset member)

theorem not_mem_objectLine {i : Nat} {field rest : Str} {c : Char} (other : c.isDigit = false) (solid : c ≠ ' ')
    (fixed : c ∉ "object: ".toList) (noField : c ∉ field) (noRest : c ∉ rest) : c ∉ objectLine i field rest := by
  have object : c ∉ "object ".toList := fun member => fixed ((by decide : "object ".toList ⊆ "object: ".toList) member)
  have colon : c ∉ ": ".toList := fun member => fixed ((by decide : ": ".toList ⊆ "object: ".toList) member)
  have number : c ∉ (decimal i).leftpad 4 ' ' := not_mem_padded other solid
  unfold objectLine
  simp only [List.mem_append, not_or]
  exact ⟨⟨⟨⟨⟨object, number⟩, colon⟩, noField⟩, colon⟩, noRest⟩

theorem field_within (i : Nat) (field rest : Str) : field ++ [':'] <:+: objectLine i field rest := by
  unfold objectLine
  generalize "object ".toList ++ (decimal i).leftpad 4 ' ' ++ ": ".toList = front
  exact ⟨front, ' ' :: rest, by simp⟩

theorem bytesRepr_name (o : SymbolicObject) :
    bytesRepr o.name = 'b' :: '\'' :: getSymVarName o.method.name ++ ['\''] := by
  have ascii : Ascii (getSymVarName o.method.name) :=
    fun c member => isIdentifierChar_ascii (mem_getSymVarName o.method member)
  have noQuote : 39 ∉ o.name := by
    intro member
    obtain ⟨c, inName, code⟩ := (mem_encode_ascii (by decide)).mp member
    obtain rfl : c = '\'' := Char.toNat_inj.mp code
    exact absurd (mem_getSymVarName o.method inName) (by decide)
  have quote : reprQuote o.name = '\'' := if_neg fun both => noQuote both.1
  have plain : ∀ b : UInt8, isIdentifierChar (Char.ofNat b.toNat) = true → reprByte '\'' b = [Char.ofNat b.toNat] :=
    forall_uint8 (by decide +kernel)
  have each : ∀ c ∈ getSymVarName o.method.name, reprByte '\'' (UInt8.ofNat c.toNat) = [c] := by
    intro c member
    have code : (UInt8.ofNat c.toNat).toNat = c.toNat := by
      rw [UInt8.toNat_ofNat']
      have := ascii c member
      omega
    have here := plain (UInt8.ofNat c.toNat)
    rw [code, Char.ofNat_toNat] at here
    exact here (mem_getSymVarName o.method member)
  rw [bytesRepr, quote, SymbolicObject.name, encode_ascii ascii, List.flatMap_map, List.flatMap_congr each,
    List.flatMap_singleton']

theorem readLine_name {r : Reader} {i : Nat} (o : SymbolicObject) (fresh : r.lastNumber < i)
    (noMethod : r.lastNondetMethod = none) :
    r.readLine (objectLine i "name".toList (bytesRepr o.name)) =
      .ok { r with lastNumber := i, lastNondetMethod := some o.method.name } := by
  have isName : "name:".toList <:+: objectLine i "name".toList (bytesRepr o.name) := field_within i "name".toList _
  have plain : ∀ c, isIdentifierChar c = false → c ∉ getSymVarName o.method.name := by
    intro c other member
    simp [mem_getSymVarName o.method member] at other
  have value := getValue_objectLine i (show ':' ∉ "name".toList by decide) (bytesRepr o.name)
  rw [bytesRepr_name o] at value isName ⊢
  have line := unquote_line (plain ':' (by decide))
  simp only [List.cons_append] at value isName line ⊢
  rw [line] at value
  delta Reader.readLine
  rw [if_pos isName, getVarNumber_objectLine i (by decide), value]
  simp [bind, Except.bind, int_decimal, check, fresh, noMethod, plain '\'' (by decide), pure, Except.pure,
    getCorrespondingMethodName_getSymVarName]

theorem readLine_size (r : Reader) (i n : Nat) :
    r.readLine (objectLine i "size".toList (decimal n)) = .ok r := by
  have noName : ¬ "name:".toList <:+: objectLine i "size".toList (decimal n) :=
    not_infix_of_not_mem (show 'm' ∈ "name:".toList by decide)
      (not_mem_objectLine (by decide) (by decide) (by decide) (by decide) (not_mem_decimal (by decide)))
  have noData : ¬ "data:".toList <:+: objectLine i "size".toList (decimal n) :=
    not_infix_of_not_mem (show 'a' ∈ "data:".toList by decide)
      (not_mem_objectLine (by decide) (by decide) (by decide) (by decide) (not_mem_decimal (by decide)))
  delta Reader.readLine
  rw [if_neg noName, if_neg noData]
  rfl

/-- The data line is taken for a name line. -/
def Misread (i : Nat) (data : Bytes) : Prop :=
  "name:".toList <:+: objectLine i "data".toList (bytesRepr data)

theorem readLine_misread {r : Reader} {i : Nat} {data : Bytes} (last : r.lastNumber = i) (misread : Misread i data) :
    r.readLine (objectLine i "data".toList (bytesRepr data)) = .error .assertionError := by
  unfold Misread at misread
  delta Reader.readLine
  rw [if_pos misread, getVarNumber_objectLine i (by decide)]
  simp [bind, Except.bind, int_decimal, check, last]

theorem readLine_data {r : Reader} {i : Nat} {data : Bytes} {method : Str} (named : r.lastNondetMethod = some method)
    (noValue : r.lastValue = none) (read : ¬ Misread i data) :
    r.readLine (objectLine i "data".toList (bytesRepr data)) = .ok { r with lastValue := some (decoded data) } := by
  have isData : "data:".toList <:+: objectLine i "data".toList (bytesRepr data) := field_within i "data".toList _
  unfold Misread at read
  delta Reader.readLine
  rw [if_neg read, if_pos isData, getVarNumber_objectLine i (by decide), getValue_objectLine i (by decide)]
  simp [bind, Except.bind, check, named, noValue, pure, Except.pure, decoded]

/-! ### Reading the objects -/

def entry (o : SymbolicObject) : TestInput := ⟨.str (decoded o.data), some o.method.name⟩

/-- Between two objects neither a method nor a value is pending. -/
structure Reader.Idle (r : Reader) (i : Nat) : Prop where
  fresh : r.lastNumber < i
  noMethod : r.lastNondetMethod = none
  noValue : r.lastValue = none

theorem foldlM_printObject {r : Reader} {i : Nat} (idle : r.Idle i) (o : SymbolicObject) :
    (printObject i o).foldlM Reader.lookAt r =
      (Reader.readLine ⟨i, some o.method.name, none, r.vector⟩ (objectLine i "data".toList (bytesRepr o.data))).map
        Reader.flush := by
  obtain ⟨fresh, noMethod, noValue⟩ := idle
  have name := readLine_name o fresh noMethod
  have size := readLine_size ⟨i, some o.method.name, none, r.vector⟩ i o.data.length
  rw [noValue] at name
  simp only [printObject, List.foldlM_cons, List.foldlM_nil, Reader.lookAt, name, bind, Except.bind, pure, Except.pure,
    Reader.flush, size]
  cases Reader.readLine ⟨i, some o.method.name, none, r.vector⟩ (objectLine i "data".toList (bytesRepr o.data)) <;> rfl

theorem foldlM_printObject_read {r : Reader} {i : Nat} (idle : r.Idle i) {o : SymbolicObject}
    (read : ¬ Misread i o.data) : (printObject i o).foldlM Reader.lookAt r =
      .ok ⟨i, none, none, { r.vector with vector := r.vector.vector ++ [entry o] }⟩ := by
  rw [foldlM_printObject idle, readLine_data rfl rfl read]
  rfl

theorem foldlM_printObject_misread {r : Reader} {i : Nat} (idle : r.Idle i) {o : SymbolicObject}
    (misread : Misread i o.data) : (printObject i o).foldlM Reader.lookAt r = .error .assertionError := by
  rw [foldlM_printObject idle, readLine_misread rfl misread]
  rfl

theorem idle_succ (i : Nat) (vector : TestVector) : Reader.Idle ⟨i, none, none, vector⟩ (i + 1) :=
  ⟨by simp, rfl, rfl⟩

theorem foldlM_printObjects {r : Reader} {i : Nat} (idle : r.Idle i) {objects : List SymbolicObject}
    (read : ∀ o ∈ objects, ∀ j, ¬ Misread j o.data) :
    ∃ last, (printObjects i objects).foldlM Reader.lookAt r = .ok last ∧
      last.vector = { r.vector with vector := r.vector.vector ++ objects.map entry } := by
  induction objects generalizing i r with
  | nil => exact ⟨r, rfl, by simp⟩
  | cons o objects ih =>
    obtain ⟨here, later⟩ := List.forall_mem_cons.mp read
    obtain ⟨last, rest, vector⟩ := ih (idle_succ i { r.vector with vector := r.vector.vector ++ [entry o] }) later
    refine ⟨last, ?_, by simpa using vector⟩
    rw [printObjects, List.foldlM_append, foldlM_printObject_read idle (here i)]
    exact rest

theorem vector_of_foldlM {r : Reader} {i : Nat} (idle : r.Idle i) {objects : List SymbolicObject} {last : Reader}
    (read : (printObjects i objects).foldlM Reader.lookAt r = .ok last) :
    last.vector = { r.vector with vector := r.vector.vector ++ objects.map entry } := by
  induction objects generalizing i r with
  | nil =>
    obtain rfl := Except.ok.inj read
    simp
  | cons o objects ih =>
    rw [printObjects, List.foldlM_append] at read
    by_cases misread : Misread i o.data
    · rw [foldlM_printObject_misread idle misread] at read
      cases read
    · rw [foldlM_printObject_read idle misread] at read
      simpa using ih (idle_succ i _) read

theorem objectLine_front (i : Nat) (field rest : Str) : "object".toList.isPrefixOf (objectLine i field rest) = true := by
  unfold objectLine
  generalize (decimal i).leftpad 4 ' ' = number
  rfl

theorem lines_stdout (i : Nat) (objects : List SymbolicObject) :
    ((stdout (printObjects i objects)).splitOn '\n').filter (fun line => "object".toList.isPrefixOf line) =
      printObjects i objects := by
  have lines : ∀ line ∈ printObjects i objects, '\n' ∉ line ∧ "object".toList.isPrefixOf line = true := by
    induction objects generalizing i with
    | nil => simp [printObjects]
    | cons o objects ih =>
      intro line member
      rcases List.mem_append.mp member with here | later
      · have clean : ∀ field rest, '\n' ∉ field → '\n' ∉ rest → '\n' ∉ objectLine i field rest :=
          fun field rest => not_mem_objectLine (by decide) (by decide) (by decide)
        simp only [printObject, List.mem_cons, List.not_mem_nil, or_false] at here
        rcases here with rfl | rfl | rfl
        · exact ⟨clean _ _ (by decide) (newline_not_mem_bytesRepr _), objectLine_front i _ _⟩
        · exact ⟨clean _ _ (by decide) (not_mem_decimal (by decide)), objectLine_front i _ _⟩
        · exact ⟨clean _ _ (by decide) (newline_not_mem_bytesRepr _), objectLine_front i _ _⟩
      · exact ih (i + 1) line later
  rw [stdout, splitOn_flatMap_concat fun line member => (lines line member).1, List.filter_append,
    List.filter_eq_self.mpr fun line member => (lines line member).2]
  simp

theorem not_misread {data : Bytes} (escaped : ∀ b ∈ data, isEscaped b = true) (i : Nat) : ¬ Misread i data := by
  refine not_infix_of_not_mem (show 'm' ∈ "name:".toList by decide) ?_
  refine not_mem_objectLine (by decide) (by decide) (by decide) (by decide) ?_
  rw [bytesRepr_escaped escaped]
  intro member
  simp only [List.cons_append, List.mem_cons, List.mem_append, List.mem_flatMap, List.not_mem_nil, or_false] at member
  rcases member with h | h | ⟨b, _, h | h | h⟩ | h
  · cases h
  · cases h
  · cases h
  · cases h
  · have digit := isHexDigit_of_mem_hexPair h
    revert digit
    decide
  · cases h

/-- The vector that the objects stand for: two digits for each byte, the last byte first. -/
def expected (name origin : Str) (objects : List SymbolicObject) : TestVector :=
  ⟨name, origin, objects.map fun o => ⟨.str (hexText o.data), some o.method.name⟩⟩

/-- The converter undoes `ktest-tool` for the objects whose data is printed in hexadecimal throughout. -/
theorem getTestVector_ktestTool_iff (name origin : Str) (objects : List SymbolicObject) :
    getTestVector name origin (stdout (printObjects 0 objects)) = .ok (expected name origin objects) ↔
      ∀ o ∈ objects, ∀ b ∈ o.data, isEscaped b = true := by
  have idle : Reader.Idle ⟨-1, none, none, .new name origin⟩ 0 :=
    ⟨show (-1 : Int) < ((0 : Nat) : Int) by decide, rfl, rfl⟩
  unfold getTestVector
  simp only [lines_stdout]
  constructor
  · intro converted o member
    cases read : (printObjects 0 objects).foldlM Reader.lookAt ⟨-1, none, none, .new name origin⟩ with
    | error e =>
      rw [read] at converted
      cases converted
    | ok last =>
      rw [read] at converted
      have vector := vector_of_foldlM idle read
      have same : last.vector = expected name origin objects := Except.ok.inj converted
      rw [same] at vector
      have entries : objects.map (fun o => (⟨.str (hexText o.data), some o.method.name⟩ : TestInput)) =
          objects.map entry := congrArg TestVector.vector vector
      have here := List.map_inj_left.mp entries o member
      exact (decoded_eq_iff o.data).mp (Value.str.inj (congrArg TestInput.value here)).symm
  · intro escaped
    have noName : ∀ o ∈ objects, ∀ j, ¬ Misread j o.data := fun o member => not_misread (escaped o member)
    obtain ⟨last, read, vector⟩ := foldlM_printObjects idle noName
    rw [read]
    refine congrArg Except.ok (vector.trans ?_)
    have entries : objects.map entry = objects.map fun o => ⟨.str (hexText o.data), some o.method.name⟩ :=
      List.map_congr_left fun o member => by rw [entry, (decoded_eq_iff o.data).mpr (escaped o member)]
    rw [entries]
    rfl

def letterObject : SymbolicObject := ⟨.of "x".toList (by decide), [65, 0, 0, 0], by decide⟩

theorem letter_lost :
    getTestVector "test000001.ktest".toList "klee-out/test000001.ktest".toList
        (stdout (printObjects 0 [letterObject])) ≠
      .ok (expected "test000001.ktest".toList "klee-out/test000001.ktest".toList [letterObject]) := by
  decide +kernel

end Tbf.Klee
