import Tbf.Library.BinaryReader
import Tbf.Library.Lines
import Tbf.Tools.Klee

/-!
# The files of KLEE

`KTest.fromfile` of `ktest-tool` reads a test case from its file. KLEE writes these files while tbf looks
for new ones, so the converter may be given the front of a file.
-/

namespace Tbf.Ktest
open Text BinaryReader CInteger Numeral ByteRepr

/-! ### `KTest.fromfile` -/

inductive Failure where
  | unrecognizedFile | unrecognizedVersion | structError | unicodeDecodeError | valueError | indexError
  deriving DecidableEq, Repr

abbrev FileReader := Reader Failure UInt8

structure KTest where
  version : Int
  args : List Str
  symArgvs : Int
  symArgvLen : Int
  objects : List (Bytes × Bytes)
  programName : Str
  deriving DecidableEq, Repr

def versionNo : Int := 3

/-- The name of the program that the file was made for, without a final `.bc`. -/
def programNameOf (programFullPath : Str) : Str :=
  let name := basename programFullPath
  if ".bc".toList <:+ name then name.take (name.length - 3) else name

def KTest.new (version : Int) (args : List Str) (symArgvs symArgvLen : Int) (objects : List (Bytes × Bytes)) :
    Except Failure KTest :=
  match args with
  | [] => .error .indexError
  | programFullPath :: _ => .ok ⟨version, args, symArgvs, symArgvLen, objects, programNameOf programFullPath⟩

def decodeAscii (data : Bytes) : Except Failure Str :=
  if data.all (· < 128) then .ok (data.map fun b => Char.ofNat b.toNat) else .error .unicodeDecodeError

def magic : List Bytes := [encode "KTEST".toList, encode "BOUT\n".toList]

def readHeader : FileReader Unit := do
  let hdr ← read .valueError 5
  if hdr.length = 5 ∧ hdr ∈ magic then return () else throw .unrecognizedFile

def readVersion : FileReader Int := do
  let version ← unpackInt .structError
  if versionNo < version then throw .unrecognizedVersion else return version

/-- A length, and as many bytes as there are of that length. -/
def readSized : FileReader Bytes := do
  let size ← unpackInt .structError
  read .valueError size

def readArg : FileReader Str := do
  let data ← readSized
  decodeAscii data

def readSymArgv (version : Int) : FileReader (Int × Int) :=
  if 2 ≤ version then do
    let symArgvs ← unpackInt .structError
    let symArgvLen ← unpackInt .structError
    return (symArgvs, symArgvLen)
  else return (0, 0)

def readObject : FileReader (Bytes × Bytes) := do
  let name ← readSized
  let bytes ← readSized
  return (name, bytes)

def readKTest : FileReader KTest := do
  readHeader
  let version ← readVersion
  let numArgs ← unpackInt .structError
  let args ← times readArg numArgs.toNat
  let (symArgvs, symArgvLen) ← readSymArgv version
  let numObjects ← unpackInt .structError
  let objects ← times readObject numObjects.toNat
  KTest.new version args symArgvs symArgvLen objects

/-- Bytes behind the last object are not looked at. -/
def fromfile (file : Bytes) : Except Failure KTest := (readKTest file).map Prod.fst

/-! ### What is in a file -/

/-- A byte string whose length fits the field in front of it. -/
structure Sized where
  data : Bytes
  fits : data.length < 2 ^ 31

def Sized.size (s : Sized) : Bytes := packInt (int32Of s.data.length s.fits)

def Sized.bytes (s : Sized) : Bytes := s.size ++ s.data

/-- A complete file, by its fields. -/
structure Stored where
  hdr : Bytes
  known : hdr ∈ magic
  version : int32.Val
  supported : version.int ≤ versionNo
  args : List Sized
  hasProgram : args ≠ []
  fewArgs : args.length < 2 ^ 31
  ascii : ∀ a ∈ args, a.data.all (· < 128) = true
  symArgvs : int32.Val
  symArgvLen : int32.Val
  unversioned : version.int < 2 → symArgvs.int = 0 ∧ symArgvLen.int = 0
  objects : List (Sized × Sized)
  fewObjects : objects.length < 2 ^ 31

def argText (a : Sized) : Str := a.data.map fun b => Char.ofNat b.toNat

def objectBytes (o : Sized × Sized) : Bytes := o.1.bytes ++ o.2.bytes

def plain (o : Sized × Sized) : Bytes × Bytes := (o.1.data, o.2.data)

namespace Stored
variable (s : Stored)

def symArgvBytes : Bytes := if 2 ≤ s.version.int then packInt s.symArgvs ++ packInt s.symArgvLen else []

/-- Everything in front of the objects. -/
def front : Bytes :=
  s.hdr ++ (packInt s.version ++ (packInt (int32Of s.args.length s.fewArgs) ++
    (s.args.flatMap Sized.bytes ++ (s.symArgvBytes ++ packInt (int32Of s.objects.length s.fewObjects)))))

def bytes : Bytes := s.front ++ s.objects.flatMap objectBytes

/-- The data of the last object ends the file. -/
def dataStart : Nat := s.bytes.length - (s.objects.getLast?.elim 0 fun o => o.2.data.length)

def ktest (objects : List (Bytes × Bytes)) : KTest :=
  ⟨s.version.int, s.args.map argText, s.symArgvs.int, s.symArgvLen.int, objects,
    programNameOf (argText (s.args.head s.hasProgram))⟩

end Stored

/-- The data of the last entry is cut off behind `n` of its symbols. -/
def cutLast {κ τ : Type} (n : Nat) : List (κ × List τ) → List (κ × List τ)
  | [] => []
  | [(key, data)] => [(key, data.take n)]
  | entry :: next :: rest => entry :: cutLast n (next :: rest)

theorem cutLast_concat {κ τ : Type} (n : Nat) (entries : List (κ × List τ)) (key : κ) (data : List τ) :
    cutLast n (entries ++ [(key, data)]) = entries ++ [(key, data.take n)] := by
  induction entries with
  | nil => rfl
  | cons entry entries ih =>
    cases entries with
    | nil => rfl
    | cons next rest => exact congrArg (entry :: ·) ih

/-! ### The parts of a file -/

theorem readSized_nil : ∃ e, readSized [] = .error e :=
  ⟨.structError, bind_of_error (unpackInt_of_short _ (by decide))⟩

theorem refuses_size (s : Sized) : Refuses readSized s.size := (refuses_unpackInt _ _).bind_left

theorem reads_sized (s : Sized) : Reads readSized s.bytes s.data :=
  (reads_unpackInt _ _).bind (reads_read _ rfl)

theorem drains_sized (s : Sized) : Drains readSized s.bytes :=
  Refuses.bind_drains (reads_unpackInt _ _) (refuses_unpackInt _ _) (drains_read _ rfl)

theorem readArg_nil : ∃ e, readArg [] = .error e := by
  obtain ⟨e, refused⟩ := readSized_nil
  exact ⟨e, bind_of_error refused⟩

theorem reads_arg {a : Sized} (ascii : a.data.all (· < 128) = true) : Reads readArg a.bytes (argText a) := by
  intro rest
  rw [readArg, bind_of_ok (reads_sized a rest)]
  simp only [decodeAscii, ascii, if_true]
  rfl

theorem drains_arg (a : Sized) : Drains readArg a.bytes := by
  refine (drains_sized a).bind_still fun data => ?_
  unfold decodeAscii
  split
  · exact Or.inr ⟨_, rfl⟩
  · exact Or.inl ⟨_, rfl⟩

theorem readObject_nil : ∃ e, readObject [] = .error e := by
  obtain ⟨e, refused⟩ := readSized_nil
  exact ⟨e, bind_of_error refused⟩

theorem reads_object (o : Sized × Sized) : Reads readObject (objectBytes o) (plain o) := by
  intro rest
  rw [readObject, objectBytes, List.append_assoc, bind_of_ok (reads_sized o.1 _), bind_of_ok (reads_sized o.2 rest)]
  rfl

theorem drains_object (o : Sized × Sized) : Drains readObject (objectBytes o) := by
  intro front cut short
  rcases cut_append cut short with ⟨inside, less⟩ | ⟨behind, rfl, inside, less⟩
  · rcases drains_sized o.1 front inside less with ⟨e, refused⟩ | ⟨name, drained⟩
    · exact Or.inl ⟨e, bind_of_error refused⟩
    · obtain ⟨e, missing⟩ := readSized_nil
      exact Or.inl ⟨e, by rw [readObject, bind_of_ok drained, bind_of_error missing]⟩
  · rw [readObject, bind_of_ok (reads_sized o.1 behind)]
    exact (drains_sized o.2).bind_still (fun _ => Or.inr ⟨_, rfl⟩) behind inside less

/-- Up to the data of the last object nothing may be missing. -/
theorem refuses_objects (init : List (Sized × Sized)) (last : Sized × Sized) :
    Refuses (times readObject (init.length + 1)) (init.flatMap objectBytes ++ (last.1.bytes ++ last.2.size)) := by
  induction init with
  | nil =>
    have object : Refuses readObject (last.1.bytes ++ last.2.size) :=
      Drains.bind_refuses (reads_sized _) (drains_sized _) (fun _ => by
        obtain ⟨e, missing⟩ := readSized_nil
        exact ⟨e, bind_of_error missing⟩) (refuses_size _).bind_left
    exact object.bind_left
  | cons o init ih =>
    rw [List.flatMap_cons, List.append_assoc]
    refine Drains.bind_refuses (reads_object o) (drains_object o) (fun _ => ?_) ih.bind_left
    obtain ⟨e, missing⟩ := readObject_nil
    exact ⟨e, bind_of_error (bind_of_error missing)⟩

/-- The data of the last object may be missing in part. -/
theorem times_readObject (init : List (Sized × Sized)) (last : Sized × Sized) {data : Bytes} (cut : data <+: last.2.data) :
    times readObject (init.length + 1) (init.flatMap objectBytes ++ (last.1.bytes ++ last.2.size) ++ data) =
      .ok (init.map plain ++ [(last.1.data, data)], []) := by
  have sized : readSized (last.2.size ++ data) = .ok (data, []) := by
    have taken : BinaryReader.read Failure.valueError (last.2.data.length : Int) data = .ok (data, []) := by
      rw [read_nat, List.take_of_length_le cut.length_le, List.drop_of_length_le cut.length_le]
    exact (bind_of_ok (reads_unpackInt _ _ data)).trans taken
  induction init with
  | nil =>
    have object : readObject (last.1.bytes ++ (last.2.size ++ data)) = .ok ((last.1.data, data), []) := by
      rw [readObject, bind_of_ok (reads_sized last.1 _), bind_of_ok sized]
      rfl
    rw [List.flatMap_nil, List.nil_append, List.append_assoc]
    exact bind_of_ok object
  | cons o init ih =>
    rw [List.flatMap_cons, List.append_assoc, List.append_assoc, ← List.append_assoc (init.flatMap objectBytes)]
    exact (bind_of_ok (reads_object o _)).trans (bind_of_ok ih)

/-! ### In front of the objects -/

theorem length_magic {hdr : Bytes} (known : hdr ∈ magic) : hdr.length = 5 := by
  have all : ∀ hdr ∈ magic, hdr.length = 5 := by decide
  exact all hdr known

theorem reads_header {hdr : Bytes} (known : hdr ∈ magic) : Reads readHeader hdr () := by
  intro rest
  have taken : BinaryReader.read Failure.valueError 5 (hdr ++ rest) = .ok (hdr, rest) :=
    reads_read _ (length_magic known) rest
  rw [readHeader, bind_of_ok taken, if_pos ⟨length_magic known, known⟩]
  rfl

theorem refuses_header {hdr : Bytes} (known : hdr ∈ magic) : Refuses readHeader hdr := by
  intro front cut less
  have fewer : front.length ≠ 5 := fun same => less (cut.eq_of_length (same.trans (length_magic known).symm))
  have bound : front.length ≤ 5 := length_magic known ▸ cut.length_le
  have taken : BinaryReader.read Failure.valueError 5 front = .ok (front, []) := by
    have here := read_nat Failure.valueError 5 front
    rwa [List.take_of_length_le bound, List.drop_of_length_le bound] at here
  refine ⟨.unrecognizedFile, ?_⟩
  rw [readHeader, bind_of_ok taken, if_neg fun both => fewer both.1]
  rfl

theorem reads_version {version : int32.Val} (supported : version.int ≤ versionNo) :
    Reads readVersion (packInt version) version.int := by
  intro rest
  rw [readVersion, bind_of_ok (reads_unpackInt _ version rest), if_neg (Int.not_lt.mpr supported)]
  rfl

theorem refuses_version (version : int32.Val) : Refuses readVersion (packInt version) := (refuses_unpackInt _ _).bind_left

namespace Stored
variable (s : Stored)

theorem reads_symArgv : Reads (readSymArgv s.version.int) s.symArgvBytes (s.symArgvs.int, s.symArgvLen.int) := by
  by_cases versioned : 2 ≤ s.version.int
  · intro rest
    rw [readSymArgv, symArgvBytes, if_pos versioned, if_pos versioned, List.append_assoc,
      bind_of_ok (reads_unpackInt _ _ _), bind_of_ok (reads_unpackInt _ _ _)]
    rfl
  · obtain ⟨noArgvs, noLen⟩ := s.unversioned (Int.not_le.mp versioned)
    rw [readSymArgv, symArgvBytes, if_neg versioned, if_neg versioned, noArgvs, noLen]
    exact reads_pure _

theorem refuses_symArgv : Refuses (readSymArgv s.version.int) s.symArgvBytes := by
  by_cases versioned : 2 ≤ s.version.int
  · rw [readSymArgv, symArgvBytes, if_pos versioned, if_pos versioned]
    exact Refuses.bind (reads_unpackInt _ _) (refuses_unpackInt _ _) (refuses_unpackInt _ _).bind_left
  · rw [symArgvBytes, if_neg versioned]
    exact refuses_nil _

theorem reads_args : Reads (times readArg s.args.length) (s.args.flatMap Sized.bytes) (s.args.map argText) :=
  reads_times fun a member => reads_arg (s.ascii a member)

theorem drains_args : Drains (times readArg s.args.length) (s.args.flatMap Sized.bytes) :=
  drains_times (fun a member => reads_arg (s.ascii a member)) (fun a _ => drains_arg a) readArg_nil

theorem new_ktest (objects : List (Bytes × Bytes)) :
    KTest.new s.version.int (s.args.map argText) s.symArgvs.int s.symArgvLen.int objects = .ok (s.ktest objects) := by
  obtain ⟨a, others, args⟩ := List.exists_cons_of_ne_nil s.hasProgram
  have head : s.args.head s.hasProgram = a := by simp [args]
  rw [ktest, head]
  simp [KTest.new, args]

/-- Behind the front the objects are left. -/
theorem readKTest_front (rest : Bytes) :
    readKTest (s.front ++ rest) = (times readObject s.objects.length rest).map fun read => (s.ktest read.1, read.2) := by
  have args : (int32Of s.args.length s.fewArgs).int.toNat = s.args.length := Int.toNat_natCast _
  have objects : (int32Of s.objects.length s.fewObjects).int.toNat = s.objects.length := Int.toNat_natCast _
  unfold front readKTest
  simp only [List.append_assoc]
  rw [bind_of_ok (reads_header s.known _), bind_of_ok (reads_version s.supported _), bind_of_ok (reads_unpackInt _ _ _),
    args, bind_of_ok (s.reads_args _), bind_of_ok (s.reads_symArgv _), bind_of_ok (reads_unpackInt _ _ _), objects,
    bind_apply]
  cases times readObject s.objects.length rest with
  | error e => rfl
  | ok read => simp [Except.bind, Except.map, new_ktest]; rfl

theorem refuses_front : Refuses readKTest s.front := by
  have args : (int32Of s.args.length s.fewArgs).int.toNat = s.args.length := Int.toNat_natCast _
  refine Refuses.bind (reads_header s.known) (refuses_header s.known) ?_
  refine Refuses.bind (reads_version s.supported) (refuses_version _) ?_
  refine Refuses.bind (reads_unpackInt _ _) (refuses_unpackInt _ _) ?_
  rw [args]
  refine Drains.bind_refuses s.reads_args s.drains_args (fun _ => ?_) ?_
  · by_cases versioned : 2 ≤ s.version.int
    · rw [readSymArgv, if_pos versioned]
      exact ⟨_, bind_of_error (bind_of_error (unpackInt_of_short _ (by decide)))⟩
    · rw [readSymArgv, if_neg versioned]
      exact ⟨.structError, rfl⟩
  · exact Refuses.bind s.reads_symArgv s.refuses_symArgv (refuses_unpackInt _ _).bind_left

end Stored

/-- Where the data of the last object begins. -/
theorem bytes_of_objects {s : Stored} {init : List (Sized × Sized)} {last : Sized × Sized} (objects : s.objects = init ++ [last]) :
    s.bytes = s.front ++ (init.flatMap objectBytes ++ (last.1.bytes ++ last.2.size)) ++ last.2.data ∧
      s.dataStart = (s.front ++ (init.flatMap objectBytes ++ (last.1.bytes ++ last.2.size))).length := by
  have bytes : s.bytes = s.front ++ (init.flatMap objectBytes ++ (last.1.bytes ++ last.2.size)) ++ last.2.data := by
    simp [Stored.bytes, objects, objectBytes, Sized.bytes]
  refine ⟨bytes, ?_⟩
  rw [Stored.dataStart, bytes, objects, List.getLast?_concat]
  simp only [List.length_append, Option.elim_some]
  omega

theorem bytes_of_no_objects {s : Stored} (objects : s.objects = []) : s.bytes = s.front ∧ s.dataStart = s.front.length := by
  have bytes : s.bytes = s.front := by simp [Stored.bytes, objects]
  exact ⟨bytes, by simp [Stored.dataStart, bytes, objects]⟩

theorem fromfile_short {s : Stored} {front : Bytes} (cut : front <+: s.bytes) (short : front.length < s.dataStart) :
    ∃ e, fromfile front = .error e := by
  have early : ∀ part, part <+: s.front → part ≠ s.front → ∃ e, fromfile part = .error e := by
    intro part inside less
    obtain ⟨e, refused⟩ := s.refuses_front part inside less
    exact ⟨e, congrArg (Except.map Prod.fst) refused⟩
  rcases List.eq_nil_or_concat s.objects with none | ⟨init, last, objects⟩
  · obtain ⟨bytes, start⟩ := bytes_of_no_objects none
    exact early front (bytes ▸ cut) fun same => Nat.lt_irrefl _ (start ▸ same ▸ short)
  · rw [List.concat_eq_append] at objects
    obtain ⟨bytes, start⟩ := bytes_of_objects objects
    have count : s.objects.length = init.length + 1 := by simp [objects]
    rw [bytes] at cut
    rw [start] at short
    have inside := List.prefix_of_prefix_length_le cut (List.prefix_append _ _) (Nat.le_of_lt short)
    have less : front ≠ s.front ++ (init.flatMap objectBytes ++ (last.1.bytes ++ last.2.size)) :=
      fun same => Nat.lt_irrefl _ (same ▸ short)
    rcases cut_append inside less with ⟨first, part⟩ | ⟨behind, rfl, late, part⟩
    · exact early front first part
    · obtain ⟨e, refused⟩ := refuses_objects init last behind late part
      refine ⟨e, ?_⟩
      rw [fromfile, s.readKTest_front, count, refused]
      rfl

theorem fromfile_long {s : Stored} {front : Bytes} (cut : front <+: s.bytes) (long : s.dataStart ≤ front.length) :
    fromfile front = .ok (s.ktest (cutLast (front.length - s.dataStart) (s.objects.map plain))) := by
  rcases List.eq_nil_or_concat s.objects with none | ⟨init, last, objects⟩
  · obtain ⟨bytes, start⟩ := bytes_of_no_objects none
    rw [bytes] at cut
    obtain rfl := cut.eq_of_length_le (start ▸ long)
    have read := s.readKTest_front []
    rw [List.append_nil, none] at read
    rw [fromfile, read, none]
    rfl
  · rw [List.concat_eq_append] at objects
    obtain ⟨bytes, start⟩ := bytes_of_objects objects
    have count : s.objects.length = init.length + 1 := by simp [objects]
    rw [bytes] at cut
    rw [start] at long ⊢
    obtain ⟨data, rfl⟩ := List.prefix_of_prefix_length_le (List.prefix_append _ _) cut long
    have kept := (List.prefix_append_right_inj _).mp cut
    have size : (s.front ++ (init.flatMap objectBytes ++ (last.1.bytes ++ last.2.size)) ++ data).length -
        (s.front ++ (init.flatMap objectBytes ++ (last.1.bytes ++ last.2.size))).length = data.length := by
      simp only [List.length_append]
      omega
    have whole : cutLast data.length (s.objects.map plain) = init.map plain ++ [(last.1.data, data)] := by
      rw [objects, List.map_append, List.map_singleton, plain, cutLast_concat, ← List.prefix_iff_eq_take.mp kept]
    rw [size, whole, fromfile, List.append_assoc, s.readKTest_front, count, times_readObject init last kept]
    rfl

/-- The front of a file is refused up to where the data of the last object begins; from there on it is
read as the file with this data cut off. -/
theorem fromfile_front (s : Stored) {front : Bytes} (cut : front <+: s.bytes) :
    (front.length < s.dataStart → ∃ e, fromfile front = .error e) ∧
      (s.dataStart ≤ front.length →
        fromfile front = .ok (s.ktest (cutLast (front.length - s.dataStart) (s.objects.map plain)))) :=
  ⟨fromfile_short cut, fromfile_long cut⟩

/-- A file of version 3 with one object, an `int` of the method `x`. -/
def intFile : Stored where
  hdr := encode "KTEST".toList
  known := by decide
  version := int32Of 3 (by decide)
  supported := by decide
  args := [⟨encode "x.bc".toList, by decide⟩]
  hasProgram := by decide
  fewArgs := by decide
  ascii := by decide
  symArgvs := int32Of 0 (by decide)
  symArgvLen := int32Of 0 (by decide)
  unversioned := fun old => absurd old (by decide)
  objects := [(⟨encode "__sym_x".toList, by decide⟩, ⟨[5, 1, 0, 0], by decide⟩)]
  fewObjects := by decide

theorem intFile_front : (∃ e, fromfile (intFile.bytes.take 47) = .error e) ∧
    fromfile (intFile.bytes.take 50) = .ok (intFile.ktest [(encode "__sym_x".toList, [5, 1])]) :=
  ⟨(fromfile_front intFile (List.take_prefix 47 _)).1 (by decide),
    (fromfile_front intFile (List.take_prefix 50 _)).2 (by decide)⟩

/-! ### What `ktest-tool` prints -/

/-- Python's `repr` of a text, which is on one line. -/
structure TextRepr where
  repr : Str → Str
  oneLine : ∀ s, '\n' ∉ repr s

def TextRepr.list (r : TextRepr) (texts : List Str) : Str :=
  "[".toList ++ ", ".toList.intercalate (texts.map r.repr) ++ "]".toList

def printObjects : Nat → List (Bytes × Bytes) → List Str
  | _, [] => []
  | i, (name, data) :: objects =>
    Klee.objectLine i "name".toList (bytesRepr name) :: Klee.objectLine i "size".toList (decimal data.length) ::
      Klee.objectLine i "data".toList (bytesRepr data) :: printObjects (i + 1) objects

def printHeader (r : TextRepr) (file : Str) (k : KTest) : List Str :=
  ["ktest file : ".toList ++ r.repr file, "args       : ".toList ++ r.list k.args,
    "num objects: ".toList ++ decimal k.objects.length]

/-- `main` of `ktest-tool` for one file, `none` where it does not exist: what is on its stdout. A failure to
read the file comes before the first line, and its message goes to stderr. -/
def ktestTool (r : TextRepr) (path : Str) (content : Option Bytes) : Str :=
  match content with
  | none => Klee.stdout ["ERROR: file ".toList ++ path ++ " not found".toList]
  | some file => match fromfile file with
    | .error _ => []
    | .ok k => Klee.stdout (printHeader r path k ++ printObjects 0 k.objects)

/-- `get_test_vector` on a file: the exit code of `ktest-tool` is not looked at. -/
def getTestVector (r : TextRepr) (name origin : Str) (content : Option Bytes) : Except Raised TestVector :=
  Klee.getTestVector name origin (ktestTool r origin content)

/-- The vector of methods and their data: two digits for each byte, the last byte first. -/
def vectorOf (name origin : Str) (inputs : List (Str × Bytes)) : TestVector :=
  ⟨name, origin, inputs.map fun i => ⟨.str (hexText i.2), some i.1⟩⟩

/-! ### From the file to the vector -/

/-- An object as KLEE names it after the method whose value it is. -/
def symbolic (input : CIdentifier × Bytes) : Bytes × Bytes := (encode (getSymVarName input.1.name), input.2)

theorem cutLast_map {κ κ' τ : Type} (f : κ → κ') (n : Nat) (entries : List (κ × List τ)) :
    cutLast n (entries.map fun e => (f e.1, e.2)) = (cutLast n entries).map fun e => (f e.1, e.2) := by
  induction entries with
  | nil => rfl
  | cons entry entries ih =>
    cases entries with
    | nil => rfl
    | cons next rest => exact congrArg ((f entry.1, entry.2) :: ·) ih

theorem getElem?_cutLast {κ τ : Type} {n k : Nat} {entries : List (κ × List τ)} {e : κ × List τ}
    (here : (cutLast n entries)[k]? = some e) :
    ∃ whole, entries[k]? = some whole ∧ (e = whole ∨ e = (whole.1, whole.2.take n)) := by
  induction entries generalizing k with
  | nil => cases here
  | cons entry entries ih =>
    cases entries with
    | nil =>
      cases k with
      | zero => exact ⟨entry, rfl, Or.inr (Option.some.inj here).symm⟩
      | succ k => cases here
    | cons next rest =>
      cases k with
      | zero => exact ⟨entry, rfl, Or.inl (Option.some.inj here).symm⟩
      | succ k => exact ih here

theorem foldlM_printObjects {r : Klee.Reader} {i : Nat} (idle : r.Idle i) {inputs : List (CIdentifier × Bytes)}
    (escaped : ∀ input ∈ inputs, ∀ b ∈ input.2, isEscaped b = true) :
    ∃ last, (printObjects i (inputs.map symbolic)).foldlM Klee.Reader.lookAt r = .ok last ∧
      last.vector = { r.vector with
        vector := r.vector.vector ++ inputs.map fun input => ⟨.str (hexText input.2), some input.1.name⟩ } := by
  induction inputs generalizing i r with
  | nil => exact ⟨r, rfl, by simp⟩
  | cons input inputs ih =>
    obtain ⟨method, data⟩ := input
    obtain ⟨here, later⟩ := List.forall_mem_cons.mp escaped
    obtain ⟨fresh, noMethod, noValue⟩ := idle
    have name : r.readLine (Klee.objectLine i "name".toList (bytesRepr (encode (getSymVarName method.name)))) =
        .ok ⟨i, some method.name, none, r.vector⟩ :=
      noValue ▸ Klee.readLine_name ⟨method, [0], by decide⟩ fresh noMethod
    have size := Klee.readLine_size ⟨i, some method.name, none, r.vector⟩ i data.length
    have value := Klee.readLine_data (r := ⟨i, some method.name, none, r.vector⟩) rfl rfl (Klee.not_misread here i)
    rw [Klee.decoded_escaped here] at value
    obtain ⟨last, rest, vector⟩ := ih (Klee.idle_succ i (r.vector.add (.str (hexText data)) (some method.name))) later
    refine ⟨last, ?_, by simpa [TestVector.add] using vector⟩
    simp only [List.map_cons, symbolic, printObjects, List.foldlM_cons, Klee.Reader.lookAt, name, size, value, bind,
      Except.bind, pure, Except.pure, Klee.Reader.flush]
    exact rest

theorem printObjects_lines (i : Nat) (objects : List (Bytes × Bytes)) :
    ∀ line ∈ printObjects i objects, '\n' ∉ line ∧ "object".toList.isPrefixOf line = true := by
  induction objects generalizing i with
  | nil => simp [printObjects]
  | cons o objects ih =>
    have clean : ∀ field rest, '\n' ∉ field → '\n' ∉ rest → '\n' ∉ Klee.objectLine i field rest :=
      fun field rest => Klee.not_mem_objectLine (by decide) (by decide) (by decide)
    intro line member
    simp only [printObjects, List.mem_cons] at member
    rcases member with rfl | rfl | rfl | later
    · exact ⟨clean _ _ (by decide) (newline_not_mem_bytesRepr _), Klee.objectLine_front i _ _⟩
    · exact ⟨clean _ _ (by decide) (Klee.not_mem_decimal (by decide)), Klee.objectLine_front i _ _⟩
    · exact ⟨clean _ _ (by decide) (newline_not_mem_bytesRepr _), Klee.objectLine_front i _ _⟩
    · exact ih (i + 1) line later

theorem printHeader_lines (r : TextRepr) (file : Str) (k : KTest) :
    ∀ line ∈ printHeader r file k, '\n' ∉ line ∧ "object".toList.isPrefixOf line = false := by
  have list : '\n' ∉ r.list k.args := by
    intro member
    simp only [TextRepr.list, List.mem_append] at member
    rcases member with (bracket | inside) | bracket
    · exact absurd bracket (by decide)
    · rcases mem_intercalate inside with comma | ⟨part, made, here⟩
      · exact absurd comma (by decide)
      · obtain ⟨arg, _, rfl⟩ := List.mem_map.mp made
        exact r.oneLine arg here
    · exact absurd bracket (by decide)
  have clean : ∀ front rest : Str, '\n' ∉ front → '\n' ∉ rest → '\n' ∉ front ++ rest :=
    fun front rest here later member => (List.mem_append.mp member).elim here later
  intro line member
  simp only [printHeader, List.mem_cons, List.not_mem_nil, or_false] at member
  rcases member with rfl | rfl | rfl
  · exact ⟨clean _ _ (by decide) (r.oneLine file), rfl⟩
  · exact ⟨clean _ _ (by decide) list, rfl⟩
  · exact ⟨clean _ _ (by decide) (Klee.not_mem_decimal (by decide)), rfl⟩

/-- The lines in front of the objects are passed over. -/
theorem getTestVector_printed (name origin : Str) {header : List Str} {inputs : List (CIdentifier × Bytes)}
    (oneLine : ∀ line ∈ header, '\n' ∉ line) (other : ∀ line ∈ header, "object".toList.isPrefixOf line = false)
    (escaped : ∀ input ∈ inputs, ∀ b ∈ input.2, isEscaped b = true) :
    Klee.getTestVector name origin (Klee.stdout (header ++ printObjects 0 (inputs.map symbolic))) =
      .ok (vectorOf name origin (inputs.map fun input => (input.1.name, input.2))) := by
  have printed := printObjects_lines 0 (inputs.map symbolic)
  have lines : ((Klee.stdout (header ++ printObjects 0 (inputs.map symbolic))).splitOn '\n').filter
      (fun line => "object".toList.isPrefixOf line) = printObjects 0 (inputs.map symbolic) := by
    have clean : ∀ line ∈ header ++ printObjects 0 (inputs.map symbolic), '\n' ∉ line := fun line member =>
      (List.mem_append.mp member).elim (oneLine line) fun inside => (printed line inside).1
    rw [Klee.stdout, splitOn_flatMap_concat clean, List.filter_append, List.filter_append,
      List.filter_eq_nil_iff.mpr fun line member => Bool.not_eq_true _ ▸ other line member,
      List.filter_eq_self.mpr fun line member => (printed line member).2]
    simp
  have idle : Klee.Reader.Idle ⟨-1, none, none, .new name origin⟩ 0 :=
    ⟨show (-1 : Int) < ((0 : Nat) : Int) by decide, rfl, rfl⟩
  obtain ⟨last, read, vector⟩ := foldlM_printObjects idle escaped
  unfold Klee.getTestVector
  simp only [lines, read]
  refine congrArg Except.ok (vector.trans ?_)
  simp [vectorOf, TestVector.new]

theorem getTestVector_short (r : TextRepr) (name origin : Str) {s : Stored} {front : Bytes} (cut : front <+: s.bytes)
    (short : front.length < s.dataStart) : getTestVector r name origin (some front) = .ok (vectorOf name origin []) := by
  obtain ⟨e, failed⟩ := fromfile_short cut short
  simp only [getTestVector, ktestTool, failed]
  rfl

theorem getTestVector_long (r : TextRepr) (name origin : Str) {s : Stored} {inputs : List (CIdentifier × Bytes)}
    {front : Bytes} (holds : s.objects.map plain = inputs.map symbolic)
    (escaped : ∀ input ∈ inputs, ∀ b ∈ input.2, isEscaped b = true) (cut : front <+: s.bytes)
    (long : s.dataStart ≤ front.length) :
    getTestVector r name origin (some front) = .ok (vectorOf name origin
      ((cutLast (front.length - s.dataStart) inputs).map fun input => (input.1.name, input.2))) := by
  have objects : cutLast (front.length - s.dataStart) (s.objects.map plain) =
      (cutLast (front.length - s.dataStart) inputs).map symbolic := by
    rw [holds]
    exact cutLast_map (fun method : CIdentifier => encode (getSymVarName method.name)) _ inputs
  have kept : ∀ input ∈ cutLast (front.length - s.dataStart) inputs, ∀ b ∈ input.2, isEscaped b = true := by
    intro input member b inside
    obtain ⟨k, here⟩ := List.getElem?_of_mem member
    obtain ⟨whole, present, rfl | rfl⟩ := getElem?_cutLast here
    · exact escaped _ (List.mem_of_getElem? present) b inside
    · exact escaped _ (List.mem_of_getElem? present) b (List.mem_of_mem_take inside)
  have header := printHeader_lines r origin (s.ktest ((cutLast (front.length - s.dataStart) inputs).map symbolic))
  simp only [getTestVector, ktestTool, fromfile_long cut long, Stored.ktest, objects]
  exact getTestVector_printed name origin (fun line member => (header line member).1)
    (fun line member => (header line member).2) kept

/-- A test that KLEE is still writing is taken for one without inputs, until the data of its last input
begins; from there on the vector is complete but for the high bytes of this input. -/
theorem getTestVector_front (r : TextRepr) (name origin : Str) {s : Stored} {inputs : List (CIdentifier × Bytes)}
    {front : Bytes} (holds : s.objects.map plain = inputs.map symbolic)
    (escaped : ∀ input ∈ inputs, ∀ b ∈ input.2, isEscaped b = true) (cut : front <+: s.bytes) :
    getTestVector r name origin (some front) = .ok (vectorOf name origin
      (if front.length < s.dataStart then []
        else (cutLast (front.length - s.dataStart) inputs).map fun input => (input.1.name, input.2))) := by
  by_cases short : front.length < s.dataStart
  · rw [if_pos short]
    exact getTestVector_short r name origin cut short
  · rw [if_neg short]
    exact getTestVector_long r name origin holds escaped cut (Nat.not_lt.mp short)

/-- The `repr` of texts without quotes and control characters. -/
def quoted : TextRepr where
  repr s := '\'' :: s.filter (· ≠ '\n') ++ ['\'']
  oneLine s := by simp

theorem isIdentifier_x :
    (!"x".toList.isEmpty && "x".toList.all isIdentifierChar && "x".toList.head?.all (!·.isDigit)) = true := by decide

def intInput : CIdentifier × Bytes := (.of "x".toList isIdentifier_x, [5, 1, 0, 0])

theorem intInput_escaped : ∀ input ∈ [intInput], ∀ b ∈ input.2, isEscaped b = true :=
  List.forall_mem_singleton.mpr (forall_mem_of_all (by decide))

theorem intFile_vector : getTestVector quoted "test000001".toList "klee-tests/test000001.ktest".toList
    (some (intFile.bytes.take 50)) =
      .ok (vectorOf "test000001".toList "klee-tests/test000001.ktest".toList [("x".toList, [5, 1])]) :=
  @getTestVector_front quoted _ _ intFile [intInput] _ (by decide) intInput_escaped (List.take_prefix 50 _)

end Tbf.Ktest
