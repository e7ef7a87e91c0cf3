import Tbf.Harness
import Tbf.UndefinedMethods

/-!
# A program and what is put behind it

The program and the functions that are made for it are one translation unit. Every function of it has to be defined
in one place.
-/

namespace Tbf.Linking
open Text

/-! ### The functions of a text -/

def BraceFree (text : Str) : Prop := '\x7b' ∉ text ∧ '\x7d' ∉ text

instance (text : Str) : Decidable (BraceFree text) := inferInstanceAs (Decidable (_ ∧ _))

/-- How many braces are open behind a text, `none` where one is closed that was not open. -/
def openBraces : Nat → Bytes → Option Nat
  | depth, [] => some depth
  | depth, b :: rest =>
    if b = 123 then openBraces (depth + 1) rest
    else if b = 125 then if depth = 0 then none else openBraces (depth - 1) rest
    else openBraces depth rest

/-- What stands between the braces of one body. -/
def Balanced (body : Bytes) : Prop := openBraces 0 body = some 0

instance (body : Bytes) : Decidable (Balanced body) := inferInstanceAs (Decidable (_ = _))

/-- A function that is defined: the type of its result, its name, its parameters, and the whole text. -/
structure Definition where
  resultType : Str
  name : Str
  params : Str
  text : Bytes
  deriving DecidableEq, Repr

/-- The text is the head of the function and one body: its type, which has no place for a name left in it, its name and
parameters, and braces that close at the end. -/
def FunctionText (d : Definition) : Prop :=
  BraceFree d.resultType ∧ ∃ (gap rest : Str) (body : Bytes),
    d.text = encode (d.resultType ++ ' ' :: d.name ++ '(' :: d.params ++ ')' :: gap ++ ['\x7b']) ++ body ++
        encode ('\x7d' :: rest) ∧
      (∀ c ∈ gap, isSpace c = true) ∧ Balanced body ∧ BraceFree rest

/-- The parameters in the head that `get_method_head` writes. -/
def paramText (params : List Str) : Str := ", ".toList.intercalate ((headParams params).toOption.getD [])

/-- These definitions and nothing else stand behind the front. -/
structure DefinedBehind (front content : Bytes) (definitions : List Definition) : Prop where
  content : content = front ++ definitions.flatMap Definition.text
  functions : ∀ d ∈ definitions, FunctionText d

/-- The name of the error method, if there is one: the empty name counts as none. -/
def errorName (errorMethod : Option Str) : List Str := (errorMethod.filter (· ≠ [])).toList

/-- A method of `find_nondet_methods` as it is handed on. -/
def toMethod (info : MethodInfo) : NondetMethod := ⟨info.name.getD [], info.type, info.params⟩

/-- No function is defined twice in the unit, and what the program declares is defined in it, by the C library or by
what the unit is made for. -/
structure Linked (ast : Node) (provided : List Str) (definitions : List Definition) : Prop where
  once : (definitions.map Definition.name).Nodup
  apart : ∀ name ∈ definitions.map Definition.name, ¬ Defines ast name
  complete : ∀ path f name, Declares ast path f → getName f.node = .ok (some name) → name ≠ [] →
    Defines ast name ∨ name ∈ IMPLICIT_FUNCTIONS ∨ name ∈ provided ∨ name ∈ definitions.map Definition.name

/-- The program leaves the names alone that are defined for every program, and these are different. -/
structure LeavesNames (ast : Node) (excludes own : List Str) : Prop where
  different : own.Nodup
  undefined : ∀ name ∈ own, ¬ Defines ast name
  unlisted : ∀ name ∈ own, ¬ Undefined ast excludes name

theorem errorName_solid {errorMethod : Option Str} {name : Str} (error : name ∈ errorName errorMethod) : name ≠ [] := by
  simpa using (Option.mem_filter_iff.mp (Option.mem_toList.mp error)).2

/-! ### Texts of definitions -/

@[simp] theorem braceFree_nil : BraceFree [] := ⟨List.not_mem_nil, List.not_mem_nil⟩

@[simp] theorem braceFree_append {s t : Str} : BraceFree (s ++ t) ↔ BraceFree s ∧ BraceFree t := by
  simp only [BraceFree, List.mem_append, not_or]
  tauto

@[simp] theorem braceFree_cons {c : Char} {s : Str} : BraceFree (c :: s) ↔ (c ≠ '\x7b' ∧ c ≠ '\x7d') ∧ BraceFree s := by
  simp only [BraceFree, List.mem_cons, not_or, @eq_comm _ _ c]
  tauto

theorem braceFree_intercalate {sep : Str} {parts : List Str} (plain : BraceFree sep) (each : ∀ part ∈ parts, BraceFree part) :
    BraceFree (sep.intercalate parts) := by
  constructor
  all_goals
    intro member
    rcases mem_intercalate member with inSep | ⟨part, inParts, inPart⟩
  · exact plain.1 inSep
  · exact (each part inParts).1 inPart
  · exact plain.2 inSep
  · exact (each part inParts).2 inPart

theorem balanced_of_braceFree {body : Str} (plain : BraceFree body) : Balanced (encode body) := by
  have free : ∀ b ∈ encode body, b ≠ 123 ∧ b ≠ 125 := by
    intro b member
    constructor
    all_goals
      rintro rfl
      obtain ⟨c, inside, code⟩ := (mem_encode_ascii (by decide)).mp member
    · exact plain.1 ((Char.toNat_inj.mp code : c = '\x7b') ▸ inside)
    · exact plain.2 ((Char.toNat_inj.mp code : c = '\x7d') ▸ inside)
  unfold Balanced
  generalize encode body = bytes at free
  induction bytes with
  | nil => rfl
  | cons b bytes ih =>
    obtain ⟨⟨noOpen, noClose⟩, later⟩ := List.forall_mem_cons.mp free
    rw [openBraces, if_neg noOpen, if_neg noClose]
    exact ih later

theorem functionText_iff {resultType name params gap rest : Str} {body : Bytes} (blank : ∀ c ∈ gap, isSpace c = true)
    (balanced : Balanced body) (last : BraceFree rest) :
    FunctionText ⟨resultType, name, params, encode (resultType ++ ' ' :: name ++ '(' :: params ++ ')' :: gap ++ ['\x7b']) ++
      body ++ encode ('\x7d' :: rest)⟩ ↔ BraceFree resultType :=
  and_iff_left ⟨gap, rest, body, rfl, blank, balanced, last⟩

/-- The same where the body is a text as well. -/
theorem functionText_encode_iff {resultType name params gap body rest : Str} (blank : ∀ c ∈ gap, isSpace c = true)
    (balanced : Balanced (encode body)) (last : BraceFree rest) :
    FunctionText ⟨resultType, name, params, encode (resultType ++ ' ' :: name ++ '(' :: params ++ ')' :: gap ++
      '\x7b' :: body ++ '\x7d' :: rest)⟩ ↔ BraceFree resultType := by
  have split : resultType ++ ' ' :: name ++ '(' :: params ++ ')' :: gap ++ '\x7b' :: body ++ '\x7d' :: rest =
      resultType ++ ' ' :: name ++ '(' :: params ++ ')' :: gap ++ ['\x7b'] ++ body ++ '\x7d' :: rest := by simp
  rw [split, encode_append, encode_append]
  exact functionText_iff blank balanced last

def unlines (lines : List String) : Str := lines.flatMap fun line => line.toList ++ ['\n']

/-- A fixed text, whose first line and last lines can be looked at. -/
theorem functionText_of_lines {first : String} {lines : List String} {resultType name params gap pad rest : Str} (k : Nat)
    (head : first.toList = resultType ++ ' ' :: name ++ '(' :: params ++ ')' :: gap ++ ['\x7b'])
    (closing : unlines (lines.drop k) = pad ++ '\x7d' :: rest) (blank : ∀ c ∈ gap, isSpace c = true)
    (balanced : Balanced (encode ('\n' :: unlines (lines.take k) ++ pad))) (last : BraceFree rest)
    (plain : BraceFree resultType) :
    FunctionText ⟨resultType, name, params, encode (unlines (first :: lines))⟩ := by
  have split : unlines (first :: lines) = first.toList ++ '\n' :: (unlines (lines.take k) ++ unlines (lines.drop k)) := by
    rw [unlines, List.flatMap_cons, ← List.take_append_drop k lines, List.flatMap_append]
    simp [unlines]
  have function := (@functionText_encode_iff resultType name params gap ('\n' :: unlines (lines.take k) ++ pad) rest blank
    balanced last).mpr plain
  rw [split, closing, head]
  simpa using function

theorem getMethodHead_eq {method : NondetMethod} {head : Str}
    (made : getMethodHead method.name method.type method.params = .ok head) :
    head = method.type ++ ' ' :: method.name ++ '(' :: paramText method.params ++ [')'] := by
  obtain ⟨params, shown, made⟩ := bind_ok.mp made
  obtain rfl := Except.ok.inj made
  rw [paramText, shown]
  rfl

theorem functionText_of_methodHead {method : NondetMethod} {head : Str}
    (made : getMethodHead method.name method.type method.params = .ok head) {gap rest : Str}
    (blank : ∀ c ∈ gap, isSpace c = true) {body : Bytes} (balanced : Balanced body) (last : BraceFree rest) :
    FunctionText ⟨method.type, method.name, paramText method.params,
      encode (head ++ gap ++ ['\x7b']) ++ body ++ encode ('\x7d' :: rest)⟩ ↔ BraceFree method.type := by
  have text := @functionText_iff method.type method.name (paramText method.params) gap rest body blank balanced last
  rw [getMethodHead_eq made]
  simpa using text

/-- The lines of a body, between its braces. -/
theorem exists_inside (lines : List Str) : ∃ inside,
    "\n    ".toList.intercalate (["\x7b".toList] ++ lines) ++ "\n\x7d\n".toList = '\x7b' :: inside ++ '\x7d' :: ['\n'] ∧
      ((∀ line ∈ lines, BraceFree line) → BraceFree inside) := by
  by_cases none : lines = []
  · exact ⟨['\n'], by rw [none]; rfl, fun _ => by decide⟩
  · refine ⟨"\n    ".toList ++ "\n    ".toList.intercalate lines ++ ['\n'], ?_, fun plain => ?_⟩
    · rw [List.singleton_append, List.intercalate_cons_of_ne_nil none]
      simp
    · have indent : BraceFree "\n    ".toList := by decide
      exact braceFree_append.mpr ⟨braceFree_append.mpr ⟨indent, braceFree_intercalate indent plain⟩, by decide⟩

/-- The definition of a method, from what makes its text. -/
def stub {τ : Type} (define : NondetMethod → Except Raised τ) (bytes : τ → Bytes) (method : NondetMethod) :
    Except Raised Definition := do
  let text ← define method
  return ⟨method.type, method.name, paramText method.params, bytes text⟩

/-- One definition for each method, in the order of the methods. -/
theorem stubs_of_texts {τ : Type} {define : NondetMethod → Except Raised τ} {bytes : τ → Bytes} {methods : List NondetMethod}
    {texts : List τ} (made : methods.mapM define = .ok texts) : ∃ stubs, methods.mapM (stub define bytes) = .ok stubs ∧
      stubs.flatMap Definition.text = texts.flatMap bytes ∧ stubs.map Definition.name = methods.map NondetMethod.name ∧
      ∀ d ∈ stubs, ∃ method ∈ methods, ∃ text, define method = .ok text ∧
        d = ⟨method.type, method.name, paramText method.params, bytes text⟩ := by
  induction mapM_ok_iff.mp made with
  | nil => exact ⟨[], rfl, rfl, rfl, nofun⟩
  | @cons method text methods texts here later ih =>
    obtain ⟨stubs, each, joined, names, all⟩ := ih (mapM_ok_iff.mpr later)
    refine ⟨⟨method.type, method.name, paramText method.params, bytes text⟩ :: stubs, ?_, ?_, ?_, ?_⟩
    · rw [List.mapM_cons, stub, here, each]
      rfl
    · rw [List.flatMap_cons, List.flatMap_cons, joined]
    · rw [List.map_cons, List.map_cons, names]
    · refine List.forall_mem_cons.mpr ⟨⟨method, List.mem_cons_self, text, here, rfl⟩, fun d member => ?_⟩
      obtain ⟨other, inside, made⟩ := all d member
      exact ⟨other, List.mem_cons_of_mem _ inside, made⟩

section
variable {ast : Node} {excludes own provided : List Str} {fs : List MethodInfo}

/-! ### The stubs -/

/-- A name is listed, and once, if and only if it is declared and nothing defines it. -/
theorem stubs_spec (unit : IsUnit ast) (handled : Handled ast)
    (listed : findUndefinedMethods ast (some excludes) = .ok fs) :
    (fs.map MethodInfo.name).Nodup ∧ (∀ info ∈ fs, ∃ name, info.name = some name) ∧
      ∀ name, some name ∈ fs.map MethodInfo.name ↔ name ≠ [] ∧ Undefined ast excludes name := by
  obtain ⟨prepared, made, found⟩ := findUndefinedMethods_eq unit handled (some excludes)
  obtain rfl := Except.ok.inj (made.symm.trans listed)
  refine ⟨nodup_listOnce _ _, fun info member => ?_, listed_iff handled found⟩
  obtain ⟨name, _, _, here⟩ := mem_listOnce.mp member
  exact ⟨name, name_of_find here⟩

theorem names_toMethod (named : ∀ info ∈ fs, ∃ name, info.name = some name) :
    fs.map MethodInfo.name = (fs.map fun info => (toMethod info).name).map some := by
  rw [List.map_map]
  refine List.map_congr_left fun info member => ?_
  obtain ⟨name, same⟩ := named info member
  simp [toMethod, same]

/-- The unit of the program and the definitions for it links if and only if the program leaves the names alone that
are defined for every program. The names that the search leaves out have to be among these or defined elsewhere. -/
theorem linked_iff_leaves (unit : IsUnit ast) (handled : Handled ast)
    (found : findUndefinedMethods ast (some excludes) = .ok fs)
    (solid : ∀ name ∈ own, name ≠ []) (covered : ∀ name ∈ excludes, name ∈ provided ∨ name ∈ own)
    {definitions : List Definition}
    (names : definitions.map Definition.name = own ++ (fs.map toMethod).map NondetMethod.name) :
    Linked ast provided definitions ↔ LeavesNames ast excludes own := by
  obtain ⟨distinct, named, undefined⟩ := stubs_spec unit handled found
  rw [List.map_map] at names
  have same := names_toMethod named
  have stubs : ∀ name, name ∈ fs.map (NondetMethod.name ∘ toMethod) ↔ name ≠ [] ∧ Undefined ast excludes name := by
    intro name
    refine Iff.trans ?_ (undefined name)
    rw [same, List.mem_map_of_injective (Option.some_injective _)]
    rfl
  have stubsOnce : (fs.map (NondetMethod.name ∘ toMethod)).Nodup := by
    rw [same] at distinct
    exact distinct.of_map _
  constructor
  · intro linked
    have once := linked.once
    rw [names] at once
    refine ⟨once.of_append_left, fun name here => linked.apart name (names ▸ List.mem_append_left _ here), ?_⟩
    intro name here left
    exact List.disjoint_of_nodup_append once here ((stubs _).mpr ⟨solid name here, left⟩)
  · intro leaves
    refine ⟨?_, ?_, ?_⟩
    · rw [names]
      refine leaves.different.append stubsOnce fun name here stub => ?_
      exact leaves.unlisted name here ((stubs name).mp stub).2
    · rw [names]
      intro name member
      rcases List.mem_append.mp member with here | stub
      · exact leaves.undefined name here
      · exact ((stubs name).mp stub).2.undefined
    · rw [names]
      intro path f name declares itsName solid
      by_cases defined : Defines ast name
      · exact Or.inl defined
      · by_cases implicit : name ∈ IMPLICIT_FUNCTIONS
        · exact Or.inr (Or.inl implicit)
        · refine Or.inr (Or.inr ?_)
          by_cases excluded : name ∈ excludes
          · exact (covered name excluded).imp_right fun here => List.mem_append_left _ here
          · refine Or.inr (List.mem_append_right _ ((stubs name).mpr ⟨solid, ⟨path, f, declares, itsName⟩, defined, implicit, excluded⟩))

end

def excluded : List Str := errorName (some "__VERIFIER_error".toList)

theorem found_twoFunctions : findUndefinedMethods twoFunctions (some excluded) =
    .ok [⟨some ['f'], "int".toList, ["int".toList]⟩] := by
  have defs : Visitor.NodeTree.visit syntaxTree visitDef twoFunctions = [prototype ['g'] (intNode (some ['g']))] := by
    simp [twoFunctions, prototype, ofInt, FuncDecl.node, intNode, Visitor.NodeTree.visit_eq, visitDef, children_syntaxTree,
      Node.children]
  have decls : Visitor.NodeTree.visit syntaxTree visitDecl twoFunctions =
      [ofInt (intNode (some ['f'])), ofInt (intNode (some ['g']))] := by
    simp [twoFunctions, prototype, FuncDecl.node, Visitor.NodeTree.visit_eq, visitDecl, children_syntaxTree, Node.children]
  have kept : withoutDefinitions ([some ['g']] ++ IMPLICIT_FUNCTIONS.map some ++ excluded.map some)
      [ofInt (intNode (some ['f'])), ofInt (intNode (some ['g']))] = .ok [ofInt (intNode (some ['f']))] := by
    have free : ([some ['g']] ++ IMPLICIT_FUNCTIONS.map some ++ excluded.map some).contains (some ['f']) = false := by
      rw [List.contains_eq_mem, decide_eq_false_iff_not, List.mem_append, List.mem_append, List.mem_map_of_injective (Option.some_injective _),
        List.mem_map_of_injective (Option.some_injective _)]
      rintro ((other | implicit) | left)
      · exact absurd other (by decide)
      · exact f_explicit implicit
      · exact absurd left (by decide)
    have taken : ([some ['g']] ++ IMPLICIT_FUNCTIONS.map some ++ excluded.map some).contains (some ['g']) = true := rfl
    have f : getName (ofInt (intNode (some ['f']))).node = .ok (some ['f']) := rfl
    have g : getName (ofInt (intNode (some ['g']))).node = .ok (some ['g']) := rfl
    simp only [withoutDefinitions, f, g, bind, Except.bind, pure, Except.pure, free, taken]
    rfl
  have named : (Visitor.NodeTree.visit syntaxTree visitDef twoFunctions).mapM nameAttribute = .ok [some ['g']] := by
    rw [defs]
    rfl
  have filtered : withoutDefinitions ([some ['g']] ++ IMPLICIT_FUNCTIONS.map some ++ excluded.map some)
      (Visitor.NodeTree.visit syntaxTree visitDecl twoFunctions) = .ok [ofInt (intNode (some ['f']))] := by
    rw [decls]
    exact kept
  have prepared : [ofInt (intNode (some ['f']))].mapM (fun f => prettify f.args f.type) =
      .ok [⟨some ['f'], "int".toList, ["int".toList]⟩] := rfl
  exact @findUndefinedMethods_ok twoFunctions (some excluded) _ _ _ named filtered prepared

end Tbf.Linking
