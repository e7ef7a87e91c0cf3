import Tbf.Library.Words
import Tbf.Linking

/-!
# The program that PRTest is given

`main` is renamed by a replacement in the whole text, and the stubs are put behind it under their own names.
-/

namespace Tbf.RandomTester
open Text Linking

def SUCCESS_EXIT_STATUS : Nat := 147

/-- What `prepare` returns: the program with its new names, and what is appended to it. -/
structure Prepared where
  program : Str
  definitions : List Definition
  deriving DecidableEq, Repr

def Prepared.text (p : Prepared) : Bytes :=
  encode (p.program ++ '\n' :: EXTERNAL_DECLARATIONS ++ ['\n']) ++ p.definitions.flatMap Definition.text

def renameMain (filecontent : Str) : Str := replaceSub "main".toList "__main".toList filecontent

def assumeMethodDefinition : Definition :=
  ⟨"void".toList, "__VERIFIER_assume".toList, "int cond".toList, encode (getAssumeMethod ++ ['\n'])⟩

def getErrorMethodDefinition (errorMethod : Str) : Definition where
  resultType := "void".toList
  name := errorMethod
  params := []
  text := encode ("void ".toList ++ errorMethod ++ "() \x7b fprintf(stderr, \"".toList ++ ERROR_STRING ++
    "\\n\"); exit(".toList ++ Numeral.decimal SUCCESS_EXIT_STATUS ++ "); \x7d\n".toList)

def getNondetMethodDefinition (methodName methodType : Str) (paramTypes : List Str) : Except Raised Definition := do
  let varName := getSymVarName methodName
  let methodHead ← getMethodHead methodName methodType paramTypes
  let methodBody := ["\x7b".toList] ++
    if methodType ≠ "void".toList then
      [methodType ++ ' ' :: varName ++ [';'],
        "input(&".toList ++ varName ++ ", sizeof(".toList ++ varName ++ "), \"".toList ++ varName ++ "\");".toList,
        "return ".toList ++ varName ++ [';']]
    else []
  return ⟨methodType, methodName, paramText paramTypes, encode (methodHead ++ ("\n    ".toList.intercalate methodBody ++ "\n\x7d\n".toList))⟩

/-- `Preprocessor.prepare` -/
def prepare (filecontent : Str) (nondetMethodsUsed : List NondetMethod) (errorMethod : Option Str) :
    Except Raised Prepared := do
  let nondetDefinitions ← nondetMethodsUsed.mapM fun method =>
    getNondetMethodDefinition method.name method.type method.params
  return ⟨renameMain filecontent,
    assumeMethodDefinition :: (errorName errorMethod).map getErrorMethodDefinition ++ nondetDefinitions⟩

/-! ### Calls and definitions -/

def WordIn (text x : Str) : Prop := ∃ front back, WordAt isIdentifierChar text front x back

/-- How a C parser reads program texts: the places where a function is called by its name. Declarations are no calls,
comments and parentheses around the name do not matter. The renamed text is read like the text, since the parser
tells names apart from keywords only, and no keyword has `main` in it. -/
structure CReading where
  called : Str → Str → Str → Str → Prop
  word : ∀ {text front x back}, called text front x back → WordAt isIdentifierChar text front x back
  renamed : ∀ {text front x back}, WordAt isIdentifierChar text front x back →
    (called (renameMain text) (renameMain front) (renameMain x) (renameMain back) ↔ called text front x back)

def CReading.Calls (reading : CReading) (text x : Str) : Prop := ∃ front back, reading.called text front x back

/-- The appended text has a definition of the function. -/
def Prepared.Defines (p : Prepared) (x : Str) : Prop :=
  ∃ d ∈ p.definitions, d.name = x ∧ FunctionText d

/-- The functions that have to be defined for the program. -/
def stubs (nondetMethodsUsed : List NondetMethod) (errorMethod : Option Str) : List Str :=
  errorName errorMethod ++ nondetMethodsUsed.map NondetMethod.name

/-- A function of this name is appended, and its type is printed in one piece. -/
def Appended (nondetMethodsUsed : List NondetMethod) (errorMethod : Option Str) (x : Str) : Prop :=
  x = "__VERIFIER_assume".toList ∨ x ∈ errorName errorMethod ∨
    ∃ method ∈ nondetMethodsUsed, method.name = x ∧ BraceFree method.type

/-- Where the prepared program calls a stub, under the name it has there, this name is defined behind the program,
and the renaming makes no two identifiers of the program one. -/
structure KeepsTogether (reading : CReading) (filecontent : Str) (stubs : List Str) (prepared : Prepared) : Prop where
  calls : ∀ x ∈ stubs, reading.Calls prepared.program (renameMain x) → prepared.Defines (renameMain x)
  distinct : ∀ x y, WordIn filecontent x → WordIn filecontent y → renameMain x = renameMain y → x = y

theorem main_solid : "main".toList ≠ [] := by decide

theorem keepsWords_renameMain : KeepsWords isIdentifierChar renameMain :=
  keepsWords_replaceSub main_solid (by decide) (forall_mem_of_all (by decide)) (forall_mem_of_all (by decide))

theorem renameMain_injective : Function.Injective renameMain := by
  have foreign : ∀ c ∈ "__".toList, c ∉ "main".toList := forall_mem_of_all (by decide)
  have marked : "__".toList ≠ [] := by decide
  exact replaceSub_mark_injective marked main_solid foreign

theorem main_infix_renameMain {x : Str} (found : "main".toList <:+: x) : "main".toList <:+: renameMain x := by
  have inNew : "main".toList <:+: "__main".toList := ⟨"__".toList, [], rfl⟩
  exact inNew.trans (new_infix_replaceSub main_solid found)

theorem renameMain_of_absent {x : Str} (absent : ¬ "main".toList <:+: x) : renameMain x = x :=
  replaceSub_of_absent absent

theorem length_lt_renameMain {x : Str} (found : "main".toList <:+: x) : x.length < (renameMain x).length :=
  length_lt_replaceSub main_solid (by decide) found

/-- The calls of the renamed program are the calls of the program, under their new names. -/
theorem CReading.calls_renameMain (reading : CReading) {text x : Str} :
    reading.Calls (renameMain text) (renameMain x) ↔ reading.Calls text x := by
  constructor
  · rintro ⟨front', back', called⟩
    obtain ⟨front, x', back, place, rfl, same, rfl⟩ := (reading.word called).of_map keepsWords_renameMain
    obtain rfl := renameMain_injective same
    exact ⟨front, back, (reading.renamed place).mp called⟩
  · rintro ⟨front, back, called⟩
    exact ⟨renameMain front, renameMain back, (reading.renamed (reading.word called)).mpr called⟩

theorem braceFree_of_calls {reading : CReading} {text x : Str} (calls : reading.Calls text x) : BraceFree x := by
  obtain ⟨front, back, called⟩ := calls
  have letters := (reading.word called).chars
  constructor
  all_goals
    intro member
    have letter := letters _ member
    revert letter
    decide

/-! ### The names that are defined -/

theorem assumeMethodDefinition_function : FunctionText assumeMethodDefinition := by
  have blank : ∀ c ∈ [' '], isSpace c = true := forall_mem_of_all rfl
  exact (@functionText_encode_iff "void".toList "__VERIFIER_assume".toList "int cond".toList [' ']
    "\n    if(!cond) \x7b\n        abort();\n    \x7d\n".toList "\n\n".toList blank (by decide) (by decide)).mpr (by decide)

theorem getErrorMethodDefinition_function (errorMethod : Str) : FunctionText (getErrorMethodDefinition errorMethod) := by
  have blank : ∀ c ∈ [' '], isSpace c = true := forall_mem_of_all rfl
  have shape : "void ".toList ++ errorMethod ++ "() \x7b fprintf(stderr, \"".toList ++ ERROR_STRING ++
      "\\n\"); exit(".toList ++ Numeral.decimal SUCCESS_EXIT_STATUS ++ "); \x7d\n".toList =
      "void".toList ++ ' ' :: errorMethod ++ '(' :: [] ++ ')' :: [' '] ++ '\x7b' :: (" fprintf(stderr, \"".toList ++ ERROR_STRING ++
        "\\n\"); exit(".toList ++ Numeral.decimal SUCCESS_EXIT_STATUS ++ "); ".toList) ++ '\x7d' :: ['\n'] := by simp
  rw [getErrorMethodDefinition, shape]
  exact (functionText_encode_iff blank (by decide) (by decide)).mpr (by decide)

theorem getNondetMethodDefinition_ok {method : NondetMethod} {d : Definition}
    (made : getNondetMethodDefinition method.name method.type method.params = .ok d) :
    d.name = method.name ∧ (BraceFree method.name → (FunctionText d ↔ BraceFree method.type)) := by
  obtain ⟨methodHead, headed, made⟩ := bind_ok.mp made
  obtain rfl := Except.ok.inj made
  refine ⟨rfl, fun name => ⟨And.left, fun type => ?_⟩⟩
  have varName : BraceFree (getSymVarName method.name) := braceFree_append.mpr ⟨by decide, name⟩
  obtain ⟨inside, body, clean⟩ := exists_inside (if method.type ≠ "void".toList then _ else [])
  rw [body]
  have plain : BraceFree inside := by
    refine clean fun line member => ?_
    split at member
    · simp only [List.mem_cons, List.not_mem_nil, or_false] at member
      rcases member with rfl | rfl | rfl <;> simp [type, varName]
    · cases member
  have function := (@functionText_of_methodHead method methodHead headed [] ['\n']
    (fun _ member => absurd member List.not_mem_nil) _ (balanced_of_braceFree plain) (by decide)).mpr type
  rw [← encode_append, ← encode_append] at function
  simpa using function

theorem nondetDefinitions_made {nondetMethodsUsed : List NondetMethod} {nondetDefinitions : List Definition}
    (made : (nondetMethodsUsed.mapM fun method =>
      getNondetMethodDefinition method.name method.type method.params) = .ok nondetDefinitions) {x : Str} (plain : BraceFree x) :
    (∃ d ∈ nondetDefinitions, d.name = x ∧ FunctionText d) ↔
      ∃ method ∈ nondetMethodsUsed, method.name = x ∧ BraceFree method.type := by
  induction mapM_ok_iff.mp made with
  | nil => simp
  | cons here later ih =>
    obtain ⟨name, function⟩ := getNondetMethodDefinition_ok here
    rw [List.exists_mem_cons_iff, List.exists_mem_cons_iff, ih (mapM_ok_iff.mpr later), name]
    exact or_congr_left (and_congr_right fun same => function (same ▸ plain))

/-- Of the names that C allows, exactly those are defined behind the program whose type is printed in one piece. -/
theorem defines_iff {filecontent : Str} {nondetMethodsUsed : List NondetMethod} {errorMethod : Option Str} {p : Prepared}
    (returned : prepare filecontent nondetMethodsUsed errorMethod = .ok p) {x : Str} (plain : BraceFree x) :
    p.Defines x ↔ Appended nondetMethodsUsed errorMethod x := by
  obtain ⟨nondetDefinitions, made, same⟩ := bind_ok.mp returned
  cases same
  have error : (∃ d ∈ (errorName errorMethod).map getErrorMethodDefinition, d.name = x ∧ FunctionText d) ↔
      x ∈ errorName errorMethod := by
    constructor
    · rintro ⟨d, member, rfl, _⟩
      obtain ⟨name, inside, rfl⟩ := List.mem_map.mp member
      exact inside
    · intro member
      exact ⟨_, List.mem_map_of_mem member, rfl, getErrorMethodDefinition_function x⟩
  have assume : (assumeMethodDefinition.name = x ∧ FunctionText assumeMethodDefinition) ↔ x = "__VERIFIER_assume".toList :=
    (and_iff_left assumeMethodDefinition_function).trans eq_comm
  rw [Prepared.Defines, List.cons_append, List.exists_mem_cons_iff, assume, Appended, ← error, ← nondetDefinitions_made made plain]
  refine or_congr_right ?_
  simp only [List.mem_append, or_and_right, exists_or]

theorem program_eq {filecontent : Str} {nondetMethodsUsed : List NondetMethod} {errorMethod : Option Str} {p : Prepared}
    (returned : prepare filecontent nondetMethodsUsed errorMethod = .ok p) : p.program = renameMain filecontent := by
  obtain ⟨nondetDefinitions, _, same⟩ := bind_ok.mp returned
  cases same
  rfl

/-! ### Stubs and their calls -/

section Together

variable {filecontent : Str} {nondetMethodsUsed : List NondetMethod} {errorMethod : Option Str} {p : Prepared}
  (returned : prepare filecontent nondetMethodsUsed errorMethod = .ok p)

include returned

theorem call_defined_iff (reading : CReading) (x : Str) :
    (reading.Calls p.program (renameMain x) → p.Defines (renameMain x)) ↔
      (reading.Calls filecontent x → Appended nondetMethodsUsed errorMethod (renameMain x)) := by
  rw [program_eq returned]
  constructor
  · intro together called
    have renamed := reading.calls_renameMain.mpr called
    exact (defines_iff returned (braceFree_of_calls renamed)).mp (together renamed)
  · intro appended renamed
    exact (defines_iff returned (braceFree_of_calls renamed)).mpr (appended (reading.calls_renameMain.mp renamed))

/-- Where the program calls all its stubs, none of them may have `main` in its name: renaming would lead from one
stub to a longer one without end. -/
theorem no_main_of_together {reading : CReading}
    (called : ∀ x ∈ stubs nondetMethodsUsed errorMethod, reading.Calls filecontent x)
    (together : KeepsTogether reading filecontent (stubs nondetMethodsUsed errorMethod) p) :
    ∀ x ∈ stubs nondetMethodsUsed errorMethod, ¬ "main".toList <:+: x := by
  intro x member found
  have longer : ∀ n, ∃ y ∈ stubs nondetMethodsUsed errorMethod, "main".toList <:+: y ∧ n ≤ y.length := by
    intro n
    induction n with
    | zero => exact ⟨x, member, found, Nat.zero_le _⟩
    | succ n ih =>
      obtain ⟨y, member, found, long⟩ := ih
      have condition := (call_defined_iff returned reading y).mp (together.calls y member)
      have inName := main_infix_renameMain found
      have length := length_lt_renameMain found
      refine ⟨renameMain y, ?_, inName, by omega⟩
      rcases condition (called y member) with assume | error | ⟨method, listed, name, _⟩
      · rw [assume] at inName
        exact absurd inName (by decide)
      · exact List.mem_append_left _ error
      · exact List.mem_append_right _ (name ▸ List.mem_map_of_mem listed)
  obtain ⟨y, member, _, long⟩ := longer ((stubs nondetMethodsUsed errorMethod).flatten.length + 1)
  have bound := (List.sublist_flatten_of_mem member).length_le
  omega

/-- Without `main` in the name of a stub nothing is torn apart. -/
theorem together_of_no_main (reading : CReading) (noMain : ∀ x ∈ stubs nondetMethodsUsed errorMethod, ¬ "main".toList <:+: x)
    (printed : ∀ method ∈ nondetMethodsUsed, BraceFree method.type) :
    KeepsTogether reading filecontent (stubs nondetMethodsUsed errorMethod) p := by
  refine ⟨fun x member => (call_defined_iff returned reading x).mpr fun _ => ?_, fun x y _ _ same => renameMain_injective same⟩
  rw [renameMain_of_absent (noMain x member)]
  rcases List.mem_append.mp member with error | nondet
  · exact Or.inr (Or.inl error)
  · obtain ⟨method, listed, name⟩ := List.mem_map.mp nondet
    exact Or.inr (Or.inr ⟨method, listed, name, printed method listed⟩)

/-- Stubs and calls stay together if and only if each stub that is called has a name that the renaming leaves, or makes
the name of another function that is appended. -/
theorem keepsTogether_iff (reading : CReading) :
    KeepsTogether reading filecontent (stubs nondetMethodsUsed errorMethod) p ↔
      ∀ x ∈ stubs nondetMethodsUsed errorMethod, reading.Calls filecontent x →
        Appended nondetMethodsUsed errorMethod (renameMain x) := by
  constructor
  · intro together x member
    exact (call_defined_iff returned reading x).mp (together.calls x member)
  · intro condition
    refine ⟨?_, fun x y _ _ same => renameMain_injective same⟩
    intro x member
    exact (call_defined_iff returned reading x).mpr (condition x member)

end Together

/-- The calls of programs that call functions in simple assignments only: `=` in front of the name and a parenthesis
behind it. -/
def assignments : CReading where
  called text front x back := WordAt isIdentifierChar text front x back ∧ front.getLast? = some '=' ∧ back.head? = some '('
  word called := called.1
  renamed place := by
    rw [keepsWords_renameMain.getLast?_eq place.left, keepsWords_renameMain.head?_eq place.right]
    exact and_congr_left fun _ => iff_of_true (place.map keepsWords_renameMain) place

/-- `domain` is called and has to be defined, with `main` in its name. -/
def domainProgram : Str := "int domain(void);int main()\x7bint x=domain();return x;\x7d".toList

def domainMethod : NondetMethod := ⟨"domain".toList, "int".toList, ["void".toList]⟩

theorem calls_domainProgram : assignments.Calls domainProgram "domain".toList := by
  refine ⟨"int domain(void);int main()\x7bint x=".toList, "();return x;\x7d".toList, ?_, rfl, rfl⟩
  exact ⟨by decide, by decide, forall_mem_of_all (by decide), forall_mem_option_of_all (by decide),
    forall_mem_option_of_all (by decide)⟩

/-- The program calls `do__main`, and what is defined for it is `domain`. -/
theorem domain_not_together : ∃ p, prepare domainProgram [domainMethod] none = .ok p ∧
    ¬ KeepsTogether assignments domainProgram (stubs [domainMethod] none) p := by
  have returned : prepare domainProgram [domainMethod] none = .ok _ := rfl
  refine ⟨_, returned, fun together => ?_⟩
  have member : "domain".toList ∈ stubs [domainMethod] none := by decide
  have called := assignments.calls_renameMain.mpr calls_domainProgram
  rcases (defines_iff returned (by decide)).mp (together.calls _ member called) with assume | error | ⟨method, listed, name, _⟩
  · exact absurd assume (by decide)
  · cases error
  · obtain rfl := List.mem_singleton.mp listed
    exact absurd name (by decide)

/-- A stub without `main` in its name. -/
def nondetMethod : NondetMethod := ⟨"__VERIFIER_nondet_int".toList, "int".toList, []⟩

def nondetProgram : Str := "int main()\x7bint x=__VERIFIER_nondet_int();return x;\x7d".toList

theorem keepsTogether_iff_nondet : ∃ p, prepare nondetProgram [nondetMethod] none = .ok p ∧
    (KeepsTogether assignments nondetProgram (stubs [nondetMethod] none) p ↔
      ∀ x ∈ stubs [nondetMethod] none, assignments.Calls nondetProgram x → Appended [nondetMethod] none (renameMain x)) := by
  have returned : prepare nondetProgram [nondetMethod] none = .ok _ := rfl
  exact ⟨_, returned, keepsTogether_iff returned assignments⟩

end Tbf.RandomTester
