import Tbf.Linking

/-!
# The programs that the tools are given

AFL, CREST, CPATiger, KLEE and the dummy tool put the same parts behind the program, each with texts of its own.
-/

namespace Tbf
open Text Linking

/-- The texts in which the tools differ: what comes before the common declarations, what comes behind the assume
method, and the definitions of the error method and of a nondet method. -/
structure Preprocessor where
  includes : Str
  helpers : Str
  getErrorMethodDefinition : Str → Str
  getNondetMethodDefinition : Str → Str → List Str → Except Raised Str

/-- `Preprocessor.prepare` -/
def Preprocessor.prepare (p : Preprocessor) (filecontent : Str) (nondetMethodsUsed : List NondetMethod)
    (errorMethod : Option Str) : Except Raised Str := do
  let definitions ← nondetMethodsUsed.mapM fun method =>
    p.getNondetMethodDefinition method.name method.type method.params
  return filecontent ++ '\n' :: p.includes ++ EXTERNAL_DECLARATIONS ++ '\n' :: getAssumeMethod ++ p.helpers ++
    (errorName errorMethod).flatMap p.getErrorMethodDefinition ++ definitions.flatten

/-- `utils.get_error_method_definition` -/
def getErrorMethodDefinition (errorMethod : Str) : Str :=
  "void ".toList ++ errorMethod ++ "() \x7b fprintf(stderr, \"".toList ++ ERROR_STRING ++ "\\n\"); exit(1); \x7d\n".toList

/-- A method of these statements, each on a line of its own. -/
def methodOf (statements : Str → Str → List Str) (methodName methodType : Str) (paramTypes : List Str) :
    Except Raised Str := do
  let methodHead ← getMethodHead methodName methodType paramTypes
  let methodBody := ["\x7b".toList] ++ if methodType ≠ "void".toList then statements methodName methodType else []
  return methodHead ++ ("\n    ".toList.intercalate methodBody ++ "\n\x7d\n".toList)

namespace Afl

def getVectorReadMethod : Str :=
  ["char * parse_inp(char * __inp_var) \x7b",
    "        unsigned int input_length = strlen(__inp_var)-1;",
    "        /* Remove '\\n' at end of input */",
    "        if (__inp_var[input_length] == '\\n') \x7b",
    "            __inp_var[input_length] = '\\0';",
    "        \x7d",
    "",
    "        char * parseEnd;",
    "        char * value_pointer = malloc(16);",
    "",
    "        unsigned long long intVal = strtoull(__inp_var, &parseEnd, 0);",
    "        if (*parseEnd != 0) \x7b",
    "          long long sintVal = strtoll(__inp_var, &parseEnd, 0);",
    "          if (*parseEnd != 0) \x7b",
    "            long double floatVal = strtold(__inp_var, &parseEnd);",
    "            if (*parseEnd != 0) \x7b",
    "              fprintf(stderr, \"Can't parse input: '%s' (failing at '%s')\\n\", __inp_var, parseEnd);",
    "              abort();",
    "",
    "            \x7d else \x7b",
    "              memcpy(value_pointer, &floatVal, 16);",
    "            \x7d",
    "          \x7d else \x7b",
    "            memcpy(value_pointer, &sintVal, 8);",
    "          \x7d",
    "        \x7d else \x7b",
    "          memcpy(value_pointer, &intVal, 8);",
    "        \x7d",
    "",
    "        return value_pointer;",
    "    \x7d",
    ""].flatMap fun line => line.toList ++ ['\n']

def getNondetMethodDefinition (methodName methodType : Str) (methodParam : List Str) : Except Raised Str := do
  let methodHead ← getMethodHead methodName methodType methodParam
  return methodHead ++ (" \x7b\n".toList ++
    (if methodType ≠ "void".toList then
      "    unsigned int inp_size = 3000;\n".toList ++ "    char * inp_var = malloc(inp_size);\n".toList ++
        "    fgets(inp_var, inp_size, stdin);\n".toList ++
        ("    return *((".toList ++ methodType ++ "*) parse_inp(inp_var));\n".toList)
    else []) ++ " \x7d\n".toList)

def preprocessor : Preprocessor where
  includes := []
  helpers := '\n' :: getVectorReadMethod
  getErrorMethodDefinition := Tbf.getErrorMethodDefinition
  getNondetMethodDefinition := getNondetMethodDefinition

end Afl

namespace Klee

def getNondetMethodDefinition : Str → Str → List Str → Except Raised Str :=
  methodOf fun methodName methodType =>
    let varName := getSymVarName methodName
    [methodType ++ ' ' :: varName ++ [';'],
      "klee_make_symbolic(&".toList ++ varName ++ ", sizeof(".toList ++ varName ++ "), \"".toList ++ varName ++
        "\");".toList,
      "return ".toList ++ varName ++ [';']]

def preprocessor : Preprocessor where
  includes := []
  helpers := []
  getErrorMethodDefinition := Tbf.getErrorMethodDefinition
  getNondetMethodDefinition := getNondetMethodDefinition

end Klee

namespace Crest

def isSupportedType (methodType : Str) : Bool :=
  (["_Bool", "long long", "long long int", "long", "long int", "int", "short", "char", "unsigned long long",
    "unsigned long long int", "unsigned long", "unsigned long int", "unsigned int", "unsigned short",
    "unsigned char"].map String.toList).contains methodType

/-- The type of the variable that CREST makes symbolic. -/
def internalType (methodType : Str) : Str :=
  if !(methodType == "void".toList || isSupportedType methodType) then "unsigned long long".toList
  else if methodType = "_Bool".toList then "char".toList
  else methodType

def markerMethodCall (internalType : Str) : Str :=
  "CREST_".toList ++ "_".toList.intercalate ((internalType.splitOnP isSpace).filter (· ≠ []))

def getNondetMethodDefinition : Str → Str → List Str → Except Raised Str :=
  methodOf fun methodName methodType =>
    let internalType := internalType methodType
    let varName := getSymVarName methodName
    [internalType ++ ' ' :: varName ++ [';'], markerMethodCall internalType ++ '(' :: varName ++ ");".toList,
      if methodType = internalType then "return ".toList ++ varName ++ [';']
      else "return (".toList ++ methodType ++ ") ".toList ++ varName ++ [';']]

def preprocessor : Preprocessor where
  includes := "#include<crest.h>\n\n".toList
  helpers := ['\n']
  getErrorMethodDefinition := Tbf.getErrorMethodDefinition
  getNondetMethodDefinition := getNondetMethodDefinition

end Crest

namespace CpaTiger

/-- CPATiger looks for `__VERIFIER_error` by itself. -/
def getErrorMethodDefinition (errorMethod : Str) : Str :=
  if errorMethod = "__VERIFIER_error".toList then []
  else "void ".toList ++ errorMethod ++ "() \x7b __VERIFIER_error(); \x7d".toList

def getNondetMethodDefinition : Str → Str → List Str → Except Raised Str :=
  methodOf fun _ methodType => ["return (".toList ++ methodType ++ ") input();".toList]

def preprocessor : Preprocessor where
  includes := []
  helpers := "\nextern int input();\n".toList
  getErrorMethodDefinition := getErrorMethodDefinition
  getNondetMethodDefinition := getNondetMethodDefinition

end CpaTiger

namespace Dummy

def getNondetMethodDefinition : Str → Str → List Str → Except Raised Str :=
  methodOf fun _ methodType => ["return *((".toList ++ methodType ++ "*) 0);".toList]

def preprocessor : Preprocessor where
  includes := []
  helpers := []
  getErrorMethodDefinition := Tbf.getErrorMethodDefinition
  getNondetMethodDefinition := getNondetMethodDefinition

end Dummy

/-! ### The functions behind the program -/

namespace Preprocessor

inductive Tool where
  | afl | crest | cpaTiger | klee | dummy
  deriving DecidableEq, Repr

def Tool.preprocessor : Tool → Preprocessor
  | afl => Afl.preprocessor
  | crest => Crest.preprocessor
  | cpaTiger => CpaTiger.preprocessor
  | klee => Klee.preprocessor
  | dummy => Dummy.preprocessor

/-- What a tool has a definition of itself. -/
def Tool.provided : Tool → List Str
  | cpaTiger => ["__VERIFIER_error".toList]
  | _ => []

/-- The functions that stand behind every program for the tool. -/
def Tool.ownNames (tool : Tool) (errorMethod : Option Str) : List Str :=
  "__VERIFIER_assume".toList :: (if tool = .afl then ["parse_inp".toList] else []) ++
    (errorName errorMethod).filter fun name => !tool.provided.contains name

/-- What stands in front of the definitions. -/
def front (p : Preprocessor) (filecontent : Str) : Str :=
  filecontent ++ '\n' :: p.includes ++ EXTERNAL_DECLARATIONS ++ ['\n']

/-- What stands behind every program for the tool. Declarations between the definitions are counted to the one in front
of them. -/
def Tool.ownDefinitions (tool : Tool) (errorMethod : Option Str) : List Definition :=
  ⟨"void".toList, "__VERIFIER_assume".toList, "int cond".toList,
      encode (getAssumeMethod ++ if tool = .afl then ['\n'] else tool.preprocessor.helpers)⟩ ::
    (if tool = .afl then [⟨"char *".toList, "parse_inp".toList, "char * __inp_var".toList, encode Afl.getVectorReadMethod⟩] else []) ++
    ((errorName errorMethod).filter fun name => !tool.provided.contains name).map fun name =>
      ⟨"void".toList, name, [], encode (tool.preprocessor.getErrorMethodDefinition name)⟩

theorem Tool.names_ownDefinitions (tool : Tool) (errorMethod : Option Str) :
    (tool.ownDefinitions errorMethod).map Definition.name = tool.ownNames errorMethod := by
  rw [Tool.ownDefinitions, Tool.ownNames, List.map_append, List.map_cons, List.map_map]
  congr 1
  · split <;> rfl
  · exact List.map_id _

/-- The text of a stub is its head and one body in braces. -/
def Braced (head text : Str) : Prop :=
  ∃ gap body rest, text = head ++ gap ++ '\x7b' :: body ++ '\x7d' :: rest ∧ (∀ c ∈ gap, isSpace c = true) ∧ BraceFree body ∧
    BraceFree rest

theorem methodOf_headed {define : Str → Str → List Str → Except Raised Str} {statements : Str → Str → List Str}
    (same : define = methodOf statements) {methodName methodType text : Str} {params : List Str}
    (plain : methodType ≠ "void".toList → ∀ line ∈ statements methodName methodType, BraceFree line)
    (made : define methodName methodType params = .ok text) :
    ∃ head, getMethodHead methodName methodType params = .ok head ∧ Braced head text := by
  subst same
  obtain ⟨head, headed, made⟩ := bind_ok.mp made
  obtain rfl := Except.ok.inj made
  obtain ⟨inside, body, clean⟩ := exists_inside (if methodType ≠ "void".toList then statements methodName methodType else [])
  refine ⟨head, headed, [], inside, ['\n'], ?_, fun _ member => absurd member List.not_mem_nil, clean ?_, by decide⟩
  · rw [body]
    simp
  · split
    · exact plain ‹_›
    · simp

theorem braceFree_getSymVarName {methodName : Str} (name : BraceFree methodName) : BraceFree (getSymVarName methodName) :=
  braceFree_append.mpr ⟨by decide, name⟩

/-- CREST knows the types by their names, which have no braces. -/
theorem braceFree_internalType {methodType : Str} (value : methodType ≠ "void".toList) :
    BraceFree (Crest.internalType methodType) ∧ BraceFree (Crest.markerMethodCall (Crest.internalType methodType)) := by
  unfold Crest.internalType
  by_cases supported : Crest.isSupportedType methodType = true
  · have all : ∀ t ∈ ["_Bool", "long long", "long long int", "long", "long int", "int", "short", "char", "unsigned long long",
        "unsigned long long int", "unsigned long", "unsigned long int", "unsigned int", "unsigned short",
        "unsigned char"].map String.toList, BraceFree t ∧ BraceFree (Crest.markerMethodCall t) := by decide
    have known := all _ (List.contains_iff_mem.mp supported)
    have first : (!(methodType == "void".toList || Crest.isSupportedType methodType)) = false := by simp [supported]
    rw [first, if_neg (by simp)]
    split
    · decide
    · exact known
  · have first : (!(methodType == "void".toList || Crest.isSupportedType methodType)) = true := by
      rw [Bool.eq_false_iff.mpr supported, Bool.or_false, Bool.not_eq_true', beq_eq_false_iff_ne]
      exact value
    rw [if_pos first]
    decide

theorem nondet_headed (tool : Tool) {methodName methodType text : Str} {params : List Str} (name : BraceFree methodName)
    (type : BraceFree methodType) (made : tool.preprocessor.getNondetMethodDefinition methodName methodType params = .ok text) :
    ∃ head, getMethodHead methodName methodType params = .ok head ∧ Braced head text := by
  have varName := braceFree_getSymVarName name
  cases tool with
  | afl =>
    obtain ⟨head, headed, made⟩ := bind_ok.mp made
    obtain rfl := Except.ok.inj made
    have shape : ∀ statements : Str, head ++ (" \x7b\n".toList ++ statements ++ " \x7d\n".toList) =
        head ++ [' '] ++ '\x7b' :: ('\n' :: statements ++ [' ']) ++ '\x7d' :: ['\n'] := fun _ => by simp
    refine ⟨head, headed, [' '], _, ['\n'], shape _, forall_mem_of_all rfl, ?_, by decide⟩
    split <;> simp [type]
  | crest =>
    refine methodOf_headed (show Crest.getNondetMethodDefinition = methodOf _ from rfl) (fun value line member => ?_) made
    obtain ⟨internal, marker⟩ := braceFree_internalType value
    simp only [List.mem_cons, List.not_mem_nil, or_false] at member
    rcases member with rfl | rfl | rfl
    · simp [internal, varName]
    · simp [marker, varName]
    · split <;> simp [type, varName]
  | cpaTiger =>
    refine methodOf_headed (show CpaTiger.getNondetMethodDefinition = methodOf _ from rfl) (fun _ line member => ?_) made
    obtain rfl := List.mem_singleton.mp member
    simp [type]
  | klee =>
    refine methodOf_headed (show Klee.getNondetMethodDefinition = methodOf _ from rfl) (fun _ line member => ?_) made
    simp only [List.mem_cons, List.not_mem_nil, or_false] at member
    rcases member with rfl | rfl | rfl <;> simp [type, varName]
  | dummy =>
    refine methodOf_headed (show Dummy.getNondetMethodDefinition = methodOf _ from rfl) (fun _ line member => ?_) made
    obtain rfl := List.mem_singleton.mp member
    simp [type]

theorem nondet_function (tool : Tool) {method : NondetMethod} (name : BraceFree method.name) (type : BraceFree method.type)
    {text : Str} (made : tool.preprocessor.getNondetMethodDefinition method.name method.type method.params = .ok text) :
    FunctionText ⟨method.type, method.name, paramText method.params, encode text⟩ := by
  obtain ⟨head, headed, gap, body, rest, rfl, blank, plain, last⟩ := nondet_headed tool name type made
  have function := (functionText_of_methodHead headed blank (balanced_of_braceFree plain) last).mpr type
  rw [← encode_append, ← encode_append] at function
  simpa using function

theorem assume_function {rest : Str} (last : BraceFree rest) :
    FunctionText ⟨"void".toList, "__VERIFIER_assume".toList, "int cond".toList, encode (getAssumeMethod ++ rest)⟩ := by
  have blank : ∀ c ∈ [' '], isSpace c = true := forall_mem_of_all rfl
  have behind : BraceFree ('\n' :: rest) := braceFree_cons.mpr ⟨by decide, last⟩
  have text := (@functionText_encode_iff "void".toList "__VERIFIER_assume".toList "int cond".toList [' ']
    "\n    if(!cond) \x7b\n        abort();\n    \x7d\n".toList ('\n' :: rest) blank (by decide) behind).mpr (by decide)
  have split : getAssumeMethod = "void".toList ++ ' ' :: "__VERIFIER_assume".toList ++ '(' :: "int cond".toList ++ ')' :: [' '] ++
      '\x7b' :: "\n    if(!cond) \x7b\n        abort();\n    \x7d\n".toList ++ '\x7d' :: ['\n'] := rfl
  rw [split, List.append_assoc]
  exact text

theorem error_function (tool : Tool) {errorMethod : Str} (unknown : errorMethod ∉ tool.provided) :
    FunctionText ⟨"void".toList, errorMethod, [], encode (tool.preprocessor.getErrorMethodDefinition errorMethod)⟩ := by
  have blank : ∀ c ∈ [' '], isSpace c = true := forall_mem_of_all rfl
  have common : FunctionText ⟨"void".toList, errorMethod, [], encode (Tbf.getErrorMethodDefinition errorMethod)⟩ := by
    have shape : Tbf.getErrorMethodDefinition errorMethod = "void".toList ++ ' ' :: errorMethod ++ '(' :: [] ++ ')' :: [' '] ++
        '\x7b' :: (" fprintf(stderr, \"".toList ++ ERROR_STRING ++ "\\n\"); exit(1); ".toList) ++ '\x7d' :: ['\n'] := by
      change ("void".toList ++ [' ']) ++ errorMethod ++ ('(' :: ')' :: ' ' :: '\x7b' :: " fprintf(stderr, \"".toList) ++
        ERROR_STRING ++ ("\\n\"); exit(1); ".toList ++ '\x7d' :: ['\n']) = _
      simp only [List.append_assoc, List.cons_append, List.nil_append]
    rw [shape]
    exact (functionText_encode_iff blank (by decide) (by decide)).mpr (by decide)
  cases tool with
  | afl => exact common
  | crest => exact common
  | klee => exact common
  | dummy => exact common
  | cpaTiger =>
    have text := (@functionText_encode_iff "void".toList errorMethod [] [' '] " __VERIFIER_error(); ".toList [] blank
      (by decide) (by decide)).mpr (by decide)
    have other : errorMethod ≠ "__VERIFIER_error".toList := by simpa [Tool.provided] using unknown
    change FunctionText ⟨_, _, _, encode (CpaTiger.getErrorMethodDefinition errorMethod)⟩
    rw [CpaTiger.getErrorMethodDefinition, if_neg other]
    simpa using text

theorem functions_ownDefinitions (tool : Tool) (errorMethod : Option Str) :
    ∀ d ∈ tool.ownDefinitions errorMethod, FunctionText d := by
  intro d member
  rcases List.mem_append.mp member with fixed | error
  · rcases List.mem_cons.mp fixed with rfl | read
    · refine assume_function ?_
      cases tool <;> decide
    · by_cases afl : tool = .afl
      · rw [if_pos afl] at read
        obtain rfl := List.mem_singleton.mp read
        exact @functionText_of_lines "char * parse_inp(char * __inp_var) \x7b" _ "char *".toList "parse_inp".toList
          "char * __inp_var".toList [' '] "    ".toList "\n\n".toList 29 (by decide) (by decide) (forall_mem_of_all rfl)
          (by decide +kernel) (by decide) (by decide)
      · rw [if_neg afl] at read
        cases read
  · obtain ⟨name, kept, rfl⟩ := List.mem_map.mp error
    exact error_function tool (by simpa using (List.mem_filter.mp kept).2)

/-- What the tools have no definition of is not in their texts. -/
theorem error_texts (tool : Tool) (errorMethod : Option Str) :
    (((errorName errorMethod).filter fun name => !tool.provided.contains name).map fun name =>
        (⟨"void".toList, name, [], encode (tool.preprocessor.getErrorMethodDefinition name)⟩ : Definition)).flatMap Definition.text =
      encode ((errorName errorMethod).flatMap tool.preprocessor.getErrorMethodDefinition) := by
  unfold errorName
  cases errorMethod.filter (· ≠ []) with
  | none => rfl
  | some name =>
    by_cases known : name ∈ tool.provided
    · have itself : tool = .cpaTiger ∧ name = "__VERIFIER_error".toList := by
        cases tool <;> simp [Tool.provided] at known ⊢
        exact known
      obtain ⟨rfl, rfl⟩ := itself
      rfl
    · simp [known]

/-- The prepared program is the program, declarations, and then these definitions. -/
theorem prepare_defines (tool : Tool) {filecontent content : Str} {methods : List NondetMethod}
    (plain : ∀ method ∈ methods, BraceFree method.name ∧ BraceFree method.type) {errorMethod : Option Str}
    (made : tool.preprocessor.prepare filecontent methods errorMethod = .ok content) :
    ∃ stubs, methods.mapM (stub (fun method =>
        tool.preprocessor.getNondetMethodDefinition method.name method.type method.params) encode) = .ok stubs ∧
      DefinedBehind (encode (tool.preprocessor.front filecontent)) (encode content) (tool.ownDefinitions errorMethod ++ stubs) ∧
      stubs.map Definition.name = methods.map NondetMethod.name := by
  obtain ⟨texts, each, made⟩ := bind_ok.mp made
  obtain rfl := Except.ok.inj made
  obtain ⟨stubs, stubsMade, stubTexts, names, all⟩ := @stubs_of_texts _ _ encode _ _ each
  refine ⟨stubs, stubsMade, ⟨?_, ?_⟩, names⟩
  · have joined : texts.flatMap encode = encode texts.flatten := by
      rw [← List.flatMap_id, encode, List.flatMap_assoc]
      rfl
    have helpers : encode (getAssumeMethod ++ if tool = .afl then ['\n'] else tool.preprocessor.helpers) ++
        (if tool = .afl then [(⟨"char *".toList, "parse_inp".toList, "char * __inp_var".toList, encode Afl.getVectorReadMethod⟩ : Definition)]
          else []).flatMap Definition.text = encode (getAssumeMethod ++ tool.preprocessor.helpers) := by
      cases tool with
      | afl =>
        rw [if_pos rfl, if_pos rfl, List.flatMap_singleton, ← encode_append, List.append_assoc]
        rfl
      | _ => exact List.append_nil _
    rw [List.flatMap_append, stubTexts, joined, Tool.ownDefinitions, List.flatMap_append, List.flatMap_cons, error_texts,
      helpers, front, ← encode_append, ← encode_append, ← encode_append]
    simp
  · intro d member
    rcases List.mem_append.mp member with own | nondet
    · exact functions_ownDefinitions tool errorMethod d own
    · obtain ⟨method, inside, text, made, rfl⟩ := all d nondet
      exact nondet_function tool (plain method inside).1 (plain method inside).2 made

theorem plain_toMethod {fs : List MethodInfo} (named : ∀ info ∈ fs, ∀ name, info.name = some name → BraceFree name)
    (printed : ∀ info ∈ fs, BraceFree info.type) :
    ∀ method ∈ fs.map toMethod, BraceFree method.name ∧ BraceFree method.type := by
  intro method member
  obtain ⟨info, inside, rfl⟩ := List.mem_map.mp member
  refine ⟨?_, printed info inside⟩
  cases given : info.name with
  | none => simp [toMethod, given]
  | some name => simpa [toMethod, given] using named info inside name given

/-- For every tool that gets stubs, every program whose listed functions have a type in one piece, and every error
method: the prepared program is made of these definitions, and links if and only if the program does not define or leave
open a name that is defined for every program. -/
theorem prepared_linked_iff (tool : Tool) {ast : Node} {errorMethod : Option Str} {fs : List MethodInfo} (unit : IsUnit ast)
    (handled : Handled ast) (found : findUndefinedMethods ast (some (errorName errorMethod)) = .ok fs)
    (named : ∀ info ∈ fs, ∀ name, info.name = some name → BraceFree name) (printed : ∀ info ∈ fs, BraceFree info.type)
    {filecontent content : Str} (made : tool.preprocessor.prepare filecontent (fs.map toMethod) errorMethod = .ok content) :
    ∃ stubs, (fs.map toMethod).mapM (stub (fun method =>
        tool.preprocessor.getNondetMethodDefinition method.name method.type method.params) encode) = .ok stubs ∧
      DefinedBehind (encode (tool.preprocessor.front filecontent)) (encode content) (tool.ownDefinitions errorMethod ++ stubs) ∧
      (Linked ast tool.provided (tool.ownDefinitions errorMethod ++ stubs) ↔
        LeavesNames ast (errorName errorMethod) (tool.ownNames errorMethod)) := by
  obtain ⟨stubs, stubsMade, behind, names⟩ := prepare_defines tool (plain_toMethod named printed) made
  refine ⟨stubs, stubsMade, behind, linked_iff_leaves unit handled found ?_ ?_ ?_⟩
  · intro name own
    rcases List.mem_append.mp own with own | error
    · rcases List.mem_cons.mp own with rfl | own
      · decide
      · split at own
        · obtain rfl := List.mem_singleton.mp own
          decide
        · cases own
    · exact errorName_solid (List.mem_of_mem_filter error)
  · intro name error
    by_cases known : name ∈ tool.provided
    · exact Or.inl known
    · exact Or.inr (List.mem_append_right _ (List.mem_filter.mpr ⟨error, by simpa using known⟩))
  · rw [List.map_append, names, Tool.names_ownDefinitions]

theorem twoFunctions_prepared : ∃ content stubs,
    DefinedBehind (encode (CpaTiger.preprocessor.front "int f(int x); int g(int x) \x7b \x7d".toList)) (encode content)
        (Tool.cpaTiger.ownDefinitions (some "__VERIFIER_error".toList) ++ stubs) ∧
      (Linked twoFunctions ["__VERIFIER_error".toList] (Tool.cpaTiger.ownDefinitions (some "__VERIFIER_error".toList) ++ stubs) ↔
        LeavesNames twoFunctions excluded ["__VERIFIER_assume".toList]) := by
  obtain ⟨stubs, _, behind, linked⟩ := @prepared_linked_iff .cpaTiger twoFunctions (some "__VERIFIER_error".toList) _
    unit_twoFunctions handled_twoFunctions found_twoFunctions (by decide) (by decide) _ _ rfl
  exact ⟨_, stubs, behind, linked⟩

end Preprocessor

end Tbf
