import Tbf.Linking

/-!
# The text of the harness

`HarnessCreator.create_harness`: what is compiled behind the program, as the bytes that it returns and as the
functions that these define.
-/

namespace Tbf.HarnessCreator
open Text Harness Linking

def getVectorReadMethod : Str :=
  ["char * parse_inp(char * __inp_var) \x7b",
    "    unsigned int input_length = strlen(__inp_var)-1;",
    "    /* Remove '\\n' at end of input */",
    "    if (__inp_var[input_length] == '\\n') \x7b",
    "        __inp_var[input_length] = '\\0';",
    "    \x7d",
    "",
    "    char * parseEnd;",
    "    char * value_pointer = malloc(16);",
    "",
    "    unsigned long long intVal = strtoull(__inp_var, &parseEnd, 0);",
    "    if (*parseEnd != 0) \x7b",
    "      long long sintVal = strtoll(__inp_var, &parseEnd, 0);",
    "      if (*parseEnd != 0) \x7b",
    "        long double floatVal = strtold(__inp_var, &parseEnd);",
    "        if (*parseEnd != 0) \x7b",
    "          fprintf(stderr, \"Can't parse input: '%s' (failing at '%s')\\n\", __inp_var, parseEnd);",
    "          abort();",
    "",
    "        \x7d else \x7b",
    "          memcpy(value_pointer, &floatVal, 16);",
    "        \x7d",
    "      \x7d else \x7b",
    "        memcpy(value_pointer, &sintVal, 8);",
    "      \x7d",
    "    \x7d else \x7b",
    "      memcpy(value_pointer, &intVal, 8);",
    "    \x7d",
    "",
    "    return value_pointer;",
    "\x7d",
    ""].flatMap fun line => line.toList ++ ['\n']

def getPreamble : Bytes :=
  encode (EXTERNAL_DECLARATIONS ++ '\n' :: getAssumeMethod ++ ['\n']) ++ encode getVectorReadMethod

def getErrorDefinition (methodName : Str) : Bytes :=
  encode ("void ".toList ++ methodName ++ "() \x7b\n    fprintf(stderr, \"".toList ++ ERROR_STRING ++
    "\\n\");\n    exit(1);\n\x7d\n\n".toList)

def getNondetMethodDefinition (testVector : Option TestVector) (method : NondetMethod) : Except Raised Bytes := do
  let methodHead ← getMethodHead method.name method.type method.params
  return encode (methodHead ++ " \x7b\n".toList) ++ bodyText testVector method ++ encode "\x7d\n\n".toList

def getNondetMethodDefinitions (nondetMethods : List NondetMethod) (testVector : Option TestVector) :
    Except Raised Bytes := do
  let definitions ← nondetMethods.mapM (getNondetMethodDefinition testVector)
  return (if testVector.isSome then encode "unsigned int access_counter = 0;\n\n".toList else []) ++ definitions.flatten

def createHarness (nondetMethods : List NondetMethod) (errorMethod : Option Str) (testVector : Option TestVector) :
    Except Raised Bytes := do
  let definitions ← getNondetMethodDefinitions nondetMethods testVector
  return getPreamble ++ ((errorMethod.filter (· ≠ [])).map getErrorDefinition).getD [] ++ definitions

/-! ### The functions of the text -/

/-- What the harness defines by itself, whatever the program is. -/
def ownNames (errorMethod : Option Str) : List Str :=
  "__VERIFIER_assume".toList :: "parse_inp".toList :: errorName errorMethod

def ownDefinitions (errorMethod : Option Str) : List Definition :=
  ⟨"void".toList, "__VERIFIER_assume".toList, "int cond".toList, encode (getAssumeMethod ++ ['\n'])⟩ ::
    ⟨"char *".toList, "parse_inp".toList, "char * __inp_var".toList, encode getVectorReadMethod⟩ ::
    (errorName errorMethod).map fun name => ⟨"void".toList, name, [], getErrorDefinition name⟩

theorem names_ownDefinitions (errorMethod : Option Str) :
    (ownDefinitions errorMethod).map Definition.name = ownNames errorMethod := by
  simp [ownDefinitions, ownNames, Function.comp_def]

theorem blank_space : ∀ c ∈ [' '], isSpace c = true := forall_mem_of_all rfl

theorem functions_ownDefinitions (errorMethod : Option Str) : ∀ d ∈ ownDefinitions errorMethod, FunctionText d := by
  have void : BraceFree "void".toList := by decide
  refine List.forall_mem_cons.mpr ⟨?_, List.forall_mem_cons.mpr ⟨?_, ?_⟩⟩
  · exact (@functionText_encode_iff "void".toList "__VERIFIER_assume".toList "int cond".toList [' ']
      "\n    if(!cond) \x7b\n        abort();\n    \x7d\n".toList "\n\n".toList blank_space (by decide) (by decide)).mpr void
  · exact @functionText_of_lines "char * parse_inp(char * __inp_var) \x7b" _ "char *".toList "parse_inp".toList
      "char * __inp_var".toList [' '] [] "\n\n".toList 29 (by decide) (by decide) blank_space (by decide +kernel) (by decide)
      (by decide)
  · intro d member
    obtain ⟨name, _, rfl⟩ := List.mem_map.mp member
    have text := (@functionText_encode_iff "void".toList name [] [' '] ("\n    fprintf(stderr, \"".toList ++ ERROR_STRING ++
      "\\n\");\n    exit(1);\n".toList) "\n\n".toList blank_space (by decide) (by decide)).mpr void
    simpa [getErrorDefinition] using text

/-- The statements of the generic harness have no braces, unless the type brings one along. -/
theorem balanced_bodyText {method : NondetMethod} (printed : BraceFree method.type) :
    Balanced (encode ['\n'] ++ bodyText none method) := by
  cases void : method.isVoid with
  | true =>
    rw [bodyText, methodBody, if_pos void]
    exact rfl
  | false =>
    have statements : encode ['\n'] ++ bodyText none method = encode (['\n'] ++ "    unsigned int inp_size = 3000;\n".toList ++
        "    char * inp_var = malloc(inp_size);\n".toList ++ "    fgets(inp_var, inp_size, stdin);\n".toList ++
        ("    return *((".toList ++ method.type ++ " *) parse_inp(inp_var));\n".toList)) := by
      rw [bodyText, methodBody, if_neg (by simp [void])]
      change _ ++ [Stmt.declareSize, .mallocBuffer, .fgetsStdin, .returnParsed method.type].flatMap Stmt.render = _
      simp only [List.flatMap_cons, List.flatMap_nil, Stmt.render, encode_append, List.append_assoc, List.append_nil]
    rw [statements]
    apply balanced_of_braceFree
    have front : BraceFree (['\n'] ++ "    unsigned int inp_size = 3000;\n".toList ++
        "    char * inp_var = malloc(inp_size);\n".toList ++ "    fgets(inp_var, inp_size, stdin);\n".toList) := by decide
    exact braceFree_append.mpr ⟨front, braceFree_append.mpr ⟨braceFree_append.mpr ⟨by decide, printed⟩, by decide⟩⟩

theorem nondet_function {method : NondetMethod} (printed : BraceFree method.type) {text : Bytes}
    (made : getNondetMethodDefinition none method = .ok text) :
    FunctionText ⟨method.type, method.name, paramText method.params, text⟩ := by
  obtain ⟨methodHead, headed, made⟩ := bind_ok.mp made
  obtain rfl := Except.ok.inj made
  have function := (functionText_of_methodHead headed blank_space (balanced_bodyText printed)
    (show BraceFree "\n\n".toList by decide)).mpr printed
  have front : methodHead ++ " \x7b\n".toList = methodHead ++ [' '] ++ ['\x7b'] ++ ['\n'] := by simp
  rw [front, encode_append]
  simpa using function

/-- The generic harness is the external declarations and then its own definitions, the error method and the nondet
methods, in this order. -/
theorem createHarness_defines {methods : List NondetMethod} (printed : ∀ method ∈ methods, BraceFree method.type)
    {errorMethod : Option Str} {content : Bytes} (made : createHarness methods errorMethod none = .ok content) :
    ∃ stubs, methods.mapM (stub (getNondetMethodDefinition none) id) = .ok stubs ∧
      DefinedBehind (encode (EXTERNAL_DECLARATIONS ++ ['\n'])) content (ownDefinitions errorMethod ++ stubs) ∧
      stubs.map Definition.name = methods.map NondetMethod.name := by
  obtain ⟨nondets, defined, made⟩ := bind_ok.mp made
  obtain ⟨texts, each, joined⟩ := bind_ok.mp defined
  clear defined
  obtain rfl := Except.ok.inj joined
  obtain rfl := Except.ok.inj made
  obtain ⟨stubs, stubsMade, stubTexts, names, all⟩ := @stubs_of_texts _ _ id _ _ each
  refine ⟨stubs, stubsMade, ⟨?_, ?_⟩, names⟩
  · have error : ((errorMethod.filter (· ≠ [])).map getErrorDefinition).getD [] =
        (errorName errorMethod).flatMap getErrorDefinition := by
      unfold errorName
      cases errorMethod.filter (· ≠ []) <;> simp
    have split : EXTERNAL_DECLARATIONS ++ '\n' :: getAssumeMethod ++ ['\n'] =
        (EXTERNAL_DECLARATIONS ++ ['\n']) ++ (getAssumeMethod ++ ['\n']) := by simp
    rw [List.flatMap_append, stubTexts, List.flatMap_id, ownDefinitions, List.flatMap_cons, List.flatMap_cons, List.flatMap_map,
      error, getPreamble, split, encode_append]
    simp
  · intro d member
    rcases List.mem_append.mp member with own | nondet
    · exact functions_ownDefinitions errorMethod d own
    · obtain ⟨method, inside, text, made, rfl⟩ := all d nondet
      exact nondet_function (printed method inside) made

/-- For every program whose listed functions have a type in one piece, and every error method: the text of the generic
harness is made of these definitions, and the unit of both links if and only if the program does not define or leave
open a name that every harness defines. -/
theorem linked_iff {ast : Node} {errorMethod : Option Str} {fs : List MethodInfo} (unit : IsUnit ast) (handled : Handled ast)
    (found : findUndefinedMethods ast (some (errorName errorMethod)) = .ok fs) (printed : ∀ info ∈ fs, BraceFree info.type)
    {content : Bytes} (made : createHarness (fs.map toMethod) errorMethod none = .ok content) :
    ∃ stubs, (fs.map toMethod).mapM (stub (getNondetMethodDefinition none) id) = .ok stubs ∧
      DefinedBehind (encode (EXTERNAL_DECLARATIONS ++ ['\n'])) content (ownDefinitions errorMethod ++ stubs) ∧
      (Linked ast [] (ownDefinitions errorMethod ++ stubs) ↔
        LeavesNames ast (errorName errorMethod) (ownNames errorMethod)) := by
  obtain ⟨stubs, stubsMade, behind, names⟩ := createHarness_defines (by simpa [toMethod] using printed) made
  refine ⟨stubs, stubsMade, behind, linked_iff_leaves unit handled found ?_ ?_ ?_⟩
  · intro name own
    rcases List.mem_cons.mp own with rfl | own
    · decide
    · rcases List.mem_cons.mp own with rfl | own
      · decide
      · exact errorName_solid own
  · intro name error
    exact Or.inr (List.mem_cons_of_mem _ (List.mem_cons_of_mem _ error))
  · rw [List.map_append, names, names_ownDefinitions]

theorem twoFunctions_linked : ∃ content stubs,
    DefinedBehind (encode (EXTERNAL_DECLARATIONS ++ ['\n'])) content
        (ownDefinitions (some "__VERIFIER_error".toList) ++ stubs) ∧
      (Linked twoFunctions [] (ownDefinitions (some "__VERIFIER_error".toList) ++ stubs) ↔
        LeavesNames twoFunctions excluded (ownNames (some "__VERIFIER_error".toList))) := by
  obtain ⟨stubs, _, behind, linked⟩ := @linked_iff twoFunctions (some "__VERIFIER_error".toList) _ unit_twoFunctions
    handled_twoFunctions found_twoFunctions (by decide) _ rfl
  exact ⟨_, stubs, behind, linked⟩

end Tbf.HarnessCreator
