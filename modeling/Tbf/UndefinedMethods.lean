import Tbf.Ast
import Tbf.ImplicitFunctions
import Tbf.Library.Visitor
import Tbf.MethodHead

/-!
# The undefined functions of a program

Two visitors collect the declarators and the definitions of functions; what is declared and not defined
gets a stub, once.
-/

namespace Tbf
open Text Visitor

/-! ### The collectors -/

def syntaxTree : NodeTree Node where
  children := Node.children
  grounded := Subrelation.wf Node.sizeOf_lt_of_mem_children (measure sizeOf).wf

theorem children_syntaxTree (n : Node) : syntaxTree.children n = n.children := rfl

/-- A function declarator as `FuncDeclCollector` keeps it. -/
structure FuncDecl where
  args : Option Node
  type : Node

def FuncDecl.node (f : FuncDecl) : Node := .funcDecl f.args f.type

/-- The methods of `FuncDeclCollector`. -/
def visitDecl : Node → Option (Option FuncDecl)
  | .funcDecl args type => some (some ⟨args, type⟩)
  | .ptrDecl _ _ | .typedef _ _ => some none
  | _ => none

/-- The method of `FuncDefCollector`. -/
def visitDef : Node → Option (Option Node)
  | .funcDef declaration _ _ => some (some declaration)
  | _ => none

/-- The attribute `name` of a node. -/
def nameAttribute : Node → Except Raised (Option Str)
  | .decl name _ _ _ _ | .typedef name _ | .struct name _ | .union name _ | .enum name _ => .ok name
  | _ => .error .attributeError

/-- The declarators whose names are not among the definitions. -/
def withoutDefinitions (definitions : List (Option Str)) : List FuncDecl → Except Raised (List FuncDecl)
  | [] => .ok []
  | f :: fs => do
    let name ← getName f.node
    let rest ← withoutDefinitions definitions fs
    return if definitions.contains name then rest else f :: rest

/-- The last loop: every name that was not there before, and is not empty. -/
def listOnce (names : List Str) : List MethodInfo → List MethodInfo
  | [] => []
  | f :: fs => match f.name with
    | none => listOnce names fs
    | some name => if name ≠ [] ∧ name ∉ names then f :: listOnce (name :: names) fs else listOnce names fs

/-- `_find_undefined_methods`, for a program that is parsed. -/
def findUndefinedMethods (ast : Node) (excludes : Option (List Str)) : Except Raised (List MethodInfo) := do
  let functionDeclarations := syntaxTree.visit visitDecl ast
  let functionDefinitions ← (syntaxTree.visit visitDef ast).mapM nameAttribute
  let functionDefinitions := functionDefinitions ++ IMPLICIT_FUNCTIONS.map some
  let functionDefinitions := functionDefinitions ++ (excludes.getD []).map some
  let undefFuncPrepared ← withoutDefinitions functionDefinitions functionDeclarations
  let undefFuncPrepared ← undefFuncPrepared.mapM fun f => prettify f.args f.type
  return listOnce [] undefFuncPrepared

/-! ### Which functions are undefined -/

/-- Declarators of functions and of pointers, and typedefs: what is inside of them declares no function. -/
def Encloses : Node → Prop
  | .funcDecl _ _ | .ptrDecl _ _ | .typedef _ _ => True
  | _ => False

/-- A function declarator at this path of the tree, outside of all that encloses. -/
def Declares (ast : Node) (path : List Nat) (f : FuncDecl) : Prop := syntaxTree.At Encloses ast path f.node

/-- The tree defines a function of this name. -/
def Defines (ast : Node) (name : Str) : Prop :=
  ∃ path declaration body params, syntaxTree.At (fun _ => False) ast path (.funcDef declaration body params) ∧
    nameAttribute declaration = .ok (some name)

structure Undefined (ast : Node) (excludes : List Str) (name : Str) : Prop where
  declared : ∃ path f, Declares ast path f ∧ getName f.node = .ok (some name)
  undefined : ¬ Defines ast name
  explicit : name ∉ IMPLICIT_FUNCTIONS
  included : name ∉ excludes

/-- The first declarator of this name, in the order of the tree. -/
def FirstDeclarator (ast : Node) (name : Str) (f : FuncDecl) : Prop :=
  ∃ path, Declares ast path f ∧ getName f.node = .ok (some name) ∧
    ∀ path' f', Declares ast path' f' → getName f'.node = .ok (some name) → ¬ path' < path

/-- A translation unit: definitions stand at the top, and each declares its function by a `Decl`. -/
structure IsUnit (ast : Node) : Prop where
  file : ∃ ext, ast = .other ext
  top : ∀ path declaration body params, syntaxTree.At (fun _ => False) ast path (.funcDef declaration body params) →
    path.length = 1 ∧ ∃ name quals type init bitsize, declaration = .decl name quals type init bitsize

/-- `get_name` and `get_type` have no trouble with any declarator. -/
def Handled (ast : Node) : Prop := ∀ path f, Declares ast path f → ∃ info, prettify f.args f.type = .ok info

/-! ### What the collectors find -/

theorem visitDecl_isSome {n : Node} : (visitDecl n).isSome = true ↔ Encloses n := by
  cases n <;> simp [visitDecl, Encloses]

theorem visitDecl_eq {n : Node} {f : FuncDecl} : visitDecl n = some (some f) ↔ n = f.node := by
  constructor
  · intro adds
    cases n with
    | funcDecl args type => rw [← Option.some.inj (Option.some.inj adds), FuncDecl.node]
    | _ => cases adds
  · rintro rfl
    rfl

theorem spots_decls (ast : Node) : NodeTree.Spots (Declares ast) (syntaxTree.visit visitDecl ast) := by
  obtain ⟨spots, values, grows, all⟩ := NodeTree.visit_spots (T := syntaxTree) visitDecl ast
  refine ⟨spots, values, grows, fun path f => (all path f).trans ?_⟩
  constructor
  · rintro ⟨m, found, adds⟩
    obtain rfl := visitDecl_eq.mp adds
    exact found.mono fun n => visitDecl_isSome.mpr
  · intro found
    exact ⟨f.node, NodeTree.At.mono found fun n => visitDecl_isSome.mp, visitDecl_eq.mpr rfl⟩

/-- All definitions of a unit are found: none is inside of another. -/
theorem mem_defs {ast : Node} (unit : IsUnit ast) {declaration : Node} : declaration ∈ syntaxTree.visit visitDef ast ↔
    ∃ path body params, syntaxTree.At (fun _ => False) ast path (.funcDef declaration body params) := by
  rw [(NodeTree.visit_spots (T := syntaxTree) visitDef ast).mem_iff]
  constructor
  · rintro ⟨path, m, found, adds⟩
    cases m with
    | funcDef d body params =>
      obtain rfl := Option.some.inj (Option.some.inj adds)
      exact ⟨path, body, params, found.mono fun _ => False.elim⟩
    | _ => cases adds
  · rintro ⟨path, body, params, found⟩
    obtain ⟨short, _⟩ := unit.top path declaration body params found
    obtain ⟨ext, rfl⟩ := unit.file
    cases found with
    | through _ child rest =>
      cases rest with
      | here => exact ⟨_, _, .through (by simp [visitDef]) child (.here _), rfl⟩
      | through => cases short

theorem defines_iff {ast : Node} (unit : IsUnit ast) : ∃ names, (syntaxTree.visit visitDef ast).mapM nameAttribute = .ok names ∧
    ∀ name, some name ∈ names ↔ Defines ast name := by
  have named : ∀ declaration ∈ syntaxTree.visit visitDef ast, ∃ name, nameAttribute declaration = .ok name := by
    intro declaration member
    obtain ⟨path, body, params, found⟩ := (mem_defs unit).mp member
    obtain ⟨_, name, quals, type, init, bitsize, rfl⟩ := unit.top path declaration body params found
    exact ⟨name, rfl⟩
  obtain ⟨names, made⟩ := exists_mapM_ok named
  refine ⟨names, made, fun name => ?_⟩
  rw [mem_of_mapM made]
  constructor
  · rintro ⟨declaration, member, same⟩
    obtain ⟨path, body, params, found⟩ := (mem_defs unit).mp member
    exact ⟨path, declaration, body, params, found, same⟩
  · rintro ⟨path, declaration, body, params, found, same⟩
    exact ⟨declaration, (mem_defs unit).mpr ⟨path, body, params, found⟩, same⟩

/-! ### What is left of the declarators -/

theorem name_of_prettify {f : FuncDecl} {info : MethodInfo} (made : prettify f.args f.type = .ok info) :
    getName f.node = .ok info.name := by
  obtain ⟨name, named, made⟩ := bind_ok.mp made
  obtain ⟨type, _, made⟩ := bind_ok.mp made
  obtain ⟨params, _, made⟩ := bind_ok.mp made
  obtain rfl := Except.ok.inj made
  exact named

/-- The filter and the texts keep the first declarator of every name that is not defined. -/
theorem prepared_spec (definitions : List (Option Str)) {fs : List FuncDecl}
    (handled : ∀ f ∈ fs, ∃ info, prettify f.args f.type = .ok info) : ∃ kept prepared,
      withoutDefinitions definitions fs = .ok kept ∧ kept.mapM (fun f => prettify f.args f.type) = .ok prepared ∧
      ∀ name info, prepared.find? (fun g => g.name = some name) = some info ↔ some name ∉ definitions ∧
        ∃ f, fs.find? (fun f => getName f.node = .ok (some name)) = some f ∧ prettify f.args f.type = .ok info := by
  induction fs with
  | nil => exact ⟨[], [], rfl, rfl, by simp⟩
  | cons f fs ih =>
    obtain ⟨⟨own, made⟩, others⟩ := List.forall_mem_cons.mp handled
    obtain ⟨kept, prepared, filtered, mapped, found⟩ := ih others
    have named := name_of_prettify made
    by_cases defined : own.name ∈ definitions
    · refine ⟨kept, prepared, ?_, mapped, fun name info => ?_⟩
      · simp [withoutDefinitions, named, filtered, bind, Except.bind, pure, Except.pure, defined]
      · rw [found, List.find?_cons, named]
        refine and_congr_right fun free => ?_
        have other : own.name ≠ some name := fun same => free (same ▸ defined)
        simp [other]
    · refine ⟨f :: kept, own :: prepared, ?_, ?_, fun name info => ?_⟩
      · simp [withoutDefinitions, named, filtered, bind, Except.bind, pure, Except.pure, defined]
      · rw [List.mapM_cons, made, mapped]
        rfl
      · rw [List.find?_cons, List.find?_cons, named]
        by_cases same : own.name = some name
        · simp only [same, decide_true]
          constructor
          · intro first
            obtain rfl := Option.some.inj first
            exact ⟨same ▸ defined, f, rfl, made⟩
          · rintro ⟨_, f', first, made'⟩
            obtain rfl := Option.some.inj first
            exact congrArg some (Except.ok.inj (made.symm.trans made'))
        · simp only [same, decide_false, Except.ok.injEq]
          exact found name info

theorem name_of_find {fs : List MethodInfo} {name : Str} {info : MethodInfo}
    (found : fs.find? (fun g => g.name = some name) = some info) : info.name = some name := by
  have passes := List.find?_some found
  exact of_decide_eq_true passes

theorem mem_listOnce {names : List Str} {fs : List MethodInfo} {info : MethodInfo} : info ∈ listOnce names fs ↔
    ∃ name, name ≠ [] ∧ name ∉ names ∧ fs.find? (fun g => g.name = some name) = some info := by
  induction fs generalizing names with
  | nil => simp [listOnce]
  | cons f fs ih =>
    rw [listOnce]
    cases own : f.name with
    | none => simpa [List.find?_cons, own] using ih
    | some first =>
      by_cases fresh : first ≠ [] ∧ first ∉ names
      · simp only [if_pos fresh, List.mem_cons, ih, not_or, List.find?_cons, own, Option.some.injEq]
        constructor
        · rintro (rfl | ⟨name, some, ⟨other, new⟩, found⟩)
          · exact ⟨first, fresh.1, fresh.2, by simp⟩
          · exact ⟨name, some, new, by simpa [Ne.symm other] using found⟩
        · rintro ⟨name, some, new, found⟩
          by_cases same : first = name
          · exact Or.inl (by simpa [same, eq_comm] using found)
          · exact Or.inr ⟨name, some, ⟨Ne.symm same, new⟩, by simpa [same] using found⟩
      · simp only [if_neg fresh, ih, List.find?_cons, own, Option.some.injEq]
        refine exists_congr fun name => and_congr_right fun some => and_congr_right fun new => ?_
        have other : first ≠ name := by
          rintro rfl
          exact fresh ⟨some, new⟩
        simp [other]

theorem nodup_listOnce (names : List Str) (fs : List MethodInfo) : ((listOnce names fs).map MethodInfo.name).Nodup := by
  induction fs generalizing names with
  | nil => exact .nil
  | cons f fs ih =>
    rw [listOnce]
    cases own : f.name with
    | none => exact ih names
    | some first =>
      by_cases fresh : first ≠ [] ∧ first ∉ names
      · simp only [if_pos fresh, List.map_cons, List.nodup_cons, own]
        refine ⟨?_, ih _⟩
        intro member
        obtain ⟨info, inside, same⟩ := List.mem_map.mp member
        obtain ⟨name, _, new, found⟩ := mem_listOnce.mp inside
        have itsName := name_of_find found
        obtain rfl := Option.some.inj (same.symm.trans itsName)
        exact new List.mem_cons_self
      · simpa only [if_neg fresh] using ih names

theorem findUndefinedMethods_ok {ast : Node} {excludes : Option (List Str)} {names : List (Option Str)} {kept : List FuncDecl}
    {prepared : List MethodInfo} (defs : (syntaxTree.visit visitDef ast).mapM nameAttribute = .ok names)
    (filtered : withoutDefinitions (names ++ IMPLICIT_FUNCTIONS.map some ++ (excludes.getD []).map some)
      (syntaxTree.visit visitDecl ast) = .ok kept)
    (mapped : kept.mapM (fun f => prettify f.args f.type) = .ok prepared) :
    findUndefinedMethods ast excludes = .ok (listOnce [] prepared) := by
  rw [findUndefinedMethods, defs]
  change (do
    let undefFuncPrepared ← withoutDefinitions _ _
    let undefFuncPrepared ← undefFuncPrepared.mapM fun f : FuncDecl => prettify f.args f.type
    return listOnce [] undefFuncPrepared) = _
  rw [filtered]
  change (do
    let undefFuncPrepared ← kept.mapM fun f : FuncDecl => prettify f.args f.type
    return listOnce [] undefFuncPrepared) = _
  rw [mapped]
  rfl

theorem first_iff {ast : Node} {name : Str} {f : FuncDecl} :
    (syntaxTree.visit visitDecl ast).find? (fun f => getName f.node = .ok (some name)) = some f ↔ FirstDeclarator ast name f := by
  have found := @NodeTree.Spots.find_iff _ _ _ (spots_decls ast) (fun f => decide (getName f.node = .ok (some name))) f
  simpa [FirstDeclarator] using found

/-- What is listed is made of the first declarators of the names that nothing defines. -/
theorem findUndefinedMethods_eq {ast : Node} (unit : IsUnit ast) (handled : Handled ast) (excludes : Option (List Str)) :
    ∃ prepared, findUndefinedMethods ast excludes = .ok (listOnce [] prepared) ∧
      ∀ name info, prepared.find? (fun g => g.name = some name) = some info ↔
        (¬ Defines ast name ∧ name ∉ IMPLICIT_FUNCTIONS ∧ name ∉ excludes.getD []) ∧
          ∃ f, FirstDeclarator ast name f ∧ prettify f.args f.type = .ok info := by
  obtain ⟨names, defs, defines⟩ := defines_iff unit
  have prettified : ∀ f ∈ syntaxTree.visit visitDecl ast, ∃ info, prettify f.args f.type = .ok info := by
    intro f member
    obtain ⟨path, declares⟩ := (spots_decls ast).mem_iff.mp member
    exact handled path f declares
  obtain ⟨kept, prepared, filtered, mapped, found⟩ := prepared_spec
    (names ++ IMPLICIT_FUNCTIONS.map some ++ (excludes.getD []).map some) prettified
  have free : ∀ name, some name ∉ names ++ IMPLICIT_FUNCTIONS.map some ++ (excludes.getD []).map some ↔
      ¬ Defines ast name ∧ name ∉ IMPLICIT_FUNCTIONS ∧ name ∉ excludes.getD [] := by
    intro name
    rw [← defines]
    simp
  refine ⟨prepared, findUndefinedMethods_ok defs filtered mapped, fun name info => ?_⟩
  rw [found, free]
  simp only [first_iff]

/-- The names of the list, for any list that is made so. -/
theorem listed_iff {ast : Node} (handled : Handled ast) {excludes : List Str} {prepared : List MethodInfo}
    (found : ∀ name info, prepared.find? (fun g => g.name = some name) = some info ↔
      (¬ Defines ast name ∧ name ∉ IMPLICIT_FUNCTIONS ∧ name ∉ excludes) ∧
        ∃ f, FirstDeclarator ast name f ∧ prettify f.args f.type = .ok info) (name : Str) :
    some name ∈ (listOnce [] prepared).map MethodInfo.name ↔ name ≠ [] ∧ Undefined ast excludes name := by
  rw [List.mem_map]
  constructor
  · rintro ⟨info, member, same⟩
    obtain ⟨name', solid, _, inside⟩ := mem_listOnce.mp member
    obtain rfl := Option.some.inj (same.symm.trans (name_of_find inside))
    obtain ⟨⟨undefined, explicit, included⟩, f, ⟨path, declares, named, _⟩, _⟩ := (found name info).mp inside
    exact ⟨solid, ⟨path, f, declares, named⟩, undefined, explicit, included⟩
  · rintro ⟨solid, undefined⟩
    obtain ⟨path, f, declares, named⟩ := undefined.declared
    have some : ((syntaxTree.visit visitDecl ast).find? fun f => getName f.node = .ok (some name)).isSome = true :=
      List.find?_isSome.mpr ⟨f, (spots_decls ast).mem_iff.mpr ⟨path, declares⟩, decide_eq_true named⟩
    obtain ⟨f', there⟩ := Option.isSome_iff_exists.mp some
    obtain ⟨path', declares'⟩ := (spots_decls ast).mem_iff.mp (List.mem_of_find?_eq_some there)
    obtain ⟨info, made⟩ := handled path' f' declares'
    have inside := (found name info).mpr ⟨⟨undefined.undefined, undefined.explicit, undefined.included⟩, f', first_iff.mp there, made⟩
    exact ⟨info, mem_listOnce.mpr ⟨name, solid, List.not_mem_nil, inside⟩, name_of_find inside⟩

/-- The stubs: each name once, exactly the undefined ones, and each as its first declarator has it. -/
theorem findUndefinedMethods_spec {ast : Node} (unit : IsUnit ast) (handled : Handled ast) (excludes : Option (List Str)) :
    ∃ fs, findUndefinedMethods ast excludes = .ok fs ∧ (fs.map MethodInfo.name).Nodup ∧
      (∀ name, some name ∈ fs.map MethodInfo.name ↔ name ≠ [] ∧ Undefined ast (excludes.getD []) name) ∧
      ∀ info ∈ fs, ∃ name f, info.name = some name ∧ FirstDeclarator ast name f ∧ prettify f.args f.type = .ok info := by
  obtain ⟨prepared, made, found⟩ := findUndefinedMethods_eq unit handled excludes
  refine ⟨listOnce [] prepared, made, nodup_listOnce _ _, listed_iff handled found, fun info member => ?_⟩
  obtain ⟨name, _, _, inside⟩ := mem_listOnce.mp member
  obtain ⟨_, f, first, made⟩ := (found name info).mp inside
  exact ⟨name, f, name_of_find inside, first, made⟩

theorem visitDef_of_at {n : Node} {path : List Nat} {declaration body : Node} {params : List Node}
    (found : syntaxTree.At (fun _ => False) n path (.funcDef declaration body params)) : syntaxTree.visit visitDef n ≠ [] := by
  generalize last : Node.funcDef declaration body params = m at found
  induction found with
  | here n =>
    subst last
    simp [NodeTree.visit_method, visitDef]
  | @through n c m i path _ child _ ih =>
    cases own : visitDef n with
    | some decl =>
      rw [syntaxTree.visit_method own]
      cases n <;> cases own
      simp
    | none =>
      rw [syntaxTree.visit_children own, Ne, List.flatMap_eq_nil_iff, not_forall]
      exact ⟨c, fun empty => ih last (empty (List.mem_of_getElem? child))⟩

theorem not_implicit {name : String} (absent : name ∉ implicitNames ++ GCC_BUILTINS) (plain : name.toList.head? ≠ some '_') :
    name.toList ∉ IMPLICIT_FUNCTIONS := by
  intro member
  obtain ⟨other, inside, same⟩ := List.mem_map.mp member
  obtain rfl := String.toList_injective same
  simp only [List.mem_append, List.mem_map] at inside
  rcases inside with ((here | here) | ⟨g, _, rfl⟩) | ⟨g, _, rfl⟩
  · exact absent (List.mem_append_left _ here)
  · exact absent (List.mem_append_right _ here)
  · exact plain (by rw [String.toList_append]; rfl)
  · exact plain (by rw [String.toList_append]; rfl)

theorem f_explicit : ['f'] ∉ IMPLICIT_FUNCTIONS := @not_implicit "f" (by decide +kernel) (by decide)

theorem g_explicit : ['g'] ∉ IMPLICIT_FUNCTIONS := @not_implicit "g" (by decide +kernel) (by decide)

/-- A declarator with one parameter, an `int`. -/
def ofInt (result : Node) : FuncDecl := ⟨some (.paramList [.typename [] (intNode none)]), result⟩

def prototype (name : Str) (result : Node) : Node := .decl (some name) [] (ofInt result).node none none

/-- `int f(int); int g(int) {}` -/
def twoFunctions : Node :=
  .other [prototype ['f'] (intNode (some ['f'])), .funcDef (prototype ['g'] (intNode (some ['g']))) (.other []) []]

theorem unit_twoFunctions : IsUnit twoFunctions where
  file := ⟨_, rfl⟩
  top := by
    have free : ∀ name, syntaxTree.visit visitDef (prototype name (intNode (some name))) = [] ∧
        syntaxTree.visit visitDef (.other []) = [] := by
      intro name
      simp [prototype, ofInt, FuncDecl.node, intNode, NodeTree.visit_eq, visitDef, children_syntaxTree, Node.children]
    intro path declaration body params found
    cases found with
    | @through _ c _ i rest _ child found =>
      have inside := List.mem_of_getElem? child
      simp only [children_syntaxTree, twoFunctions, Node.children, List.mem_cons, List.not_mem_nil, or_false] at inside
      rcases inside with rfl | rfl
      · exact absurd (free ['f']).1 (visitDef_of_at found)
      · cases found with
        | here => exact ⟨rfl, _, _, _, _, _, rfl⟩
        | through _ child found =>
          have inside := List.mem_of_getElem? child
          simp only [children_syntaxTree, Node.children, List.mem_cons, List.not_mem_nil, or_false] at inside
          rcases inside with rfl | rfl
          · exact absurd (free ['g']).1 (visitDef_of_at found)
          · exact absurd (free ['g']).2 (visitDef_of_at found)

theorem handled_twoFunctions : Handled twoFunctions := by
  intro path f declares
  have decls : syntaxTree.visit visitDecl twoFunctions = [ofInt (intNode (some ['f'])), ofInt (intNode (some ['g']))] := by
    simp [twoFunctions, prototype, FuncDecl.node, NodeTree.visit_eq, visitDecl, children_syntaxTree, Node.children]
  have inside := (spots_decls twoFunctions).mem_iff.mpr ⟨path, declares⟩
  rw [decls] at inside
  rcases List.mem_cons.mp inside with rfl | inside
  · exact ⟨_, rfl⟩
  · obtain rfl := List.mem_singleton.mp inside
    exact ⟨_, rfl⟩

theorem findUndefinedMethods_twoFunctions : ∃ fs, findUndefinedMethods twoFunctions none = .ok fs ∧
    some ['f'] ∈ fs.map MethodInfo.name := by
  obtain ⟨fs, made, _, names, _⟩ := findUndefinedMethods_spec unit_twoFunctions handled_twoFunctions none
  refine ⟨fs, made, (names ['f']).mpr ⟨List.cons_ne_nil _ _, ⟨[0, 0], ofInt (intNode (some ['f'])), ?_, rfl⟩, ?_, f_explicit,
    List.not_mem_nil⟩⟩
  · exact .through id rfl (.through id rfl (.here _))
  · rintro ⟨path, declaration, body, params, found, name⟩
    have inside := (mem_defs unit_twoFunctions).mpr ⟨path, body, params, found⟩
    have defs : syntaxTree.visit visitDef twoFunctions = [prototype ['g'] (intNode (some ['g']))] := by
      simp [twoFunctions, prototype, ofInt, FuncDecl.node, intNode, NodeTree.visit_eq, visitDef, children_syntaxTree, Node.children]
    rw [defs] at inside
    obtain rfl := List.mem_singleton.mp inside
    exact absurd name (by decide)

/-! ### A function declared inside of a result -/

/-- What keeps a declarator away where only the parameter lists of other functions count. -/
def EnclosesAsParameter : Node → Prop
  | .paramList _ | .ptrDecl _ _ | .typedef _ _ => True
  | _ => False

def structNode : Node := .struct (some ['S']) [prototype ['g'] (intNode (some ['g']))]

/-- `struct S { int g(int); } f(int);` -/
def memberFunction : Node := .other [prototype ['f'] (.typeDecl (some ['f']) [] structNode)]

/-- Every declarator in the tree that no parameter list encloses has a text. -/
def AllHandled (n : Node) : Prop := ∀ path (f : FuncDecl), syntaxTree.At EnclosesAsParameter n path f.node →
  ∃ info, prettify f.args f.type = .ok info

theorem allHandled_of {n : Node} (own : ∀ f : FuncDecl, n = f.node → ∃ info, prettify f.args f.type = .ok info)
    (others : ¬ EnclosesAsParameter n → ∀ c ∈ n.children, AllHandled c) : AllHandled n := by
  intro path f found
  generalize last : f.node = m at found
  cases found with
  | here => exact own f last.symm
  | through going child found =>
    subst last
    exact others going _ (List.mem_of_getElem? child) _ f found

theorem allHandled_prototype {name : Str} {result : Node} (made : ∃ info, prettify (ofInt result).args result = .ok info)
    (inside : AllHandled result) : AllHandled (prototype name result) := by
  have params : AllHandled (.paramList [.typename [] (intNode none)]) := allHandled_of nofun fun going => absurd trivial going
  have declarator : AllHandled (ofInt result).node := by
    refine allHandled_of (fun f same => ?_) fun _ => List.forall_mem_cons.mpr ⟨params, List.forall_mem_singleton.mpr inside⟩
    cases f
    cases same
    exact made
  exact allHandled_of nofun fun _ => List.forall_mem_singleton.mpr declarator

theorem allHandled_int (name : Option Str) : AllHandled (intNode name) :=
  allHandled_of nofun fun _ => List.forall_mem_singleton.mpr (allHandled_of nofun fun _ => nofun)

theorem allHandled_memberFunction : AllHandled memberFunction := by
  have g : AllHandled (prototype ['g'] (intNode (some ['g']))) := allHandled_prototype ⟨_, rfl⟩ (allHandled_int _)
  have struct : AllHandled structNode := allHandled_of nofun fun _ => List.forall_mem_singleton.mpr g
  have type : AllHandled (.typeDecl (some ['f']) [] structNode) :=
    allHandled_of nofun fun _ => List.forall_mem_singleton.mpr struct
  exact allHandled_of nofun fun _ => List.forall_mem_singleton.mpr (allHandled_prototype ⟨_, rfl⟩ type)

theorem memberFunction_unlisted : IsUnit memberFunction ∧ AllHandled memberFunction ∧
    (∃ path f, syntaxTree.At EnclosesAsParameter memberFunction path (FuncDecl.node f) ∧ getName f.node = .ok (some ['g'])) ∧
    ¬ Defines memberFunction ['g'] ∧ ['g'] ∉ IMPLICIT_FUNCTIONS ∧
    ∃ fs, findUndefinedMethods memberFunction none = .ok fs ∧ some ['g'] ∉ fs.map MethodInfo.name := by
  have noDefs : syntaxTree.visit visitDef memberFunction = [] := by
    simp [memberFunction, structNode, prototype, ofInt, FuncDecl.node, intNode, NodeTree.visit_eq, visitDef, children_syntaxTree,
      Node.children]
  have decls : syntaxTree.visit visitDecl memberFunction = [ofInt (.typeDecl (some ['f']) [] structNode)] := by
    simp [memberFunction, prototype, FuncDecl.node, NodeTree.visit_eq, visitDecl, children_syntaxTree, Node.children]
  refine ⟨⟨⟨_, rfl⟩, fun path declaration body params found => absurd noDefs (visitDef_of_at found)⟩,
    allHandled_memberFunction, ?_, ?_, g_explicit, ?_⟩
  · exact ⟨[0, 0, 1, 0, 0, 0], ofInt (intNode (some ['g'])), .through id rfl (.through id rfl (.through id rfl (.through id rfl
      (.through id rfl (.through id rfl (.here _)))))), rfl⟩
  · rintro ⟨path, declaration, body, params, found, _⟩
    exact visitDef_of_at found noDefs
  · have names : (syntaxTree.visit visitDef memberFunction).mapM nameAttribute = .ok [] := by
      rw [noDefs]
      rfl
    have filtered : withoutDefinitions ([] ++ IMPLICIT_FUNCTIONS.map some ++ ((none : Option (List Str)).getD []).map some)
        (syntaxTree.visit visitDecl memberFunction) = .ok [ofInt (.typeDecl (some ['f']) [] structNode)] := by
      have named : getName (ofInt (.typeDecl (some ['f']) [] structNode)).node = .ok (some ['f']) := rfl
      rw [decls]
      simp [withoutDefinitions, named, f_explicit, bind, Except.bind, pure, Except.pure]
    exact ⟨_, findUndefinedMethods_ok names filtered rfl, by decide⟩

end Tbf
