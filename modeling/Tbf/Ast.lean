import Tbf.Library.Numeral
import Tbf.Utils

/-!
# The C syntax tree, and the text of a type

The nodes of pycparser that the search for undefined functions looks at, and `get_name`, `get_type`,
`_prettify` and `get_method_head` over them.
-/

namespace Tbf
open Text

/-- A node, with its children as pycparser lists them; `other` are the kinds that are only passed through. -/
inductive Node where
  | identifierType (names : List Str)
  | struct (name : Option Str) (decls : List Node)
  | union (name : Option Str) (decls : List Node)
  | enum (name : Option Str) (values : Option Node)
  | ellipsisParam
  | paramList (params : List Node)
  | typeDecl (declname : Option Str) (quals : List Str) (type : Node)
  | typename (quals : List Str) (type : Node)
  | decl (name : Option Str) (quals : List Str) (type : Node) (init bitsize : Option Node)
  | typedef (name : Option Str) (type : Node)
  | ptrDecl (quals : List Str) (type : Node)
  | arrayDecl (type : Node) (dim : Option Node)
  | funcDecl (args : Option Node) (type : Node)
  | funcDef (declaration body : Node) (paramDecls : List Node)
  | other (children : List Node)

namespace Node

def children : Node → List Node
  | identifierType _ | ellipsisParam => []
  | struct _ decls | union _ decls => decls
  | enum _ values => values.toList
  | paramList params => params
  | typeDecl _ _ type | typename _ type | typedef _ type | ptrDecl _ type => [type]
  | decl _ _ type init bitsize => type :: (init.toList ++ bitsize.toList)
  | arrayDecl type dim => type :: dim.toList
  | funcDecl args type => args.toList ++ [type]
  | funcDef declaration body paramDecls => declaration :: body :: paramDecls
  | other children => children

theorem sizeOf_lt_of_mem_children {n c : Node} (child : c ∈ n.children) : sizeOf c < sizeOf n := by
  have inList : ∀ {nodes : List Node}, c ∈ nodes → sizeOf c < sizeOf nodes := List.sizeOf_lt_of_mem
  have inOption : ∀ {node : Option Node}, c ∈ node.toList → sizeOf c < sizeOf node := by
    intro node member
    obtain rfl := Option.mem_toList.mp member
    simp
  cases n with
  | identifierType _ | ellipsisParam => cases child
  | struct _ decls | union _ decls =>
    have smaller : sizeOf c < sizeOf decls := inList child
    simp
    omega
  | enum _ values =>
    have smaller : sizeOf c < sizeOf values := inOption child
    simp
    omega
  | paramList params | other params =>
    have smaller : sizeOf c < sizeOf params := inList child
    simp
    omega
  | typeDecl _ _ type | typename _ type | typedef _ type | ptrDecl _ type =>
    obtain rfl := List.mem_singleton.mp child
    simp
  | decl _ _ type init bitsize =>
    rcases List.mem_cons.mp child with rfl | child
    · simp
      omega
    · rcases List.mem_append.mp child with child | child
      · have smaller := inOption child
        simp
        omega
      · have smaller := inOption child
        simp
        omega
  | arrayDecl type dim =>
    rcases List.mem_cons.mp child with rfl | child
    · simp
      omega
    · have smaller := inOption child
      simp
      omega
  | funcDecl args type =>
    rcases List.mem_append.mp child with child | child
    · have smaller := inOption child
      simp
      omega
    · obtain rfl := List.mem_singleton.mp child
      simp
  | funcDef declaration body paramDecls =>
    rcases List.mem_cons.mp child with rfl | child
    · simp
      omega
    · rcases List.mem_cons.mp child with rfl | child
      · simp
        omega
      · have smaller := inList child
        simp
        omega

theorem children_induction {motive : Node → Prop}
    (step : ∀ n, (∀ c ∈ n.children, motive c) → motive n) (n : Node) : motive n :=
  step n fun c _ => children_induction step c
termination_by sizeOf n
decreasing_by exact sizeOf_lt_of_mem_children ‹_›

end Node

/-! ### Names and types -/

def joinWords (words : List Str) : Str := [' '].intercalate words

/-- `get_name`, but for calls, which are no declarators. -/
def getName : Node → Except Raised (Option Str)
  | .funcDecl _ type | .ptrDecl _ type | .decl _ _ type _ _ => getName type
  | .typeDecl declname _ _ => .ok declname
  | .struct name _ => .ok name
  | _ => .error .assertionError

/-- A name that is `None` cannot be joined to a string. -/
def tagText (kind : Str) (name : Option Str) : Except Raised Str :=
  match name with
  | some name => .ok (kind ++ ' ' :: name)
  | none => .error .typeError

/-- The qualifiers around the text of a node that has them; `isDecl` keeps `const` away. -/
def qualify (isDecl : Bool) (quals : List Str) (name : List Str) : Str :=
  let name := if quals.contains "const".toList && !isDecl then name ++ ["const".toList] else name
  let name := if quals.contains "static".toList then "static".toList :: name else name
  let name := if quals.contains "volatile".toList then "volatile".toList :: name else name
  joinWords name

mutual

def getType : Node → Except Raised Str
  | .identifierType names => .ok (joinWords names)
  | .union name _ => tagText "union".toList name
  | .ellipsisParam => .ok "...".toList
  | .struct name _ => tagText "struct".toList name
  | .enum name _ => tagText "enum".toList name
  | .typeDecl _ quals type => do return qualify false quals [← getType type]
  | .typename quals type => do return qualify false quals [← getType type]
  | .decl _ quals type _ _ => do return qualify true quals [← getType type]
  | .ptrDecl quals (.funcDecl none type) => do
    return qualify false quals [(← getType type) ++ "(*\x7b\x7d)(".toList ++ [')']]
  | .ptrDecl quals (.funcDecl (some (.paramList params)) type) => do
    let mType := (← getType type) ++ "(*\x7b\x7d)(".toList
    let params ← getTypes params
    return qualify false quals [mType ++ ", ".toList.intercalate params ++ [')']]
  | .ptrDecl _ (.funcDecl (some _) type) => do
    let _ ← getType type
    .error .attributeError
  | .ptrDecl quals type => do return qualify false quals [← getType type, ['*']]
  | .arrayDecl type _ => do return joinWords [← getType type, " \x7b\x7d[]".toList]
  -- A `FuncDecl` has no `declname`.
  | .funcDecl _ type => do
    let _ ← getType type
    .error .attributeError
  | .paramList _ | .typedef _ _ | .funcDef _ _ _ | .other _ => .error .assertionError

def getTypes : List Node → Except Raised (List Str)
  | [] => .ok []
  | node :: nodes => do
    let type ← getType node
    let types ← getTypes nodes
    return type :: types

end

theorem getTypes_eq_mapM (nodes : List Node) : getTypes nodes = nodes.mapM getType := by
  induction nodes with
  | nil => rfl
  | cons node nodes ih =>
    rw [getTypes, List.mapM_cons, ih]

/-! ### The head of a stub -/

structure MethodInfo where
  name : Option Str
  type : Str
  params : List Str
  deriving DecidableEq, Repr

/-- The loop of `_prettify` over `func_def.args.params`. -/
def paramTypes : Option Node → Except Raised (List Str)
  | none => .ok []
  | some (.paramList params) => getTypes params
  | some _ => .error .attributeError

/-- `_prettify`, for a `FuncDecl` with these arguments and this type. -/
def prettify (args : Option Node) (type : Node) : Except Raised MethodInfo := do
  let name ← getName (.funcDecl args type)
  let returnType ← getType type
  let params ← paramTypes args
  return ⟨name, returnType, params⟩

/-- `str.format` of a template whose fields are all of the form `{}`. -/
def format : Str → List Str → Except Raised Str
  | [], _ => .ok []
  | '\x7b' :: '\x7d' :: rest, arg :: args => do return arg ++ (← format rest args)
  | '\x7b' :: '\x7d' :: _, [] => .error .indexError
  | '\x7b' :: '\x7b' :: rest, args => do return '\x7b' :: (← format rest args)
  | '\x7d' :: '\x7d' :: rest, args => do return '\x7d' :: (← format rest args)
  | c :: rest, args => if c = '\x7b' ∨ c = '\x7d' then .error .valueError else do return c :: (← format rest args)

def paramName (idx : Nat) : Str := "param".toList ++ Numeral.decimal idx

/-- What the loop of `get_method_head` appends for a parameter; `params` are those appended so far. -/
def headParam (idx : Nat) (pt : Str) (params : List Str) : Except Raised (List Str) :=
  if "...".toList <:+: pt then .ok (params ++ ["...".toList])
  else if pt ≠ "void".toList then do
    let pt := if "\x7b\x7d".toList <:+: pt then pt else pt ++ " \x7b\x7d".toList
    return params ++ [← format pt [paramName idx]]
  else if params ≠ [] then .error .assertionError
  else .ok params

def headParams (params : List Str) : Except Raised (List Str) :=
  params.zipIdx.foldlM (fun params item => headParam item.2 item.1 params) []

def getMethodHead (methodName methodType : Str) (params : List Str) : Except Raised Str := do
  let params ← headParams params
  return methodType ++ ' ' :: methodName ++ '(' :: ", ".toList.intercalate params ++ [')']

end Tbf
