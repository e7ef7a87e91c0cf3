import Mathlib.Data.List.Dedup
import Tbf.Ast
import Tbf.Library.Pattern

/-!
# The textual search for nondet functions

Where there is no syntax tree, the functions to define are the ones a regular expression finds.
-/

namespace Tbf
open Text Pattern

/-- What the language leaves open: the order in which a set is gone through, and lower case beyond ASCII. -/
structure Python where
  setOrder : List Str → List Str
  setOrder_perm : ∀ names, (setOrder names).Perm names
  lower : Str → Str
  lower_ascii : ∀ s : Str, (∀ c ∈ s, c.toNat < 128) → lower s = s.map Char.toLower

structure Files where
  pathExists : Str → Bool
  read : Str → Except Raised Str

def nondetStart : Str := "__VERIFIER_nondet_".toList

def call : Str := "()".toList

def svcompErrorName : Str := "__VERIFIER_error".toList

/-- `_get_return_type` -/
def getReturnType (py : Python) (verifierNondetMethod : Str) : Except Raised Str := do
  check (decide (nondetStart <+: verifierNondetMethod))
  check (decide (verifierNondetMethod.drop (verifierNondetMethod.length - 2) ≠ call))
  let mType := py.lower (verifierNondetMethod.drop nondetStart.length)
  if mType = "bool".toList then return "_Bool".toList
  else if mType = "u32".toList then return "unsigned int".toList
  else if mType = "u16".toList then return "unsigned short".toList
  else if mType = "u8".toList then return "unsigned char".toList
  else if mType = "unsigned".toList then return "unsigned int".toList
  else match mType with
    | [] => .error .indexError
    | c :: rest =>
      if c = 'u' then return "unsigned ".toList ++ rest
      else if mType = "pointer".toList then return "void *".toList
      else if mType = "pchar".toList then return "char *".toList
      else if mType = "s8".toList then return "char".toList
      else return mType

/-- The text that is searched: the argument, unless that is the path of a file. -/
def searched (files : Files) (fileContent : Str) : Except Raised Str :=
  if files.pathExists fileContent then files.read fileContent else .ok fileContent

/-- The names in the matches, without the ones to leave out. -/
def foundNames (content : Str) (excludes : List Str) : List Str :=
  ((findAll nondetStart call content).map fun s => s.take (s.length - 2)).filter
    fun name => !excludes.contains name

def errorMethod (excludes : List Str) : List MethodInfo :=
  if excludes.contains svcompErrorName then [] else [⟨some svcompErrorName, "void".toList, []⟩]

/-- `_find_nondet_methods` -/
def findNondetMethods (py : Python) (files : Files) (fileContent : Str) (excludes : List Str) :
    Except Raised (List MethodInfo) := do
  let content ← searched files fileContent
  let methodNames := py.setOrder (foundNames content excludes).dedup
  let functions ← methodNames.mapM fun methodName => do
    let methodType ← getReturnType py methodName
    return ⟨some methodName, methodType, []⟩
  return functions ++ errorMethod excludes

/-! ### What is to be found -/

def IsNondet (name : Str) : Prop := ∃ w, w ≠ [] ∧ (∀ c ∈ w, isIdentifierChar c = true) ∧ name = nondetStart ++ w

/-- The name is a word of the text with `()` right behind it. -/
def Called (text name : Str) : Prop :=
  ∃ front back, text = front ++ name ++ call ++ back ∧ ∀ c ∈ front.getLast?, isIdentifierChar c = false

def Excluded (excludes : List Str) (name : Str) : Prop := name ∈ excludes

/-- Besides `__VERIFIER_error`, exactly the nondet functions that are called come back, each once. -/
def FindsCalls (py : Python) (files : Files) (text : Str) (excludes : List Str) : Prop :=
  ∃ functions, findNondetMethods py files text excludes = .ok (functions ++ errorMethod excludes) ∧
    (functions.map MethodInfo.name).Nodup ∧
    ∀ name, some name ∈ functions.map MethodInfo.name ↔ IsNondet name ∧ Called text name ∧ ¬ Excluded excludes name

/-- In the text that is searched, a word with the literal in it is followed by `()` directly if the line goes on
to any `()` at all, and from its first literal on it is a name that is to be found. -/
structure Searchable (text content : Str) (excludes : List Str) : Prop where
  direct : Direct isIdentifierChar nondetStart call content
  whole : ∀ v back, Opens isIdentifierChar nondetStart call content v back →
    Excluded excludes (nondetStart ++ v) ∨ Called text (nondetStart ++ v)
  all : ∀ v, (∀ c ∈ v, isIdentifierChar c = true) → v ≠ [] → Called text (nondetStart ++ v) →
    Excluded excludes (nondetStart ++ v) ∨ ∃ back, Opens isIdentifierChar nondetStart call content v back

/-! ### Names and types -/

theorem nondetStart_chars : ∀ c ∈ nondetStart, isIdentifierChar c = true := forall_mem_of_all (by decide)

theorem nondetStart_solid : nondetStart ≠ [] := by decide

theorem call_chars : ∀ c ∈ call, isIdentifierChar c = false := forall_mem_of_all (by decide)

theorem call_solid : call ≠ [] := by decide

theorem line_apart : isIdentifierChar '\n' = false := by decide

theorem mem_foundNames {content name : Str} {excludes : List Str} :
    name ∈ foundNames content excludes ↔ name ++ call ∈ findAll nondetStart call content ∧ ¬ Excluded excludes name := by
  have cut : ∀ s : Str, (s ++ call).take ((s ++ call).length - 2) = s := by
    intro s
    have short : (s ++ call).length - 2 = s.length := by
      rw [List.length_append]
      exact Nat.add_sub_cancel _ _
    rw [short, List.take_left]
  rw [foundNames, List.mem_filter, List.mem_map, Bool.not_eq_true', ← Bool.not_eq_true, List.contains_iff_mem, Excluded]
  refine and_congr_left fun _ => ?_
  constructor
  · rintro ⟨found, member, rfl⟩
    obtain ⟨mid, _, rfl⟩ := mem_findAll_sound member
    rwa [cut]
  · exact fun member => ⟨_, member, cut name⟩

theorem exists_ok_ite {α : Type} {p : Prop} [Decidable p] {x y : Except Raised α} (yes : ∃ a, x = .ok a) (no : ∃ a, y = .ok a) :
    ∃ a, (if p then x else y) = .ok a := by
  split
  · exact yes
  · exact no

theorem getReturnType_nondet (py : Python) {name : Str} (nondet : IsNondet name) : ∃ type, getReturnType py name = .ok type := by
  obtain ⟨w, some', chars, rfl⟩ := nondet
  have starts : decide (nondetStart <+: nondetStart ++ w) = true := decide_eq_true (List.prefix_append _ _)
  have ends : decide ((nondetStart ++ w).drop ((nondetStart ++ w).length - 2) ≠ call) = true := by
    rw [decide_eq_true_eq]
    intro same
    have inside : ')' ∈ nondetStart ++ w := by
      have member : ')' ∈ (nondetStart ++ w).drop ((nondetStart ++ w).length - 2) := by
        rw [same]
        decide
      exact List.mem_of_mem_drop member
    rcases List.mem_append.mp inside with member | member
    · exact absurd (nondetStart_chars _ member) (by decide)
    · exact absurd (chars _ member) (by decide)
  have lowered : py.lower w = w.map Char.toLower := py.lower_ascii w fun c member => isIdentifierChar_ascii (chars c member)
  obtain ⟨c, w, rfl⟩ := List.exists_cons_of_ne_nil some'
  rw [getReturnType, starts, ends, List.drop_left, lowered, List.map_cons]
  simp only [check, if_true, Except.bind, bind]
  iterate 9 refine exists_ok_ite ⟨_, rfl⟩ ?_
  exact ⟨_, rfl⟩

/-! ### What comes back -/

theorem findNondetMethods_ok_iff {py : Python} {files : Files} {text : Str} {excludes : List Str}
    {functions : List MethodInfo} :
    findNondetMethods py files text excludes = .ok (functions ++ errorMethod excludes) ↔
      ∃ content, searched files text = .ok content ∧
        List.Forall₂ (fun name f => ∃ type, getReturnType py name = .ok type ∧ f = ⟨some name, type, []⟩)
          (py.setOrder (foundNames content excludes).dedup) functions := by
  unfold findNondetMethods
  simp only [bind_ok, mapM_ok_iff, pure, Except.pure, Except.ok.injEq]
  constructor
  · rintro ⟨content, read, found, each, same⟩
    obtain rfl := List.append_cancel_right same
    refine ⟨content, read, each.imp fun name f made => ?_⟩
    obtain ⟨type, made, rfl⟩ := made
    exact ⟨type, made, rfl⟩
  · rintro ⟨content, read, each⟩
    refine ⟨content, read, functions, each.imp fun name f made => ?_, rfl⟩
    obtain ⟨type, made, rfl⟩ := made
    exact ⟨type, made, rfl⟩

theorem names_of_made {py : Python} {names : List Str} {functions : List MethodInfo}
    (made : List.Forall₂ (fun name f => ∃ type, getReturnType py name = .ok type ∧ f = ⟨some name, type, []⟩) names functions) :
    functions.map MethodInfo.name = names.map some := by
  induction made with
  | nil => rfl
  | cons here _ ih =>
    obtain ⟨type, _, rfl⟩ := here
    rw [List.map_cons, List.map_cons, ih]

theorem exists_made (py : Python) {names : List Str} (nondet : ∀ name ∈ names, IsNondet name) :
    ∃ functions : List MethodInfo,
      List.Forall₂ (fun name f => ∃ type, getReturnType py name = .ok type ∧ f = ⟨some name, type, []⟩) names functions := by
  induction names with
  | nil => exact ⟨[], .nil⟩
  | cons name names ih =>
    obtain ⟨here, others⟩ := List.forall_mem_cons.mp nondet
    obtain ⟨type, made⟩ := getReturnType_nondet py here
    obtain ⟨functions, rest⟩ := ih others
    exact ⟨⟨some name, type, []⟩ :: functions, .cons ⟨type, made, rfl⟩ rest⟩

/-- The names that come back are those of the matches, each once. -/
theorem names_found {py : Python} {content : Str} {excludes : List Str} {functions : List MethodInfo}
    (made : functions.map MethodInfo.name = (py.setOrder (foundNames content excludes).dedup).map some) :
    (functions.map MethodInfo.name).Nodup ∧
      ∀ name, some name ∈ functions.map MethodInfo.name ↔ name ∈ foundNames content excludes := by
  have perm := py.setOrder_perm (foundNames content excludes).dedup
  rw [made]
  constructor
  · exact List.Nodup.map (Option.some_injective _) (perm.nodup_iff.mpr (List.nodup_dedup _))
  · intro name
    rw [List.mem_map_of_injective (Option.some_injective _), perm.mem_iff, List.mem_dedup]

theorem excluded_word {excludes : List CIdentifier} {w : Str}
    (excluded : Excluded (excludes.map CIdentifier.name) (nondetStart ++ w)) : ∀ c ∈ w, isIdentifierChar c = true := by
  obtain ⟨identifier, _, same⟩ := List.mem_map.mp excluded
  intro c member
  apply identifier.chars c
  rw [same]
  exact List.mem_append_right _ member

theorem mem_findAll_iff {content : Str} (direct : Direct isIdentifierChar nondetStart call content) {found : Str} :
    found ∈ findAll nondetStart call content ↔
      ∃ v back, Opens isIdentifierChar nondetStart call content v back ∧ found = nondetStart ++ v ++ call :=
  mem_findAll_of_direct nondetStart_chars nondetStart_solid call_chars call_solid line_apart direct

/-- Where only names of nondet functions come back, every match is one. -/
theorem direct_of_names {content : Str} {excludes : List CIdentifier}
    (nondet : ∀ name ∈ foundNames content (excludes.map CIdentifier.name), IsNondet name) :
    Direct isIdentifierChar nondetStart call content := by
  apply direct_of_findAll nondetStart_chars nondetStart_solid call_chars call_solid line_apart
  intro found member
  obtain ⟨mid, some, rfl⟩ := mem_findAll_sound member
  refine ⟨mid, some, ?_, rfl⟩
  by_cases excluded : Excluded (excludes.map CIdentifier.name) (nondetStart ++ mid)
  · exact excluded_word excluded
  · obtain ⟨w, _, chars, same⟩ := nondet _ (mem_foundNames.mpr ⟨member, excluded⟩)
    rwa [List.append_cancel_left same]

/-- Where the matches are words, the names found are those of the open words. -/
theorem mem_foundNames_of_direct {content : Str} {excludes : List Str}
    (direct : Direct isIdentifierChar nondetStart call content) {v : Str} :
    nondetStart ++ v ∈ foundNames content excludes ↔
      (∃ back, Opens isIdentifierChar nondetStart call content v back) ∧ ¬ Excluded excludes (nondetStart ++ v) := by
  rw [mem_foundNames, mem_findAll_iff direct]
  refine and_congr_left fun _ => ?_
  constructor
  · rintro ⟨v', back, opened, same⟩
    obtain rfl := List.append_cancel_left (List.append_cancel_right same)
    exact ⟨back, opened⟩
  · rintro ⟨back, opened⟩
    exact ⟨v, back, opened, rfl⟩

theorem exists_open_of_found {content name : Str} {excludes : List Str}
    (direct : Direct isIdentifierChar nondetStart call content) (found : name ∈ foundNames content excludes) :
    ∃ v, name = nondetStart ++ v ∧ v ≠ [] ∧ ∀ c ∈ v, isIdentifierChar c = true := by
  obtain ⟨v, back, opened, same⟩ := (mem_findAll_iff direct).mp (mem_foundNames.mp found).1
  obtain rfl := List.append_cancel_right same
  obtain ⟨front, u, opened'⟩ := opened
  exact ⟨v, rfl, (direct v back ⟨front, u, opened'⟩).1, fun c member => opened'.chars c (List.mem_append_right _ member)⟩

theorem names_of_findsCalls {py : Python} {files : Files} {text : Str} {excludes : List Str}
    (finds : FindsCalls py files text excludes) :
    ∃ content, searched files text = .ok content ∧
      ∀ name, name ∈ foundNames content excludes ↔ IsNondet name ∧ Called text name ∧ ¬ Excluded excludes name := by
  obtain ⟨functions, found, _, exactly⟩ := finds
  obtain ⟨content, read, made⟩ := findNondetMethods_ok_iff.mp found
  obtain ⟨_, listed⟩ := names_found (names_of_made made)
  exact ⟨content, read, fun name => (listed name).symm.trans (exactly name)⟩

theorem direct_of_findsCalls {py : Python} {files : Files} {text : Str} {excludes : List CIdentifier}
    (finds : FindsCalls py files text (excludes.map CIdentifier.name)) :
    ∃ content, searched files text = .ok content ∧ Direct isIdentifierChar nondetStart call content := by
  obtain ⟨content, read, names⟩ := names_of_findsCalls finds
  exact ⟨content, read, direct_of_names fun name member => ((names name).mp member).1⟩

/-- The textual search does what it is for exactly where the text that is searched is searchable. -/
theorem findsCalls_iff (py : Python) (files : Files) (text : Str) (excludes : List CIdentifier) :
    FindsCalls py files text (excludes.map CIdentifier.name) ↔
      ∃ content, searched files text = .ok content ∧ Searchable text content (excludes.map CIdentifier.name) := by
  constructor
  · intro finds
    obtain ⟨content, read, names⟩ := names_of_findsCalls finds
    have direct : Direct isIdentifierChar nondetStart call content := direct_of_names fun name member => ((names name).mp member).1
    refine ⟨content, read, direct, fun v back opened => ?_, fun v chars some called => ?_⟩
    · rw [or_iff_not_imp_left]
      intro kept
      exact ((names _).mp ((mem_foundNames_of_direct direct).mpr ⟨⟨back, opened⟩, kept⟩)).2.1
    · rw [or_iff_not_imp_left]
      intro kept
      exact ((mem_foundNames_of_direct direct).mp ((names _).mpr ⟨⟨v, some, chars, rfl⟩, called, kept⟩)).1
  · rintro ⟨content, read, direct, whole, all⟩
    have nondet : ∀ name ∈ foundNames content (excludes.map CIdentifier.name), IsNondet name := by
      intro name member
      obtain ⟨v, rfl, some, chars⟩ := exists_open_of_found direct member
      exact ⟨v, some, chars, rfl⟩
    have perm := py.setOrder_perm (foundNames content (excludes.map CIdentifier.name)).dedup
    obtain ⟨functions, made⟩ := exists_made py fun name member => nondet name (List.mem_dedup.mp (perm.mem_iff.mp member))
    obtain ⟨once, listed⟩ := names_found (names_of_made made)
    refine ⟨functions, findNondetMethods_ok_iff.mpr ⟨content, read, made⟩, once, fun name => ?_⟩
    rw [listed]
    constructor
    · intro member
      refine ⟨nondet name member, ?_, (mem_foundNames.mp member).2⟩
      obtain ⟨v, rfl, _, _⟩ := exists_open_of_found direct member
      obtain ⟨⟨back, opened⟩, kept⟩ := (mem_foundNames_of_direct direct).mp member
      exact (whole v back opened).resolve_left kept
    · rintro ⟨⟨v, some, chars, rfl⟩, called, kept⟩
      exact (mem_foundNames_of_direct direct).mpr ⟨(all v chars some called).resolve_left kept, kept⟩

/-- Sets gone through in the order of the text, and no lower case beyond ASCII. -/
def asciiPython : Python where
  setOrder names := names
  setOrder_perm _ := List.Perm.refl _
  lower s := s.map Char.toLower
  lower_ascii _ _ := rfl

def noFiles : Files := ⟨fun _ => false, fun _ => .error .fileNotFoundError⟩

/-- A call without a declaration. -/
def calledOnly : Str := "int x=__VERIFIER_nondet_int();".toList

theorem calledOnly_called {name : Str} (nondet : IsNondet name) (called : Called calledOnly name) :
    name = "__VERIFIER_nondet_int".toList := by
  obtain ⟨front, back, split, -⟩ := called
  have parts : "int x=__VERIFIER_nondet_int".toList ++ '(' :: ");".toList = (front ++ name) ++ '(' :: (')' :: back) := by
    rw [← show calledOnly = "int x=__VERIFIER_nondet_int".toList ++ '(' :: ");".toList from rfl, split]
    simp [call]
  obtain ⟨same, -⟩ := (List.append_cons_inj_of_notMem (by decide) (by decide)).mp parts
  obtain ⟨w, -, -, rfl⟩ := nondet
  have tail : nondetStart ++ w ∈ "int x=__VERIFIER_nondet_int".toList.tails := List.mem_tails _ _ |>.mpr ⟨front, same.symm⟩
  have only : ∀ tail ∈ "int x=__VERIFIER_nondet_int".toList.tails, nondetStart <+: tail → tail = "__VERIFIER_nondet_int".toList := by
    decide
  exact only _ tail (List.prefix_append _ _)

theorem calledOnly_matches : findAll nondetStart call calledOnly = ["__VERIFIER_nondet_int()".toList] := by
  have first : matchHere nondetStart call "__VERIFIER_nondet_int();".toList = some ("int".toList, ";".toList) := by decide
  have missing : ∀ back ∈ "int x=".toList.tails, back ≠ [] →
      matchHere nondetStart call (back ++ "__VERIFIER_nondet_int();".toList) = none := by decide
  have last : findAll nondetStart call [';'] = [] := by rw [findAll_cons (by decide), findAll]
  have skipped : findAll nondetStart call calledOnly = findAll nondetStart call "__VERIFIER_nondet_int();".toList :=
    @findAll_skip nondetStart call "int x=".toList _ fun back some inside => missing back ((List.mem_tails _ _).mpr inside) some
  rw [skipped, findAll_match first]
  exact congrArg _ last

theorem calledOnly_found : FindsCalls asciiPython noFiles calledOnly [] := by
  have names : foundNames calledOnly [] = ["__VERIFIER_nondet_int".toList] := by
    rw [foundNames, calledOnly_matches]
    decide
  have made : findNondetMethods asciiPython noFiles calledOnly [] =
      .ok ([⟨some "__VERIFIER_nondet_int".toList, "int".toList, []⟩] ++ errorMethod []) := by
    refine findNondetMethods_ok_iff.mpr ⟨calledOnly, rfl, ?_⟩
    rw [names]
    exact .cons ⟨_, by decide, rfl⟩ .nil
  refine ⟨[⟨some "__VERIFIER_nondet_int".toList, "int".toList, []⟩], made, List.nodup_singleton _, fun name => ?_⟩
  rw [List.map_singleton, List.mem_singleton, Option.some.injEq]
  constructor
  · rintro rfl
    refine ⟨⟨"int".toList, by decide, forall_mem_of_all (by decide), rfl⟩, ⟨"int x=".toList, ";".toList, rfl, ?_⟩, by simp [Excluded]⟩
    exact fun c last => (Option.some.inj last) ▸ rfl
  · rintro ⟨nondet, called, -⟩
    exact calledOnly_called nondet called
/-- A declaration and a call on one line. -/
def declaredAndCalled : Str := "int __VERIFIER_nondet_int(void); int x = __VERIFIER_nondet_int();".toList

theorem declaredAndCalled_opens :
    Opens isIdentifierChar nondetStart call declaredAndCalled "int".toList "(void); int x = __VERIFIER_nondet_int();".toList := by
  refine ⟨"int ".toList, [], rfl, ?_, ?_, ?_, fun u' v' _ => Nat.zero_le _, ?_⟩
  · intro c last
    obtain rfl := Option.some.inj last
    rfl
  · intro c next
    obtain rfl := Option.some.inj next
    rfl
  · exact forall_mem_of_all (by decide)
  · exact ⟨"int(void); int x = __VERIFIER_nondet_int".toList, ";".toList, rfl, by decide, by decide⟩

theorem declaredAndCalled_unfound :
    ¬ ∃ py files, files.pathExists declaredAndCalled = false ∧ FindsCalls py files declaredAndCalled [] := by
  rintro ⟨py, files, text, finds⟩
  obtain ⟨content, read, direct⟩ := @direct_of_findsCalls py files declaredAndCalled [] finds
  rw [searched, text] at read
  obtain rfl := Except.ok.inj read
  exact absurd (direct _ _ declaredAndCalled_opens).2 (by decide)

end Tbf
