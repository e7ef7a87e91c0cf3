import Tbf.Library.Words
import Tbf.Tools.Converters

/-!
# The program that FShell is given

Every `nondet` of the program gets one more underscore, and the converter looks for the names that result from this.
-/

namespace Tbf.Fshell
open Text

def renameNondet (content : Str) : Str := replaceSub "nondet".toList "_nondet".toList content

def getErrorMethodDefinition (errorMethod : Str) : Str :=
  "void ".toList ++ errorMethod ++ "() \x7b fprintf(stderr, \"".toList ++ ERROR_STRING ++ "\\n\"); \x7d\n".toList

/-- The program, and what is put behind it. The empty name counts as no error method. -/
def completed (filecontent : Str) (errorMethod : Option Str) : Str :=
  filecontent ++ '\n' :: EXTERNAL_DECLARATIONS ++ '\n' :: getAssumeMethod ++ '\n' ::
    match errorMethod with
    | some name => if name ≠ [] then getErrorMethodDefinition name else []
    | none => []

/-- `Preprocessor.prepare` -/
def prepare (filecontent : Str) (_nondetMethodsUsed : List NondetMethod) (errorMethod : Option Str) : Str :=
  renameNondet (completed filecontent errorMethod)

/-- A way to rename in a whole text that renames each identifier on its own and can be taken back. -/
structure Consistent (rename : Str → Str) : Prop where
  whole : ∀ text, rename text = mapWords isIdentifierChar rename text
  words : ∀ text front x back, WordAt isIdentifierChar text front x back →
    WordAt isIdentifierChar (rename text) (rename front) (rename x) (rename back)
  identifiers : ∀ x : CIdentifier, ∃ y : CIdentifier, y.name = rename x.name
  distinct : ∀ x y : CIdentifier, rename x.name = rename y.name → x.name = y.name
  reversible : ∃ restore : Str → Str, ∀ text, restore (rename text) = text

/-! ### The renaming -/

theorem nondet_solid : "nondet".toList ≠ [] := by decide

theorem keepsWords_renameNondet : KeepsWords isIdentifierChar renameNondet :=
  keepsWords_replaceSub nondet_solid (by decide) (forall_mem_of_all (by decide)) (forall_mem_of_all (by decide))

theorem foreign_mark : ∀ c ∈ "_".toList, c ∉ "nondet".toList := forall_mem_of_all (by decide)

theorem mark_solid : "_".toList ≠ [] := by decide

theorem renameNondet_injective : Function.Injective renameNondet :=
  replaceSub_mark_injective mark_solid nondet_solid foreign_mark

theorem head_renameNondet {x : Str} (noDigit : ∀ c ∈ x.head?, c.isDigit = false) :
    ∀ c ∈ (renameNondet x).head?, c.isDigit = false := by
  cases x using replace_induction nondet_solid with
  | nil => exact noDigit
  | here x =>
    rw [renameNondet, replaceSub_here nondet_solid]
    intro c first
    obtain rfl := Option.some.inj first
    decide
  | cons c x absent =>
    rw [renameNondet, replaceSub_cons absent]
    exact noDigit

def renamedIdentifier (x : CIdentifier) : CIdentifier where
  name := renameNondet x.name
  nonempty := keepsWords_renameNondet.solid _ x.nonempty
  chars := keepsWords_renameNondet.chars _ x.chars
  noDigit := head_renameNondet x.noDigit

theorem consistent_renameNondet : Consistent renameNondet where
  whole := keepsWords_renameNondet.toWordWise.eq_mapWords
  words _ _ _ _ place := place.map keepsWords_renameNondet
  identifiers x := ⟨renamedIdentifier x, rfl⟩
  distinct _ _ same := renameNondet_injective same
  reversible := ⟨replaceSub "_nondet".toList "nondet".toList, replaceSub_unmark mark_solid nondet_solid foreign_mark⟩

/-! ### The lines of the test suite -/

/-- A name ends where a parenthesis follows. -/
theorem prefix_call_iff (x y : CIdentifier) (rest : Str) : x.name ++ ['('] <+: y.name ++ '(' :: rest ↔ x.name = y.name := by
  have border : ∀ rest : Str, ∀ c ∈ ('(' :: rest).head?, isIdentifierChar c = false := by
    intro rest c first
    obtain rfl := Option.some.inj first
    decide
  constructor
  · intro front
    obtain ⟨behind, split⟩ := front
    rw [← List.append_cons] at split
    exact (Pattern.run_unique x.chars y.chars (border behind) (border rest) split).1
  · intro same
    rw [same]
    exact ⟨rest, (List.append_cons _ _ _).symm⟩

theorem isInteresting_call_iff (nondetMethods : List CIdentifier) (f : CIdentifier) (rest : Str) :
    isInteresting (interestingMethods (nondetMethods.map CIdentifier.name)) (renameNondet f.name ++ '(' :: rest) = true ↔
      f.name ∈ nondetMethods.map CIdentifier.name := by
  have call (method : CIdentifier) :
      renameNondet method.name ++ ['('] <+: renameNondet f.name ++ '(' :: rest ↔ method.name = f.name :=
    (prefix_call_iff (renamedIdentifier method) (renamedIdentifier f) rest).trans renameNondet_injective.eq_iff
  rw [isInteresting, List.any_eq_true, List.mem_map]
  constructor
  · intro found
    obtain ⟨m, member, front⟩ := found
    obtain ⟨name, inNames, rfl⟩ := List.mem_map.mp member
    obtain ⟨method, listed, rfl⟩ := List.mem_map.mp inNames
    exact ⟨method, listed, (call method).mp (List.isPrefixOf_iff_prefix.mp front)⟩
  · intro found
    obtain ⟨method, listed, same⟩ := found
    refine ⟨renameNondet method.name, ?_, List.isPrefixOf_iff_prefix.mpr ((call method).mpr same)⟩
    exact List.mem_map_of_mem (List.mem_map_of_mem listed)

/-- In the whole text, every maximal identifier becomes what it becomes on its own, and no two become one, so that the
converter recognises the calls of the nondet methods and no others. -/
theorem renaming_consistent :
    Consistent renameNondet ∧
      (∀ filecontent nondetMethodsUsed errorMethod, prepare filecontent nondetMethodsUsed errorMethod =
        mapWords isIdentifierChar renameNondet (completed filecontent errorMethod)) ∧
      (∀ nondetMethods, interestingMethods nondetMethods = nondetMethods.map renameNondet) ∧
      ∀ (nondetMethods : List CIdentifier) (f : CIdentifier) (rest : Str),
        isInteresting (interestingMethods (nondetMethods.map CIdentifier.name)) (renameNondet f.name ++ '(' :: rest) = true ↔
          f.name ∈ nondetMethods.map CIdentifier.name :=
  ⟨consistent_renameNondet, fun _ _ _ => consistent_renameNondet.whole _, fun _ => rfl, isInteresting_call_iff⟩

/-- Several occurrences, one of them behind an underscore. -/
example : renameNondet "x = __VERIFIER_nondet_int() + nondetnondet;".toList =
    "x = __VERIFIER__nondet_int() + _nondet_nondet;".toList := by decide

end Tbf.Fshell
