import Tbf.Library.Numeral
import Tbf.Utils

/-!
# The statistics of the test processor

`Statistics` keeps a name with an object. Some of the objects are also attributes of the processor: what is
done to such an object shows in the statistics, what is assigned to the attribute does not.
-/

namespace Tbf
open Text Numeral

inductive StatValue where
  | timerValidation | timerExecutionValidation
  | counterSizeHarnesses | counterHandledTestCases
  | constant
  | text (s : Str)
  deriving DecidableEq, Repr

/-- What the attribute `final_test_vector_size` refers to. -/
inductive FinalSize where
  | constant
  | length (n : Nat)
  deriving DecidableEq, Repr

/-- The times are left out; `constant` is the value of the only `Constant` that is ever made. -/
structure TestProcessor where
  counterSizeHarnesses : Nat
  counterHandledTestCases : Nat
  constant : Option Nat
  finalTestVectorSize : FinalSize
  stats : List (Str × StatValue)
  deriving DecidableEq, Repr

namespace TestProcessor

def addValue (p : TestProcessor) (property : Str) (value : StatValue) : Except Raised TestProcessor := do
  check (!(p.stats.map Prod.fst).contains property)
  return { p with stats := p.stats ++ [(property, value)] }

/-- `__init__` -/
def init : Except Raised TestProcessor := do
  let self : TestProcessor := ⟨0, 0, none, .constant, []⟩
  let self ← self.addValue "Time for validation".toList .timerValidation
  let self ← self.addValue "Time for execution validation".toList .timerExecutionValidation
  let self ← self.addValue "Total size of harnesses".toList .counterSizeHarnesses
  let self ← self.addValue "Number of looked-at test cases".toList .counterHandledTestCases
  self.addValue "Size of successful test vector".toList .constant

/-- `counter_handled_test_cases.inc()` -/
def incHandled (p : TestProcessor) : TestProcessor :=
  { p with counterHandledTestCases := p.counterHandledTestCases + 1 }

/-- The assignment to `final_test_vector_size`. -/
def setFinalSize (p : TestProcessor) (n : Nat) : TestProcessor := { p with finalTestVectorSize := .length n }

/-- What is printed for a value, but for the times. -/
def print (p : TestProcessor) : StatValue → Option Str
  | .timerValidation | .timerExecutionValidation => none
  | .counterSizeHarnesses => some (decimal p.counterSizeHarnesses)
  | .counterHandledTestCases => some (decimal p.counterHandledTestCases)
  | .constant => some ((p.constant.map decimal).getD "None".toList)
  | .text s => some s

def shown (p : TestProcessor) (property : Str) : Option Str := (p.stats.lookup property).bind p.print

/-- The size that the statistics show. -/
def shownSize (p : TestProcessor) : Option Str := p.shown "Size of successful test vector".toList

/-- What `__init__` makes. -/
def fresh : TestProcessor where
  counterSizeHarnesses := 0
  counterHandledTestCases := 0
  constant := none
  finalTestVectorSize := .constant
  stats :=
    [("Time for validation".toList, .timerValidation), ("Time for execution validation".toList, .timerExecutionValidation),
      ("Total size of harnesses".toList, .counterSizeHarnesses),
      ("Number of looked-at test cases".toList, .counterHandledTestCases),
      ("Size of successful test vector".toList, .constant)]

theorem init_fresh : init = .ok fresh := by
  decide

/-- As long as the `Constant` has no value, the size is shown as that. -/
theorem shownSize_none {p : TestProcessor} (stats : p.stats = fresh.stats) (constant : p.constant = none) :
    p.shownSize = some "None".toList := by
  have found : p.stats.lookup "Size of successful test vector".toList = some .constant := by
    rw [stats]
    decide
  rw [shownSize, shown, found, Option.bind_some, print, constant]
  rfl

end TestProcessor

end Tbf
