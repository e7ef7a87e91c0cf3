import Tbf.Library.Lines
import Tbf.Library.Numeral
import Tbf.Library.Pattern
import Tbf.Utils

/-!
# Coverage

`CoverageMeasuringExecutionRunner` reads the figures of the program off what gcov prints.
-/

namespace Tbf.Coverage
open Text Numeral

/-! ### `get_coverage` -/

/-- `_get_gcov_val` -/
def getGcovVal (gcovLine : Str) : Option Str :=
  match gcovLine.splitOn ':' with
  | _ :: stat :: _ =>
    let (front, back) := match findSub "of ".toList stat with
      | some found => found
      -- `find` gives -1, which counts from the end
      | none => (stat.dropLast, stat.drop (stat.length - 1))
    some (front ++ "(".toList ++ back ++ ")".toList)
  | _ => none

/-- The statements, the executed branches and the taken branches. -/
abbrev Figures := Option Str × Option Str × Option Str

def isFileLine (programName line : Str) : Bool := decide ("File".toList <+: line) && decide (programName <:+: line)

/-- The three lines behind the line of the file. -/
def readFigures : List Str → Except Raised Figures
  | linesExecuted :: branchesExecuted :: branchesTaken :: _ =>
    .ok (getGcovVal linesExecuted, getGcovVal branchesExecuted, getGcovVal branchesTaken)
  | _ => .error .indexError

def readCoverage (programName : Str) : List Str → Except Raised Figures
  | [] => .ok (none, none, none)
  | line :: rest => if isFileLine programName line then readFigures rest else readCoverage programName rest

/-- How the call of gcov ends: with an exit code and two streams, if it starts at all. -/
abbrev Gcov := Except Raised (Int × Bytes × Bytes)

def getCoverage (programFile : Str) (gcov : Gcov) : Except Raised Figures := do
  let (returncode, output, errOutput) ← gcov
  let res := executionResult returncode output errOutput
  match res.stdout with
  | .str stdout => readCoverage (basename programFile) (splitLines stdout)
  -- the lines of a `bytes` do not start with a `str`
  | .bytes stdout => if stdout = [] then .ok (none, none, none) else .error .typeError

theorem decodeOutput_of_decode {output : Bytes} {text : Str} (decoded : decode output = some text) :
    decodeOutput output = .str text := by
  unfold decodeOutput
  split
  · rename_i empty
    rw [empty] at decoded
    exact congrArg Value.str (Option.some.inj decoded)
  · rw [decoded]

theorem getCoverage_text {programFile text : Str} {returncode : Int} {output errOutput : Bytes}
    (decoded : decode output = some text) :
    getCoverage programFile (.ok (returncode, output, errOutput)) = readCoverage (basename programFile) (splitLines text) := by
  simp only [getCoverage, executionResult, decodeOutput_of_decode decoded, bind, Except.bind]

/-- What does not decode stays `bytes`, and has a line. -/
theorem getCoverage_bytes {programFile : Str} {returncode : Int} {output errOutput : Bytes} (undecodable : decode output = none) :
    getCoverage programFile (.ok (returncode, output, errOutput)) = .error .typeError := by
  have nonempty : output ≠ [] := by
    rintro rfl
    cases undecodable
  have raw : decodeOutput output = .bytes output := by
    rw [decodeOutput, if_neg nonempty, undecodable]
  simp only [getCoverage, executionResult, raw, bind, Except.bind, if_neg nonempty]

/-- A line that is not one of the program's files is passed over. -/
theorem readCoverage_skip {programName : Str} {front : List Str} (others : ∀ l ∈ front, isFileLine programName l = false)
    (rest : List Str) : readCoverage programName (front ++ rest) = readCoverage programName rest := by
  induction front with
  | nil => rfl
  | cons line front ih =>
    obtain ⟨here, later⟩ := List.forall_mem_cons.mp others
    rw [List.cons_append, readCoverage, here]
    exact ih later

/-! ### The report of gcov -/

structure Figure where
  percent : Str
  total : Nat
  chars : ∀ c ∈ percent, c.isDigit = true ∨ c = '.'

namespace Figure

def text (f : Figure) : Str := f.percent ++ "% of ".toList ++ decimal f.total

/-- How a figure is shown in the statistics. -/
def shown (f : Figure) : Str := f.percent ++ "% (of ".toList ++ decimal f.total ++ ")".toList

end Figure

/-- What is reported on one file; a line that starts with `File` opens the next section. -/
structure Section where
  path : Str
  statements : Figure
  branches : Option (Figure × Figure)
  calls : Option Figure
  further : List Str
  onOneLine : ∀ line ∈ path :: further, OnOneLine line
  unopened : ∀ line ∈ further, ¬ "File".toList <+: line

namespace Section

def head (s : Section) : Str := "File '".toList ++ s.path ++ "'".toList

def branchLines (s : Section) : List Str :=
  match s.branches with
  | some (executed, taken) => ["Branches executed:".toList ++ executed.text, "Taken at least once:".toList ++ taken.text]
  | none => ["No branches".toList]

def callLine (s : Section) : Str :=
  match s.calls with
  | some executed => "Calls executed:".toList ++ executed.text
  | none => "No calls".toList

def lines (s : Section) : List Str :=
  s.head :: ("Lines executed:".toList ++ s.statements.text) :: (s.branchLines ++ s.callLine :: s.further)

/-- The figures of the section. -/
def figures (s : Section) : Figures :=
  (some s.statements.shown, s.branches.map (·.1.shown), s.branches.map (·.2.shown))

/-- The program is the file of the section. -/
def IsOf (s : Section) (programFile : Str) : Prop := basename s.path = basename programFile

instance (s : Section) (programFile : Str) : Decidable (s.IsOf programFile) :=
  inferInstanceAs (Decidable (_ = _))

end Section

/-- The output of gcov as a text. -/
def report (sections : List Section) : Str := (sections.flatMap Section.lines).flatMap (· ++ ['\n'])

/-! ### What is read off a report -/

theorem Figure.not_mem_text {f : Figure} {c : Char} (digit : c.isDigit = false) (others : c ≠ '.' ∧ c ∉ "% of ".toList) :
    c ∉ f.text := by
  intro member
  rcases List.mem_append.mp member with member | member
  · rcases List.mem_append.mp member with member | member
    · rcases f.chars c member with isDigit | rfl
      · rw [digit] at isDigit
        cases isDigit
      · exact others.1 rfl
    · exact others.2 member
  · rw [isDigit_of_mem_decimal member] at digit
    cases digit

theorem Figure.not_mem_percent {f : Figure} {c : Char} (digit : c.isDigit = false) (dot : c ≠ '.') : c ∉ f.percent := by
  intro member
  rcases f.chars c member with isDigit | rfl
  · rw [digit] at isDigit
    cases isDigit
  · exact dot rfl

theorem getGcovVal_figure {label : Str} (plain : ':' ∉ label) (f : Figure) : getGcovVal (label ++ ':' :: f.text) = some f.shown := by
  have parts : (label ++ ':' :: f.text).splitOn ':' = [label, f.text] := by
    rw [List.splitOn_append_cons_self_of_not_mem plain,
      List.splitOn_eq_singleton (f.not_mem_text (by decide) (by decide))]
  have front : 'o' ∉ f.percent ++ "% ".toList :=
    List.not_mem_append (f.not_mem_percent (by decide) (by decide)) (by decide)
  have split : f.text = (f.percent ++ "% ".toList) ++ ("of ".toList ++ decimal f.total) := by
    rw [Figure.text, show "% of ".toList = "% ".toList ++ "of ".toList from rfl]
    simp only [List.append_assoc]
  have place : findSub "of ".toList f.text = some (f.percent ++ "% ".toList, "of ".toList ++ decimal f.total) := by
    rw [split]
    exact @findSub_append 'o' "f ".toList _ front (decimal f.total)
  rw [getGcovVal, parts]
  simp only [place]
  rw [Figure.shown, show "% (of ".toList = "% ".toList ++ "(".toList ++ "of ".toList from rfl]
  simp only [List.append_assoc]

theorem getGcovVal_labelled {label : Str} (ends : label.getLast? = some ':') (plain : ':' ∉ label.dropLast) (f : Figure) :
    getGcovVal (label ++ f.text) = some f.shown := by
  obtain ⟨front, rfl⟩ := List.getLast?_eq_some_iff.mp ends
  rw [List.dropLast_concat] at plain
  rw [List.append_assoc, List.singleton_append]
  exact getGcovVal_figure plain f

theorem getGcovVal_plain {line : Str} (plain : ':' ∉ line) : getGcovVal line = none := by
  rw [getGcovVal, List.splitOn_eq_singleton plain]

theorem Figure.shown_injective {f g : Figure} (same : f.shown = g.shown) : f = g := by
  have chars : ∀ h : Figure, ∀ c ∈ h.percent, (c.isDigit || c == '.') = true := by
    intro h c member
    rcases h.chars c member with digit | rfl
    · rw [digit, Bool.true_or]
    · rfl
  simp only [Figure.shown, List.append_assoc] at same
  obtain ⟨percents, rest⟩ := Pattern.run_unique (chars f) (chars g) (by simp) (by simp) same
  have totals := decimal_injective (List.append_cancel_right (List.append_cancel_left rest))
  cases f
  cases g
  cases percents
  cases totals
  rfl

theorem isFileLine_of_unopened {line : Str} (unopened : ¬ "File".toList <+: line) (programName : Str) :
    isFileLine programName line = false := by
  rw [isFileLine, decide_eq_false unopened, Bool.false_and]

namespace Section

/-- What `get_coverage` takes from the section: without branches, the calls take the place of the taken ones. -/
def read (s : Section) : Figures :=
  (some s.statements.shown, s.branches.map (·.1.shown),
    match s.branches with
    | some branches => some branches.2.shown
    | none => s.calls.map Figure.shown)

theorem unopened_behind (s : Section) : ∀ line ∈ s.lines.tail, ¬ "File".toList <+: line := by
  have other : ∀ {c : Char} {rest : Str}, c ≠ 'F' → ¬ "File".toList <+: c :: rest := fun apart opened =>
    apart (List.cons_prefix_cons.mp opened).1.symm
  intro line member
  rcases List.mem_cons.mp member with rfl | member
  · exact other (by decide)
  · rcases List.mem_append.mp member with member | member
    · unfold branchLines at member
      split at member
      · rcases List.mem_cons.mp member with rfl | member
        · exact other (by decide)
        · obtain rfl := List.mem_singleton.mp member
          exact other (by decide)
      · obtain rfl := List.mem_singleton.mp member
        exact other (by decide)
    · rcases List.mem_cons.mp member with rfl | member
      · unfold callLine
        split
        · exact other (by decide)
        · exact other (by decide)
      · exact s.unopened line member

theorem getGcovVal_callLine (s : Section) : getGcovVal s.callLine = s.calls.map Figure.shown := by
  unfold callLine
  cases s.calls with
  | some executed => exact getGcovVal_labelled (by decide) (by decide) executed
  | none => exact getGcovVal_plain (by decide)

theorem readFigures_behind (s : Section) (rest : List Str) : readFigures (s.lines.tail ++ rest) = .ok s.read := by
  have lines : getGcovVal ("Lines executed:".toList ++ s.statements.text) = some s.statements.shown :=
    getGcovVal_labelled (by decide) (by decide) s.statements
  have calls := s.getGcovVal_callLine
  simp only [Section.lines, List.tail_cons, List.cons_append, branchLines, read]
  cases s.branches with
  | some branches =>
    have executed : getGcovVal ("Branches executed:".toList ++ branches.1.text) = some branches.1.shown :=
      getGcovVal_labelled (by decide) (by decide) branches.1
    have taken : getGcovVal ("Taken at least once:".toList ++ branches.2.text) = some branches.2.shown :=
      getGcovVal_labelled (by decide) (by decide) branches.2
    simp only [List.cons_append, readFigures, lines, executed, taken, Option.map_some]
  | none =>
    have without : getGcovVal "No branches".toList = none := getGcovVal_plain (by decide)
    simp only [List.cons_append, List.nil_append, readFigures, lines, without, calls, Option.map_none]

end Section

theorem readCoverage_report (programName : Str) (sections : List Section) :
    readCoverage programName (sections.flatMap Section.lines) =
      .ok (((sections.find? fun s => isFileLine programName s.head).map Section.read).getD (none, none, none)) := by
  induction sections with
  | nil => rfl
  | cons s sections ih =>
    have split : (s :: sections).flatMap Section.lines = s.head :: (s.lines.tail ++ sections.flatMap Section.lines) := rfl
    rw [split, readCoverage, List.find?_cons]
    split
    · rename_i here
      rw [here, s.readFigures_behind]
      rfl
    · rename_i here
      rw [Bool.not_eq_true] at here
      rw [here, readCoverage_skip fun line member => isFileLine_of_unopened (s.unopened_behind line member) _, ih]

/-- The head of a section names its file, and so the program that is that file. -/
theorem isFileLine_head {s : Section} {programFile : Str} (same : s.IsOf programFile) :
    isFileLine (basename programFile) s.head = true := by
  have opened : "File".toList <+: s.head := ⟨" '".toList ++ s.path ++ "'".toList, rfl⟩
  have named : basename programFile <:+: s.head := by
    rw [← same]
    refine (basename_suffix s.path).isInfix.trans ⟨"File '".toList, "'".toList, rfl⟩
  rw [isFileLine, decide_eq_true opened, decide_eq_true named]
  rfl

theorem onOneLine_digit {c : Char} (digit : c.isDigit = true) : isLineEnd c = false ∧ c ≠ '\r' := by
  have bounds : 48 ≤ c.toNat ∧ c.toNat ≤ 57 := by
    rw [Char.isDigit, Bool.and_eq_true, decide_eq_true_eq, decide_eq_true_eq] at digit
    exact digit
  constructor
  · simp only [isLineEnd, Bool.or_eq_false_iff, Bool.and_eq_false_iff, decide_eq_false_iff_not, beq_eq_false_iff_ne]
    omega
  · rintro rfl
    cases digit

theorem Figure.onOneLine_text (f : Figure) : OnOneLine f.text := by
  apply OnOneLine.append
  · apply OnOneLine.append
    · intro c member
      rcases f.chars c member with digit | rfl
      · exact onOneLine_digit digit
      · decide
    · decide
  · exact fun c member => onOneLine_digit (isDigit_of_mem_decimal member)

theorem Section.onOneLine_lines (s : Section) : ∀ line ∈ s.lines, OnOneLine line := by
  obtain ⟨path, further⟩ := List.forall_mem_cons.mp s.onOneLine
  have figure : ∀ {label : Str}, OnOneLine label → ∀ f : Figure, OnOneLine (label ++ f.text) := fun first f =>
    first.append f.onOneLine_text
  have head : OnOneLine s.head := OnOneLine.append (OnOneLine.append (by decide) path) (by decide)
  have branchLines : ∀ line ∈ s.branchLines, OnOneLine line := by
    unfold Section.branchLines
    cases s.branches with
    | some branches =>
      exact List.forall_mem_cons.mpr ⟨figure (by decide) _, List.forall_mem_singleton.mpr (figure (by decide) _)⟩
    | none => exact List.forall_mem_singleton.mpr (by decide)
  have callLine : OnOneLine s.callLine := by
    unfold Section.callLine
    cases s.calls with
    | some calls => exact figure (by decide) _
    | none => decide
  exact List.forall_mem_cons.mpr ⟨head, List.forall_mem_cons.mpr ⟨figure (by decide) _,
    List.forall_mem_append.mpr ⟨branchLines, List.forall_mem_cons.mpr ⟨callLine, further⟩⟩⟩⟩

theorem splitLines_report (sections : List Section) : splitLines (report sections) = sections.flatMap Section.lines := by
  apply splitLines_flatMap
  intro line member
  obtain ⟨s, _, inside⟩ := List.mem_flatMap.mp member
  exact s.onOneLine_lines line inside

/-- What is read off a report is what the first section gives whose head has the name of the program in it. -/
theorem getCoverage_report (programFile : Str) (sections : List Section) (returncode : Int) (errOutput : Bytes) :
    getCoverage programFile (.ok (returncode, encode (report sections), errOutput)) =
      .ok (((sections.find? fun s => isFileLine (basename programFile) s.head).map Section.read).getD (none, none, none)) := by
  rw [getCoverage_text (decode_encode _), splitLines_report, readCoverage_report]

theorem Section.read_eq_figures {first own : Section} : first.read = own.figures ↔
    first.statements = own.statements ∧ first.branches = own.branches ∧ (first.branches = none → first.calls = none) := by
  have shown := @Figure.shown_injective
  unfold read figures
  rw [Prod.mk.injEq, Prod.mk.injEq, Option.some.injEq]
  constructor
  · rintro ⟨statements, executed, taken⟩
    refine ⟨shown statements, ?_⟩
    cases here : first.branches with
    | some branches =>
      simp only [here] at executed taken
      cases there : own.branches with
      | some others =>
        simp only [there, Option.map_some, Option.some.injEq] at executed taken
        exact ⟨congrArg some (Prod.ext (shown executed) (shown taken)), nofun⟩
      | none => simp [there] at executed
    | none =>
      simp only [here] at executed taken
      cases there : own.branches with
      | some others => simp [there] at executed
      | none => exact ⟨rfl, fun _ => by simpa [there] using taken⟩
  · rintro ⟨statements, branches, calls⟩
    rw [← statements, ← branches]
    refine ⟨rfl, rfl, ?_⟩
    cases here : first.branches with
    | some branches => rfl
    | none => simp [calls here]

/-- The figures that come back are the program's own exactly if the first section whose head has the name in it
has the same ones, and no calls where it has no branches. -/
theorem getCoverage_own_iff {programFile : Str} {sections : List Section} {own : Section}
    (unique : sections.filter (fun s => s.IsOf programFile) = [own]) (returncode : Int) (errOutput : Bytes) :
    getCoverage programFile (.ok (returncode, encode (report sections), errOutput)) = .ok own.figures ↔
      ∃ first, sections.find? (fun s => isFileLine (basename programFile) s.head) = some first ∧
        first.statements = own.statements ∧ first.branches = own.branches ∧ (first.branches = none → first.calls = none) := by
  rw [getCoverage_report, Except.ok.injEq]
  have found : ∃ first, sections.find? (fun s => isFileLine (basename programFile) s.head) = some first := by
    have member : own ∈ sections.filter (fun s => s.IsOf programFile) := by
      rw [unique]
      exact List.mem_singleton_self own
    obtain ⟨inside, same⟩ := List.mem_filter.mp member
    rw [← Option.isSome_iff_exists, List.find?_isSome]
    exact ⟨own, inside, isFileLine_head (of_decide_eq_true same)⟩
  obtain ⟨first, found⟩ := found
  rw [found, Option.map_some, Option.getD_some, Section.read_eq_figures]
  simp only [Option.some.injEq, exists_eq_left']

def half : Figure := ⟨"50.00".toList, 4, forall_mem_of_all (by decide)⟩

def all : Figure := ⟨"100.00".toList, 8, forall_mem_of_all (by decide)⟩

def sectionOf (path : Str) (onOneLine : OnOneLine path) (statements : Figure) (branches : Option (Figure × Figure))
    (calls : Option Figure) : Section where
  path := path
  statements := statements
  branches := branches
  calls := calls
  further := ["".toList]
  onOneLine := List.forall_mem_cons.mpr ⟨onOneLine, List.forall_mem_singleton.mpr (by decide)⟩
  unopened := List.forall_mem_singleton.mpr (by decide)

def programSection : Section := sectionOf "dir/s.c".toList (by decide) half (some (half, half)) (some half)

def harnessSection : Section := sectionOf "harness.c".toList (by decide) all (some (all, all)) (some all)

theorem programFirst_covered :
    getCoverage "dir/s.c".toList (.ok (0, encode (report [programSection, harnessSection]), [])) = .ok programSection.figures :=
  (getCoverage_own_iff (by rfl) 0 []).mpr ⟨programSection, by rfl, rfl, rfl, nofun⟩

/-- The name of the program ends that of the harness. -/
theorem harnessFirst_miscovered :
    [harnessSection, programSection].filter (fun s => s.IsOf "dir/s.c".toList) = [programSection] ∧
      getCoverage "dir/s.c".toList (.ok (0, encode (report [harnessSection, programSection]), [])) ≠ .ok programSection.figures := by
  refine ⟨by rfl, ?_⟩
  have first : [harnessSection, programSection].find? (fun s => isFileLine (basename "dir/s.c".toList) s.head) = some harnessSection := by
    rfl
  rw [getCoverage_report, first, Option.map_some, Option.getD_some, ne_eq, Except.ok.injEq, Section.read_eq_figures]
  rintro ⟨statements, _⟩
  exact absurd (congrArg Figure.total statements) (by decide)

end Tbf.Coverage
