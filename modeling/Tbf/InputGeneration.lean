import Mathlib.Logic.Function.Basic
import Tbf.Library.Effects
import Tbf.Library.Lines
import Tbf.Processing

/-!
# Input generation

`BaseInputGenerator.generate_input`: the program is prepared for the tool, and the commands of the tool are
run one after the other. What is called on the way may raise at any point.
-/

namespace Tbf.InputGeneration
open Text Effects

abbrev Command := List Str

/-- `InputGenerationError` is raised here and nowhere else. -/
inductive Exception where
  | inputGenerationError (msg : Str)
  | raised (e : Raised)
  deriving DecidableEq, Repr

/-! ### Stopwatches -/

inductive Timer where
  | inputGen | generator | fileAccess | prepare
  deriving DecidableEq, Repr

/-- A stopwatch, with the number of intervals that it measured. -/
structure Stopwatch where
  running : Bool
  intervals : Nat
  deriving DecidableEq, Repr

abbrev Timers := Timer → Stopwatch

def Timers.begin (timers : Timers) (t : Timer) : Timers :=
  Function.update timers t { timers t with running := true }

def Timers.finish (timers : Timers) (t : Timer) : Timers :=
  Function.update timers t ⟨false, (timers t).intervals + 1⟩

/-- The stopwatches in the order of `self.statistics`. -/
def stats : List Timer := [.inputGen, .generator, .fileAccess, .prepare]

/-! ### The outside -/

/-- What is called and what comes back. -/
inductive Event where
  | read (file : Str) (answer : Except Raised Str)
  | exists (file : Str) (answer : Bool)
  | prepared (content : Str) (answer : Except Raised Str)
  | wrote (file content : Str) (answer : Except Raised Unit)
  | commands (file : Str) (answer : Except Raised (List Command))
  | executed (cmd : Command) (answer : Except Raised Int)
  | asked (answer : Bool)

/-- Files, tools and the stop flag: a state of their own, so that any call may change what a later one gives. -/
structure Host (ω : Type) where
  readFile : Str → ω → Except Raised Str × ω
  pathExists : Str → ω → Bool × ω
  prepare : Str → ω → Except Raised Str × ω
  writeFile : Str → Str → ω → Except Raised Unit × ω
  createInputGenerationCmds : Str → ω → Except Raised (List Command) × ω
  execute : Command → ω → Except Raised Int × ω
  isSet : ω → Bool × ω

structure State (ω : Type) where
  timers : Timers
  trace : List Event
  world : ω

abbrev Gen (ω : Type) := Comp (State ω) Exception

section
variable {ω α : Type}

def start (t : Timer) : Gen ω Unit := do
  let s ← get
  if (s.timers t).running then throw (.raised .assertionError)
  else set { s with timers := s.timers.begin t }

def stop (t : Timer) : Gen ω Unit := do
  let s ← get
  if (s.timers t).running then set { s with timers := s.timers.finish t }
  else throw (.raised .assertionError)

def ask (call : ω → α × ω) (log : α → Event) : Gen ω α := do
  let s ← get
  let (answer, world) := call s.world
  set { s with trace := s.trace ++ [log answer], world := world }
  return answer

def askOrRaise (call : ω → Except Raised α × ω) (log : Except Raised α → Event) : Gen ω α := do
  match ← ask call log with
  | .ok a => return a
  | .error e => throw (.raised e)

end

/-! ### `generate_input` -/

def getPreparedName (filename toolName : Str) : Str :=
  ".".toList.intercalate (((basename filename).splitOn '.').dropLast ++ [toolName, "c".toList])

def failed (returncode : Int) : Bool := returncode ≠ 0

/-- The exceptions that are logged and make the generation a failure. -/
def caught : Exception → Bool
  | .inputGenerationError _ => true
  | .raised e => e == .compileError || e == .parseError

section
variable {ω : Type} (host : Host ω)

def readContent (filename : Str) : Gen ω Str := do
  start .fileAccess
  let filecontent ← askOrRaise (host.readFile filename) (.read filename)
  stop .fileAccess
  return filecontent

def prepareFile (fileToAnalyze filecontent : Str) : Gen ω Unit := do
  let present ← ask (host.pathExists fileToAnalyze) (.exists fileToAnalyze)
  if present then return ()
  else
    start .prepare
    let preparedContent ← askOrRaise (host.prepare filecontent) (.prepared filecontent)
    start .fileAccess
    askOrRaise (host.writeFile fileToAnalyze preparedContent) (.wrote fileToAnalyze preparedContent)
    stop .fileAccess
    stop .prepare

def runCommand (cmd : Command) : Gen ω Unit := do
  start .generator
  let returncode ← askOrRaise (host.execute cmd) (.executed cmd)
  stop .generator
  if failed returncode then
    let stopped ← ask host.isSet .asked
    if stopped then return ()
    else throw (.inputGenerationError ("Failed at command: ".toList ++ " ".toList.intercalate cmd))
  else return ()

def runCommands : List Command → Gen ω Unit
  | [] => return ()
  | cmd :: cmds => do
    runCommand host cmd
    runCommands cmds

def body (filename toolName : Str) : Gen ω Bool := do
  let fileToAnalyze := getPreparedName filename toolName
  let filecontent ← readContent host filename
  prepareFile host fileToAnalyze filecontent
  let cmds ← askOrRaise (host.createInputGenerationCmds fileToAnalyze) (.commands fileToAnalyze)
  runCommands host cmds
  return true

def stopRunning : List Timer → Gen ω Unit
  | [] => return ()
  | t :: timers => do
    let s ← get
    if (s.timers t).running then stop t
    stopRunning timers

def attempt (filename toolName : Str) : Gen ω Bool := do
  try body host filename toolName
  catch e => if caught e then pure false else throw e

/-- `True` for success; the statistics come with it in both cases. -/
def generateInput (filename toolName : Str) : Gen ω Bool := do
  start .inputGen
  try attempt host filename toolName
  finally
    stop .inputGen
    stopRunning stats

end

/-! ### What is called, in which order -/

/-- The commands that are run, and how this ends: a command that fails counts only while the stop flag is not set. -/
inductive Commanded : List Command → List Event → Except Exception Unit → Prop where
  | done : Commanded [] [] (.ok ())
  | raised {cmd : Command} {cmds : List Command} {e : Raised} :
    Commanded (cmd :: cmds) [.executed cmd (.error e)] (.error (.raised e))
  | succeeded {cmd : Command} {cmds : List Command} {code : Int} {events : List Event} {r : Except Exception Unit}
      (zero : failed code = false) (later : Commanded cmds events r) :
    Commanded (cmd :: cmds) (.executed cmd (.ok code) :: events) r
  | stopped {cmd : Command} {cmds : List Command} {code : Int} {events : List Event} {r : Except Exception Unit}
      (nonzero : failed code = true) (later : Commanded cmds events r) :
    Commanded (cmd :: cmds) (.executed cmd (.ok code) :: .asked true :: events) r
  | failed {cmd : Command} {cmds : List Command} {code : Int} {msg : Str} (nonzero : failed code = true) :
    Commanded (cmd :: cmds) [.executed cmd (.ok code), .asked false] (.error (.inputGenerationError msg))

/-- From the prepared file on. -/
inductive Launched (file : Str) : List Event → Except Exception Unit → Prop where
  | raised {e : Raised} : Launched file [.commands file (.error e)] (.error (.raised e))
  | commanded {cmds : List Command} {events : List Event} {r : Except Exception Unit} (run : Commanded cmds events r) :
    Launched file (.commands file (.ok cmds) :: events) r

/-- All that `generate_input` does: it reads the program, and launches the tool on a file that was there or
that it wrote itself, with what the preprocessor made of the program. -/
inductive Story (filename file : Str) : List Event → Except Exception Unit → Prop where
  | unreadable {e : Raised} : Story filename file [.read filename (.error e)] (.error (.raised e))
  | present {content : Str} {events : List Event} {r : Except Exception Unit} (launched : Launched file events r) :
    Story filename file (.read filename (.ok content) :: .exists file true :: events) r
  | unprepared {content : Str} {e : Raised} :
    Story filename file [.read filename (.ok content), .exists file false, .prepared content (.error e)] (.error (.raised e))
  | unwritten {content text : Str} {e : Raised} :
    Story filename file [.read filename (.ok content), .exists file false, .prepared content (.ok text),
      .wrote file text (.error e)] (.error (.raised e))
  | written {content text : Str} {events : List Event} {r : Except Exception Unit} (launched : Launched file events r) :
    Story filename file (.read filename (.ok content) :: .exists file false :: .prepared content (.ok text) ::
      .wrote file text (.ok ()) :: events) r

/-- What is returned at the end of a story, or raised. -/
def outcome : Except Exception Unit → Except Exception Bool
  | .ok () => .ok true
  | .error e => if caught e then .ok false else .error e

/-- The stopwatch that an action is measured with. -/
def Event.timer : Event → Option Timer
  | .read _ _ => some .fileAccess
  | .wrote _ _ _ => some .fileAccess
  | .prepared _ _ => some .prepare
  | .executed _ _ => some .generator
  | _ => none

def spent (t : Timer) (events : List Event) : Nat := events.countP fun e => e.timer == some t

/-! ### Single steps -/

section
variable {ω α : Type} {timers : Timers} {trace : List Event} {raises : Exception → State ω → Prop}

def At (timers : Timers) (trace : List Event) (s : State ω) : Prop := s.timers = timers ∧ s.trace = trace

theorem start_spec {t : Timer} (idle : (timers t).running = false) :
    Triple (At timers trace) (start t : Gen ω Unit) (fun _ => At (timers.begin t) trace) raises := by
  rintro s ⟨rfl, rfl⟩
  simp only [start, exec_bind, exec_get, idle]
  exact ⟨rfl, rfl⟩

theorem stop_spec {t : Timer} (running : (timers t).running = true) :
    Triple (At timers trace) (stop t : Gen ω Unit) (fun _ => At (timers.finish t) trace) raises := by
  rintro s ⟨rfl, rfl⟩
  simp only [stop, exec_bind, exec_get, running]
  exact ⟨rfl, rfl⟩

theorem ask_spec (call : ω → α × ω) (log : α → Event) :
    Triple (At timers trace) (ask call log) (fun a => At timers (trace ++ [log a])) raises := by
  rintro s ⟨rfl, rfl⟩
  exact ⟨rfl, rfl⟩

theorem askOrRaise_spec (call : ω → Except Raised α × ω) (log : Except Raised α → Event) :
    Triple (At timers trace) (askOrRaise call log) (fun a => At timers (trace ++ [log (.ok a)]))
      (fun e s => ∃ r, e = .raised r ∧ At timers (trace ++ [log (.error r)]) s) := by
  refine (ask_spec call log).bind fun answer => ?_
  cases answer with
  | ok a => exact Triple.pure fun _ here => here
  | error r => exact Triple.throw fun _ here => ⟨r, rfl, here⟩

end

/-! ### What is measured so far -/

section
variable {ω : Type} (base : Timers) (old : List Event)

/-- Between two actions only the stopwatch for the whole runs. -/
def measured (events : List Event) : Timers :=
  fun t => ⟨decide (t = .inputGen), (base t).intervals + spent t events⟩

/-- At the end none runs any more, and the one for the whole has measured one more interval. -/
def finished (events : List Event) : Timers :=
  fun t => ⟨false, (base t).intervals + if t = .inputGen then 1 else spent t events⟩

def Between (events : List Event) : State ω → Prop := At (measured base events) (old ++ events)

/-- An exception leaves the stopwatches of what it interrupted running: their intervals are not counted yet. -/
def Interrupted (events : List Event) (s : State ω) : Prop :=
  s.trace = old ++ events ∧ ((s.timers .inputGen).running = true ∧ (s.timers .inputGen).intervals = (base .inputGen).intervals) ∧
    ∀ t ≠ .inputGen, (s.timers t).intervals + (s.timers t).running.toNat = (base t).intervals + spent t events

end

section
variable {ω : Type} {base : Timers} {old events : List Event}

@[simp] theorem spent_append (t : Timer) (first second : List Event) : spent t (first ++ second) = spent t first + spent t second :=
  List.countP_append

theorem spent_cons (t : Timer) (e : Event) (events : List Event) :
    spent t (e :: events) = spent t events + if e.timer = some t then 1 else 0 := by
  simp [spent, List.countP_cons]

@[simp] theorem spent_nil (t : Timer) : spent t [] = 0 := rfl

theorem spent_inputGen (events : List Event) : spent .inputGen events = 0 := by
  rw [spent, List.countP_eq_zero]
  intro e _
  cases e <;> simp [Event.timer]

theorem Between.interrupted {s : State ω} (here : Between base old events s) : Interrupted base old events s := by
  obtain ⟨timers, trace⟩ := here
  refine ⟨trace, ?_, fun t other => ?_⟩
  · simp [timers, measured, spent_inputGen]
  · simp [timers, measured, other]

@[simp] theorem measured_running (t : Timer) : (measured base events t).running = decide (t = .inputGen) := rfl

theorem measured_timed {t : Timer} {e : Event} (other : t ≠ .inputGen) (kind : e.timer = some t) :
    ((measured base events).begin t).finish t = measured base (events ++ [e]) := by
  funext u
  by_cases same : u = t
  · subst same
    simp [Timers.begin, Timers.finish, measured, other, spent_cons, kind, Nat.add_assoc]
  · have apart : ¬ t = u := fun equal => same equal.symm
    simp [Timers.begin, Timers.finish, measured, same, apart, spent_cons, kind]

theorem interrupted_timed {t : Timer} {e : Event} (other : t ≠ .inputGen) (kind : e.timer = some t) {s : State ω}
    (here : At ((measured base events).begin t) (old ++ events ++ [e]) s) : Interrupted base old (events ++ [e]) s := by
  obtain ⟨timers, trace⟩ := here
  refine ⟨by rw [trace, List.append_assoc], ?_, fun u apart => ?_⟩
  · have different : (Timer.inputGen) ≠ t := fun equal => other equal.symm
    simp [timers, Timers.begin, measured, different, spent_inputGen]
  · by_cases same : u = t
    · subst same
      simp [timers, Timers.begin, measured, spent_cons, kind, Nat.add_assoc]
    · have unequal : ¬ t = u := fun equal => same equal.symm
      simp [timers, Timers.begin, measured, same, unequal, apart, spent_cons, kind]

end

/-! ### One call after the other -/

section
variable {ω α β : Type} {base : Timers} {old events : List Event} {post : β → State ω → Prop} {raises : Exception → State ω → Prop}

/-- A call that is measured, and what comes after it. -/
theorem timed_spec {t : Timer} (other : t ≠ .inputGen) {call : ω → Except Raised α × ω} {log : Except Raised α → Event}
    (kind : ∀ answer, (log answer).timer = some t) {rest : α → Gen ω β}
    (later : ∀ a, Triple (Between base old (events ++ [log (.ok a)])) (rest a) post raises)
    (raised : ∀ r s, Interrupted base old (events ++ [log (.error r)]) s → raises (.raised r) s) :
    Triple (Between base old events)
      (do
        start t
        let a ← askOrRaise call log
        stop t
        rest a) post raises := by
  refine (start_spec (by simp [other])).bind fun _ => ?_
  refine ((askOrRaise_spec call log).conseq (fun _ here => here) (fun _ _ here => here) ?_).bind fun a => ?_
  · rintro _ s ⟨r, rfl, here⟩
    exact raised r s (interrupted_timed other (kind _) here)
  · refine (stop_spec (by simp [Timers.begin])).bind fun _ => (later a).conseq ?_ (fun _ _ here => here) (fun _ _ here => here)
    rintro s ⟨timers, trace⟩
    exact ⟨timers.trans (measured_timed other (kind _)), trace.trans (List.append_assoc ..)⟩

/-- A call that no stopwatch measures. -/
theorem untimed_spec {call : ω → α × ω} {log : α → Event} (kind : ∀ answer, (log answer).timer = none) :
    Triple (Between base old events) (ask call log) (fun a => Between base old (events ++ [log a])) raises := by
  refine (ask_spec call log).conseq (fun _ here => here) ?_ (fun _ _ here => here)
  rintro a s ⟨timers, trace⟩
  refine ⟨timers.trans ?_, trace.trans (List.append_assoc ..)⟩
  funext t
  simp [measured, spent_cons, kind]

theorem untimedOrRaise_spec {call : ω → Except Raised α × ω} {log : Except Raised α → Event}
    (kind : ∀ answer, (log answer).timer = none) :
    Triple (Between base old events) (askOrRaise call log) (fun a => Between base old (events ++ [log (.ok a)]))
      (fun e s => ∃ r, e = .raised r ∧ Interrupted base old (events ++ [log (.error r)]) s) := by
  refine (untimed_spec kind).bind fun answer => ?_
  cases answer with
  | ok a => exact Triple.pure fun _ here => here
  | error r => exact Triple.throw fun _ here => ⟨r, rfl, here.interrupted⟩

end

/-! ### The parts of a run -/

section
variable {ω : Type} {host : Host ω} {base : Timers} {old events : List Event}

theorem readContent_spec (filename : Str) :
    Triple (Between base old events) (readContent host filename)
      (fun content => Between base old (events ++ [.read filename (.ok content)]))
      (fun e s => ∃ r, e = .raised r ∧ Interrupted base old (events ++ [.read filename (.error r)]) s) :=
  timed_spec (by decide) (fun _ => rfl) (fun _ => Triple.pure fun _ here => here) fun r _ here => ⟨r, rfl, here⟩

/-- The time for the file is part of the time for the preparation. -/
theorem measured_prepared {content text file : Str} :
    ((((measured base (events ++ [.exists file false])).begin .prepare).begin .fileAccess).finish .fileAccess).finish .prepare =
      measured base (events ++ [.exists file false, .prepared content (.ok text), .wrote file text (.ok ())]) := by
  funext t
  cases t <;> simp [Timers.begin, Timers.finish, Function.update, measured, spent_cons, Event.timer] <;> omega

theorem prepareFile_spec (file content : Str) :
    Triple (Between base old events) (prepareFile host file content)
      (fun _ s => Between base old (events ++ [.exists file true]) s ∨
        ∃ text, Between base old (events ++ [.exists file false, .prepared content (.ok text), .wrote file text (.ok ())]) s)
      (fun e s => ∃ r, e = .raised r ∧
        (Interrupted base old (events ++ [.exists file false, .prepared content (.error r)]) s ∨
          ∃ text, Interrupted base old
            (events ++ [.exists file false, .prepared content (.ok text), .wrote file text (.error r)]) s)) := by
  refine (untimed_spec fun _ => rfl).bind fun present => ?_
  cases present with
  | true => exact Triple.pure fun _ here => .inl here
  | false =>
    refine (start_spec (by simp)).bind fun _ => ?_
    refine ((askOrRaise_spec _ _).conseq (fun _ here => here) (fun _ _ here => here) ?_).bind fun text => ?_
    · rintro _ s ⟨r, rfl, here⟩
      refine ⟨r, rfl, .inl ?_⟩
      simpa using interrupted_timed (by decide) rfl here
    · refine (start_spec (by simp [Timers.begin])).bind fun _ => ?_
      refine ((askOrRaise_spec _ _).conseq (fun _ here => here) (fun _ _ here => here) ?_).bind fun _ => ?_
      · rintro _ s ⟨r, rfl, timers, trace⟩
        refine ⟨r, rfl, .inr ⟨text, by simp [trace], ?_, fun t other => ?_⟩⟩
        · simp [timers, Timers.begin, measured, spent_inputGen]
        · cases t <;> simp [timers, Timers.begin, measured, spent_cons, Event.timer, Function.update] at other ⊢ <;> omega
      · refine (stop_spec (by simp [Timers.begin])).bind fun _ => ?_
        refine (stop_spec (by simp [Timers.begin, Timers.finish])).conseq (fun _ here => here) ?_ (fun _ _ here => here)
        rintro _ s ⟨timers, trace⟩
        exact .inr ⟨text, timers.trans measured_prepared, by simp [trace]⟩

theorem runCommand_spec (cmd : Command) :
    Triple (Between base old events) (runCommand host cmd)
      (fun _ s => ∃ here, (∀ cmds later r, Commanded cmds later r → Commanded (cmd :: cmds) (here ++ later) r) ∧
        Between base old (events ++ here) s)
      (fun e s => ∃ here, (∀ cmds, Commanded (cmd :: cmds) here (.error e)) ∧ Interrupted base old (events ++ here) s) := by
  refine timed_spec (by decide) (fun _ => rfl) (fun code => ?_) fun r s there => ⟨_, fun cmds => .raised, there⟩
  by_cases nonzero : failed code
  · rw [if_pos nonzero]
    refine (untimed_spec fun _ => rfl).bind fun stopped => ?_
    cases stopped with
    | true => exact Triple.pure fun s there => ⟨_, fun _ _ _ run => .stopped nonzero run, by rwa [List.append_assoc] at there⟩
    | false =>
      refine Triple.throw fun s there => ⟨_, fun cmds => .failed nonzero, ?_⟩
      rw [List.append_assoc] at there
      exact there.interrupted
  · rw [if_neg nonzero]
    exact Triple.pure fun s there => ⟨_, fun _ _ _ run => .succeeded (by simpa using nonzero) run, there⟩

theorem runCommands_spec : ∀ (cmds : List Command) (events : List Event),
    Triple (Between base old events) (runCommands host cmds)
      (fun _ s => ∃ later, Commanded cmds later (.ok ()) ∧ Between base old (events ++ later) s)
      (fun e s => ∃ later, Commanded cmds later (.error e) ∧ Interrupted base old (events ++ later) s)
  | [], events => Triple.pure fun s here => ⟨[], .done, by rwa [List.append_nil]⟩
  | cmd :: cmds, events => by
    refine ((runCommand_spec cmd).conseq (fun _ here => here) (fun _ _ here => here) ?_).bind fun _ =>
      Triple.cases fun first => Triple.fact fun extend => ?_
    · rintro e s ⟨here, run, there⟩
      exact ⟨here, run cmds, there⟩
    · refine (runCommands_spec cmds (events ++ first)).conseq (fun _ here => here) ?_ ?_
      · rintro _ s ⟨later, run, there⟩
        exact ⟨_, extend _ _ _ run, by rwa [← List.append_assoc]⟩
      · rintro e s ⟨later, run, there⟩
        exact ⟨_, extend _ _ _ run, by rwa [← List.append_assoc]⟩

/-- From the prepared file on, the tool is launched. -/
theorem launch_spec (file : Str) (events : List Event) :
    Triple (Between base old events)
      (do
        let cmds ← askOrRaise (host.createInputGenerationCmds file) (.commands file)
        runCommands host cmds
        return true)
      (fun b s => b = true ∧ ∃ later, Launched file later (.ok ()) ∧ Between base old (events ++ later) s)
      (fun e s => ∃ later, Launched file later (.error e) ∧ Interrupted base old (events ++ later) s) := by
  refine Triple.bind (c := askOrRaise _ _) ((untimedOrRaise_spec fun _ => rfl).conseq (fun _ here => here)
    (fun _ _ here => here) ?_) fun cmds => ?_
  · rintro _ s ⟨r, rfl, here⟩
    exact ⟨_, .raised, here⟩
  · refine ((runCommands_spec cmds _).conseq (fun _ here => here) (fun _ _ here => here) ?_).bind fun _ => ?_
    · rintro e s ⟨later, run, here⟩
      exact ⟨_, .commanded run, by rwa [List.append_assoc] at here⟩
    · refine Triple.pure ?_
      rintro s ⟨later, run, here⟩
      exact ⟨rfl, _, .commanded run, by rwa [List.append_assoc] at here⟩

theorem body_spec (filename toolName : Str) :
    Triple (Between base old []) (body host filename toolName)
      (fun b s => b = true ∧ ∃ events, Story filename (getPreparedName filename toolName) events (.ok ()) ∧
        Between base old events s)
      (fun e s => ∃ events, Story filename (getPreparedName filename toolName) events (.error e) ∧
        Interrupted base old events s) := by
  refine ((readContent_spec filename).conseq (fun _ here => here) (fun _ _ here => here) ?_).bind fun content => ?_
  · rintro _ s ⟨r, rfl, here⟩
    exact ⟨_, .unreadable, here⟩
  · refine ((prepareFile_spec _ content).conseq (fun _ here => here) (fun _ _ here => here) ?_).bind fun _ => ?_
    · rintro _ s ⟨r, rfl, here | ⟨text, here⟩⟩
      · exact ⟨_, .unprepared, here⟩
      · exact ⟨_, .unwritten, here⟩
    · refine Triple.either ?_ (Triple.cases fun text => ?_)
      · refine (launch_spec _ _).conseq (fun _ here => here) ?_ ?_
        · rintro b s ⟨done, later, run, there⟩
          exact ⟨done, _, .present run, there⟩
        · rintro e s ⟨later, run, there⟩
          exact ⟨_, .present run, there⟩
      · refine (launch_spec _ _).conseq (fun _ here => here) ?_ ?_
        · rintro b s ⟨done, later, run, there⟩
          exact ⟨done, _, .written run, there⟩
        · rintro e s ⟨later, run, there⟩
          exact ⟨_, .written run, there⟩

/-- A story that comes to `result`, with some of the stopwatches still running. -/
def Told (base : Timers) (old : List Event) (filename toolName : Str) (result : Except Exception Bool) (s : State ω) : Prop :=
  ∃ events r, Story filename (getPreparedName filename toolName) events r ∧ outcome r = result ∧ Interrupted base old events s

theorem attempt_spec (filename toolName : Str) :
    Triple (Between base old []) (attempt host filename toolName)
      (fun b => Told base old filename toolName (.ok b)) (fun e => Told base old filename toolName (.error e)) := by
  refine Triple.tryCatch ((body_spec filename toolName).conseq (fun _ here => here) ?_ (fun _ _ here => here)) fun e => ?_
  · rintro _ s ⟨rfl, events, story, here⟩
    exact ⟨events, _, story, rfl, here.interrupted⟩
  · by_cases known : caught e
    · rw [if_pos known]
      refine Triple.pure ?_
      rintro s ⟨events, story, here⟩
      exact ⟨events, _, story, by simp [outcome, known], here⟩
    · rw [if_neg known]
      refine Triple.throw ?_
      rintro s ⟨events, story, here⟩
      exact ⟨events, _, story, by simp [outcome, known], here⟩

/-! ### The end of a run -/

/-- Every stopwatch of the list that still runs is stopped, which counts its interval. -/
def closed (timers : Timers) (list : List Timer) : Timers :=
  fun t => if t ∈ list then ⟨false, (timers t).intervals + (timers t).running.toNat⟩ else timers t

theorem closed_finish {timers : Timers} {t : Timer} (running : (timers t).running = true) (list : List Timer) :
    closed (timers.finish t) list = closed timers (t :: list) := by
  funext u
  by_cases same : u = t
  · subst same
    simp [closed, Timers.finish, running]
  · simp [closed, Timers.finish, same]

theorem closed_idle {timers : Timers} {t : Timer} (idle : (timers t).running = false) (list : List Timer) :
    closed timers list = closed timers (t :: list) := by
  funext u
  by_cases same : u = t
  · subst same
    rcases watch : timers u with ⟨running, intervals⟩
    rw [watch] at idle
    simp_all [closed]
  · simp [closed, same]

theorem stopRunning_spec {raises : Exception → State ω → Prop} : ∀ (list : List Timer) {timers : Timers} {trace : List Event},
    Triple (At timers trace) (stopRunning list : Gen ω Unit) (fun _ => At (closed timers list) trace) raises
  | [], timers, _ => Triple.pure fun _ here => by
    have same : closed timers [] = timers := by
      funext t
      simp [closed]
    rwa [same]
  | t :: list, timers, trace => by
    refine Triple.get fun s ⟨sameTimers, sameTrace⟩ => ?_
    subst sameTimers sameTrace
    by_cases running : (s.timers t).running = true
    · rw [if_pos running, ← closed_finish running]
      refine ((stop_spec running).conseq ?_ (fun _ _ here => here) (fun _ _ here => here)).bind fun _ =>
        stopRunning_spec list
      rintro _ rfl
      exact ⟨rfl, rfl⟩
    · rw [if_neg running, ← closed_idle (by simpa using running)]
      refine (stopRunning_spec list).conseq ?_ (fun _ _ here => here) (fun _ _ here => here)
      rintro _ rfl
      exact ⟨rfl, rfl⟩

/-- However the run was left, its end is the same. -/
theorem last_spec {raises : Exception → State ω → Prop} (events : List Event) :
    Triple (Interrupted base old events)
      (do
        stop .inputGen
        stopRunning stats : Gen ω Unit)
      (fun _ => At (finished base events) (old ++ events)) raises := by
  rintro s ⟨trace, ⟨running, intervals⟩, rest⟩
  have ended : closed (s.timers.finish .inputGen) stats = finished base events := by
    funext t
    have counted := rest t
    cases t <;> simp_all [closed, stats, finished, Timers.finish, Function.update]
  have stopped : Triple (At s.timers (old ++ events)) (stop .inputGen : Gen ω Unit)
      (fun _ => At (s.timers.finish .inputGen) (old ++ events)) raises := stop_spec running
  have last := (stopped.bind fun _ => stopRunning_spec stats) s ⟨rfl, trace⟩
  rwa [ended] at last

def Ended (base : Timers) (old : List Event) (filename toolName : Str) (result : Except Exception Bool) (s : State ω) : Prop :=
  ∃ events r, Story filename (getPreparedName filename toolName) events r ∧ outcome r = result ∧
    At (finished base events) (old ++ events) s

theorem generateInput_triple (host : Host ω) (filename toolName : Str) (idle : ∀ t, (base t).running = false) :
    Triple (At base old) (generateInput host filename toolName)
      (fun b => Ended base old filename toolName (.ok b)) (fun e => Ended base old filename toolName (.error e)) := by
  have begun : base.begin .inputGen = measured base [] := by
    funext t
    have still := idle t
    cases t <;> simp [Timers.begin, measured, Function.update, ← still]
  refine (start_spec (idle .inputGen)).bind fun _ => ?_
  have last : ∀ result, Triple (Told base old filename toolName result)
      (do
        stop .inputGen
        stopRunning stats : Gen ω Unit)
      (fun _ => Ended base old filename toolName result) (fun _ _ => False) := fun result =>
    Triple.cases fun events => Triple.cases fun r => Triple.fact fun story => Triple.fact fun same =>
      (last_spec events).conseq (fun _ here => here) (fun _ _ there => ⟨events, r, story, same, there⟩) fun _ _ => id
  refine ((attempt_spec filename toolName).tryFinally (fun b => last _) (fun e => last _) (fun _ _ => id)).conseq ?_
    (fun _ _ here => here) (fun _ _ here => here)
  rintro s ⟨timers, trace⟩
  exact ⟨timers.trans begun, by rw [trace, List.append_nil]⟩

/-- For any host and with all stopwatches idle: what is done is one of the stories, its outcome comes back, no
assertion of a stopwatch fails, and at the end every stopwatch is idle and has measured one interval for each
action of its kind. -/
theorem generateInput_spec (host : Host ω) (filename toolName : Str) (s : State ω) (idle : ∀ t, (s.timers t).running = false) :
    ∃ events r, Story filename (getPreparedName filename toolName) events r ∧
      (exec (generateInput host filename toolName) s).1 = outcome r ∧
      (exec (generateInput host filename toolName) s).2.trace = s.trace ++ events ∧
      (exec (generateInput host filename toolName) s).2.timers = finished s.timers events := by
  obtain ⟨events, r, story, same, timers, trace⟩ := (generateInput_triple host filename toolName idle).run ⟨rfl, rfl⟩
  exact ⟨events, r, story, same.symm, trace, timers⟩

/-- A tool with two commands, of which the first fails although nothing stops it. -/
def failing : Host Nat where
  readFile _ w := (.ok "int main() \x7b\x7d".toList, w)
  pathExists _ w := (false, w)
  prepare content w := (.ok content, w)
  writeFile _ _ w := (.ok (), w)
  createInputGenerationCmds file w := (.ok [["klee".toList, file], ["klee-stats".toList]], w)
  execute _ w := (.ok 1, w + 1)
  isSet w := (false, w)

def fresh : State Nat := ⟨fun _ => ⟨false, 0⟩, [], 0⟩

theorem generateInput_failing :
    ∃ events r, Story "a.c".toList (getPreparedName "a.c".toList "klee".toList) events r ∧
      (exec (generateInput failing "a.c".toList "klee".toList) fresh).1 = outcome r ∧
      (exec (generateInput failing "a.c".toList "klee".toList) fresh).2.trace = fresh.trace ++ events ∧
      (exec (generateInput failing "a.c".toList "klee".toList) fresh).2.timers = finished fresh.timers events :=
  generateInput_spec failing "a.c".toList "klee".toList fresh fun _ => rfl

end

/-! ### What success means -/

/-- A call that raised, or a failed command while the tool was not told to stop. -/
def Event.bad : Event → Bool
  | .read _ (.error _) => true
  | .prepared _ (.error _) => true
  | .wrote _ _ (.error _) => true
  | .commands _ (.error _) => true
  | .executed _ (.error _) => true
  | .asked false => true
  | _ => false

def Event.command : Event → Option Command
  | .executed cmd _ => some cmd
  | _ => none

theorem outcome_true_iff {r : Except Exception Unit} : outcome r = .ok true ↔ r = .ok () := by
  rcases r with e | ⟨⟩
  · by_cases known : caught e <;> simp [outcome, known]
  · simp [outcome]

/-- A run of the commands succeeds when nothing bad happens, and then every command has been run. -/
theorem Commanded.ok_iff {cmds : List Command} {events : List Event} {r : Except Exception Unit} (run : Commanded cmds events r) :
    (r = .ok () ↔ ∀ e ∈ events, e.bad = false) ∧ (r = .ok () → events.filterMap Event.command = cmds) := by
  induction run with
  | done => simp
  | raised => simp [Event.bad]
  | succeeded zero later ih => exact ⟨by simp [ih.1, Event.bad], fun ok => by simp [Event.command, ih.2 ok]⟩
  | stopped nonzero later ih => exact ⟨by simp [ih.1, Event.bad], fun ok => by simp [List.filterMap_cons, Event.command, ih.2 ok]⟩
  | failed nonzero => simp [Event.bad]

theorem Launched.ok_iff {file : Str} {events : List Event} {r : Except Exception Unit} (launched : Launched file events r) :
    (r = .ok () ↔ ∀ e ∈ events, e.bad = false) ∧
      (r = .ok () → ∃ cmds, .commands file (.ok cmds) ∈ events ∧ events.filterMap Event.command = cmds) := by
  cases launched with
  | raised => simp [Event.bad]
  | commanded run =>
    obtain ⟨iff, all⟩ := run.ok_iff
    exact ⟨by simp [iff, Event.bad], fun ok => ⟨_, List.mem_cons_self, by simp [List.filterMap_cons, Event.command, all ok]⟩⟩

theorem Story.ok_iff {filename file : Str} {events : List Event} {r : Except Exception Unit} (story : Story filename file events r) :
    (r = .ok () ↔ ∀ e ∈ events, e.bad = false) ∧
      (r = .ok () → ∃ cmds, .commands file (.ok cmds) ∈ events ∧ events.filterMap Event.command = cmds) := by
  cases story with
  | unreadable => simp [Event.bad]
  | unprepared => simp [Event.bad]
  | unwritten => simp [Event.bad]
  | present launched =>
    obtain ⟨iff, all⟩ := launched.ok_iff
    refine ⟨by simp [iff, Event.bad], fun ok => ?_⟩
    obtain ⟨cmds, handed, run⟩ := all ok
    exact ⟨cmds, by simp [handed], by simp [List.filterMap_cons, Event.command, run]⟩
  | written launched =>
    obtain ⟨iff, all⟩ := launched.ok_iff
    refine ⟨by simp [iff, Event.bad], fun ok => ?_⟩
    obtain ⟨cmds, handed, run⟩ := all ok
    exact ⟨cmds, by simp [handed], by simp [List.filterMap_cons, Event.command, run]⟩

/-- Success is reported exactly when no call raised and the stop flag was set at every command that failed; then
each command of the tool has been run once, in order. -/
theorem generateInput_success {ω : Type} (host : Host ω) (filename toolName : Str) (s : State ω)
    (idle : ∀ t, (s.timers t).running = false) :
    ∃ events, (exec (generateInput host filename toolName) s).2.trace = s.trace ++ events ∧
      ((exec (generateInput host filename toolName) s).1 = .ok true ↔ ∀ e ∈ events, e.bad = false) ∧
      ((exec (generateInput host filename toolName) s).1 = .ok true →
        ∃ cmds, .commands (getPreparedName filename toolName) (.ok cmds) ∈ events ∧ events.filterMap Event.command = cmds) := by
  obtain ⟨events, r, story, result, -, trace⟩ := (generateInput_triple host filename toolName idle).run ⟨rfl, rfl⟩
  obtain ⟨iff, all⟩ := story.ok_iff
  rw [← result, outcome_true_iff]
  exact ⟨events, trace, iff, all⟩

theorem generateInput_success_failing :
    ∃ events, (exec (generateInput failing "a.c".toList "klee".toList) fresh).2.trace = fresh.trace ++ events ∧
      ((exec (generateInput failing "a.c".toList "klee".toList) fresh).1 = .ok true ↔ ∀ e ∈ events, e.bad = false) ∧
      ((exec (generateInput failing "a.c".toList "klee".toList) fresh).1 = .ok true →
        ∃ cmds, .commands (getPreparedName "a.c".toList "klee".toList) (.ok cmds) ∈ events ∧ events.filterMap Event.command = cmds) :=
  generateInput_success failing "a.c".toList "klee".toList fresh fun _ => rfl

end Tbf.InputGeneration
