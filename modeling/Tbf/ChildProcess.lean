import Tbf.Library.Transition
import Tbf.Utils

/-!
# Child processes

`execute`: the caller hands a child process its input and collects its output while a second thread waits for its
end, and kills it once the stop flag is set or the time limit is over. Processes that the child starts may hold its
pipes open.
-/

namespace Tbf.ChildProcess
open Text Transition

/-! ### The call -/

inductive Stream where
  | stdout | stderr
  deriving DecidableEq, Repr

/-- The arguments that the two threads look at; without an input the child gets no pipe for it. -/
structure Call where
  errToOutput : Bool
  stopFlag : Bool
  timelimit : Option Nat
  input : Bytes
  deriving DecidableEq, Repr

namespace Call

/-- The pipes that the child gets. -/
def streams (call : Call) : List Stream := if call.errToOutput then [.stdout] else [.stdout, .stderr]

def target (call : Call) (w : Stream) : Stream := if call.errToOutput then .stdout else w

/-- `curr_s` counts whole seconds; a time limit of zero is no limit. -/
def expired (call : Call) (elapsed : Nat) : Bool :=
  call.timelimit.any fun limit => limit != 0 && decide (limit < elapsed / 1000)

end Call

/-! ### The state -/

/-- A pipe: whether the child holds its writing end, how many others hold it, what lies in it, what was
read from it, and whether its end was seen. -/
structure Pipe where
  child : Bool
  heirs : Nat
  buffered : Bytes
  read : Bytes
  ended : Bool
  deriving DecidableEq, Repr

def Pipe.held (p : Pipe) : Bool := p.child || decide (0 < p.heirs)

/-- The pipe for the input: whether the child holds its reading end, how many others hold it, what the caller has still
to write, what lies in it, what was read from it, and whether the caller has closed it. -/
structure Inlet where
  child : Bool
  heirs : Nat
  pending : Bytes
  buffered : Bytes
  taken : Bytes
  closed : Bool
  deriving DecidableEq, Repr

def Inlet.held (p : Inlet) : Bool := p.child || decide (0 < p.heirs)

/-- `wait_and_terminate`, with the start of its stopwatch. -/
inductive Waiter where
  | starting
  | polling (started : Nat)
  | checking (started : Nat)
  | sleeping (started : Nat)
  | killing
  | reaping
  | done
  deriving DecidableEq, Repr

/-- The caller, in `communicate` until its input is closed, every other pipe has ended and the child is waited for. -/
inductive Caller where
  | communicating
  | waiting
  | polling
  | returned (result : ExecutionResult)
  deriving DecidableEq, Repr

/-- The clock counts milliseconds. -/
structure State where
  clock : Nat
  flag : Bool
  child : Option Int
  signalled : Bool
  pipes : Stream → Pipe
  inlet : Inlet
  waiter : Waiter
  caller : Caller

/-- Right after `Popen`. -/
def start (call : Call) : State where
  clock := 0
  flag := false
  child := none
  signalled := false
  pipes w := ⟨decide (w ∈ call.streams), 0, [], [], false⟩
  inlet := ⟨decide (call.input ≠ []), 0, call.input, [], [], decide (call.input = [])⟩
  waiter := .starting
  caller := .communicating

/-- What goes on outside (`write` to `signal`) and the moves of the threads. `signal` is the end of a child that
was killed; it may have come to an end of its own before. -/
inductive Label where
  | write (w : Stream) (data : Bytes)
  | inherit (w : Stream)
  | release (w : Stream)
  | close (w : Stream)
  | take (amount : Nat)
  | inheritInput
  | releaseInput
  | closeInput
  | exit (code : Int)
  | set
  | tick
  | signal
  | watch
  | read (w : Stream) (amount : Nat)
  | feed
  | call
  deriving DecidableEq, Repr

def SIGKILL : Int := 9

/-- What a pipe can hold, and what `communicate` writes at once. -/
def PIPE_SIZE : Nat := 65536
def PIPE_BUF : Nat := 4096

/-! ### The steps -/

def State.update (s : State) (w : Stream) (f : Pipe → Pipe) : State :=
  { s with pipes := Function.update s.pipes w (f (s.pipes w)) }

/-- The end of the child closes what it held. -/
def State.finish (s : State) (code : Int) : State :=
  { s with
    child := some code
    pipes := fun w => { s.pipes w with child := false }
    inlet := { s.inlet with child := false } }

def watch (call : Call) (s : State) : Option State :=
  match s.waiter with
  | .starting => some { s with waiter := .polling s.clock }
  | .polling started => some { s with waiter := if s.child.isSome then .done else .checking started }
  | .checking started =>
    some { s with
      waiter := if (call.stopFlag && s.flag) || call.expired (s.clock - started) then .killing else .sleeping started }
  | .sleeping started => some { s with waiter := .polling started }
  | .killing => some { s with signalled := s.signalled || s.child.isNone, waiter := .reaping }
  | .reaping => if s.child.isSome then some { s with waiter := .done } else none
  | .done => none

/-- A read of `communicate`: some of what lies in the pipe, or its end. -/
def readPipe (amount : Nat) (p : Pipe) : Option Pipe :=
  if p.ended then none
  else if p.buffered = [] then if p.held then none else some { p with ended := true }
  else if amount = 0 then none
  else some { p with buffered := p.buffered.drop amount, read := p.read ++ p.buffered.take amount }

/-- A write of `communicate`, once there is room for it. A pipe that nobody can read from is closed. -/
def feed (p : Inlet) : Option Inlet :=
  if p.closed then none
  else if !p.held then some { p with closed := true }
  else if p.buffered.length + (p.pending.take PIPE_BUF).length ≤ PIPE_SIZE then
    some { p with
      pending := p.pending.drop PIPE_BUF
      buffered := p.buffered ++ p.pending.take PIPE_BUF
      closed := (p.pending.drop PIPE_BUF).isEmpty }
  else none

def proceed (call : Call) (s : State) : Option State :=
  match s.caller with
  | .communicating =>
    if s.inlet.closed && call.streams.all fun w => (s.pipes w).ended then some { s with caller := .waiting } else none
  | .waiting => if s.child.isSome then some { s with caller := .polling } else none
  | .polling => s.child.map fun code =>
      { s with caller := .returned (executionResult code (s.pipes .stdout).read (s.pipes .stderr).read) }
  | .returned _ => none

def step (call : Call) (s : State) : Label → Option State
  | .write w data =>
    if (s.pipes (call.target w)).held then
      some (s.update (call.target w) fun p => { p with buffered := p.buffered ++ data })
    else none
  | .inherit w => if (s.pipes w).held then some (s.update w fun p => { p with heirs := p.heirs + 1 }) else none
  | .release w => if 0 < (s.pipes w).heirs then some (s.update w fun p => { p with heirs := p.heirs - 1 }) else none
  | .close w => if (s.pipes w).child then some (s.update w fun p => { p with child := false }) else none
  | .take amount =>
    if s.inlet.held then
      some { s with inlet := { s.inlet with
        buffered := s.inlet.buffered.drop amount, taken := s.inlet.taken ++ s.inlet.buffered.take amount } }
    else none
  | .inheritInput =>
    if s.inlet.held then some { s with inlet := { s.inlet with heirs := s.inlet.heirs + 1 } } else none
  | .releaseInput =>
    if 0 < s.inlet.heirs then some { s with inlet := { s.inlet with heirs := s.inlet.heirs - 1 } } else none
  | .closeInput => if s.inlet.child then some { s with inlet := { s.inlet with child := false } } else none
  | .exit code => if s.child.isNone then some (s.finish code) else none
  | .set => some { s with flag := true }
  | .tick => some { s with clock := s.clock + 1 }
  | .signal => if s.child.isNone && s.signalled then some (s.finish (-SIGKILL)) else none
  | .watch => watch call s
  | .read w amount =>
    if s.caller = .communicating ∧ w ∈ call.streams then
      (readPipe amount (s.pipes w)).map fun p => s.update w fun _ => p
    else none
  | .feed => if s.caller = .communicating then (feed s.inlet).map fun p => { s with inlet := p } else none
  | .call => proceed call s

/-! ### What a step can do -/

inductive Steps (call : Call) (s : State) : Label → State → Prop where
  | write {w : Stream} {data : Bytes} (held : (s.pipes (call.target w)).held = true) :
    Steps call s (.write w data) (s.update (call.target w) fun p => { p with buffered := p.buffered ++ data })
  | inherit {w : Stream} (held : (s.pipes w).held = true) :
    Steps call s (.inherit w) (s.update w fun p => { p with heirs := p.heirs + 1 })
  | release {w : Stream} (held : 0 < (s.pipes w).heirs) :
    Steps call s (.release w) (s.update w fun p => { p with heirs := p.heirs - 1 })
  | close {w : Stream} (held : (s.pipes w).child = true) : Steps call s (.close w) (s.update w fun p => { p with child := false })
  | take {amount : Nat} (held : s.inlet.held = true) :
    Steps call s (.take amount) { s with inlet := { s.inlet with
      buffered := s.inlet.buffered.drop amount, taken := s.inlet.taken ++ s.inlet.buffered.take amount } }
  | inheritInput (held : s.inlet.held = true) :
    Steps call s .inheritInput { s with inlet := { s.inlet with heirs := s.inlet.heirs + 1 } }
  | releaseInput (held : 0 < s.inlet.heirs) :
    Steps call s .releaseInput { s with inlet := { s.inlet with heirs := s.inlet.heirs - 1 } }
  | closeInput (held : s.inlet.child = true) :
    Steps call s .closeInput { s with inlet := { s.inlet with child := false } }
  | exit {code : Int} (alive : s.child = none) : Steps call s (.exit code) (s.finish code)
  | set : Steps call s .set { s with flag := true }
  | tick : Steps call s .tick { s with clock := s.clock + 1 }
  | signal (alive : s.child = none) (signalled : s.signalled = true) : Steps call s .signal (s.finish (-SIGKILL))
  | started (here : s.waiter = .starting) : Steps call s .watch { s with waiter := .polling s.clock }
  | alive {started : Nat} (here : s.waiter = .polling started) (alive : s.child = none) :
    Steps call s .watch { s with waiter := .checking started }
  | reaped {started : Nat} (here : s.waiter = .polling started ∨ s.waiter = .reaping) (gone : s.child.isSome = true) :
    Steps call s .watch { s with waiter := .done }
  | told {started : Nat} (here : s.waiter = .checking started)
      (told : call.stopFlag = true ∧ s.flag = true ∨ call.expired (s.clock - started) = true) :
    Steps call s .watch { s with waiter := .killing }
  | untold {started : Nat} (here : s.waiter = .checking started)
      (untold : ¬ (call.stopFlag = true ∧ s.flag = true ∨ call.expired (s.clock - started) = true)) :
    Steps call s .watch { s with waiter := .sleeping started }
  | slept {started : Nat} (here : s.waiter = .sleeping started) : Steps call s .watch { s with waiter := .polling started }
  | kill (here : s.waiter = .killing) :
    Steps call s .watch { s with signalled := s.signalled || s.child.isNone, waiter := .reaping }
  | readSome {w : Stream} {amount : Nat} (here : s.caller = .communicating) (piped : w ∈ call.streams)
      (unended : (s.pipes w).ended = false) (some : (s.pipes w).buffered ≠ []) (positive : 0 < amount) :
    Steps call s (.read w amount) (s.update w fun p =>
      { p with buffered := p.buffered.drop amount, read := p.read ++ p.buffered.take amount })
  | readEnd {w : Stream} {amount : Nat} (here : s.caller = .communicating) (piped : w ∈ call.streams)
      (unended : (s.pipes w).ended = false) (empty : (s.pipes w).buffered = []) (unheld : (s.pipes w).held = false) :
    Steps call s (.read w amount) (s.update w fun p => { p with ended := true })
  | refused (here : s.caller = .communicating) (unclosed : s.inlet.closed = false) (unheld : s.inlet.held = false) :
    Steps call s .feed { s with inlet := { s.inlet with closed := true } }
  | fed (here : s.caller = .communicating) (unclosed : s.inlet.closed = false) (held : s.inlet.held = true)
      (room : s.inlet.buffered.length + (s.inlet.pending.take PIPE_BUF).length ≤ PIPE_SIZE) :
    Steps call s .feed { s with inlet := { s.inlet with
      pending := s.inlet.pending.drop PIPE_BUF
      buffered := s.inlet.buffered ++ s.inlet.pending.take PIPE_BUF
      closed := (s.inlet.pending.drop PIPE_BUF).isEmpty } }
  | collected (here : s.caller = .communicating) (closed : s.inlet.closed = true)
      (ended : ∀ w ∈ call.streams, (s.pipes w).ended = true) :
    Steps call s .call { s with caller := .waiting }
  | waited (here : s.caller = .waiting) (gone : s.child.isSome = true) : Steps call s .call { s with caller := .polling }
  | returned {code : Int} (here : s.caller = .polling) (gone : s.child = some code) :
    Steps call s .call
      { s with caller := .returned (executionResult code (s.pipes .stdout).read (s.pipes .stderr).read) }

section
variable {call : Call} {s t : State} {l : Label} {past : List Label}

theorem steps_of_watch (taken : watch call s = some t) : Steps call s .watch t := by
  unfold watch at taken
  split at taken
  case h_1 here => exact Option.some.inj taken ▸ .started here
  case h_2 started here =>
    obtain rfl := Option.some.inj taken
    split
    case isTrue gone => exact .reaped (.inl here) gone
    case isFalse alive => exact .alive here (by simpa using alive)
  case h_3 started here =>
    obtain rfl := Option.some.inj taken
    split
    case isTrue told => exact .told here (by simpa using told)
    case isFalse untold => exact .untold here (by simpa using untold)
  case h_4 started here => exact Option.some.inj taken ▸ .slept here
  case h_5 here => exact Option.some.inj taken ▸ .kill here
  case h_6 here =>
    split at taken
    case isTrue gone => exact Option.some.inj taken ▸ @Steps.reaped call s 0 (.inr here) gone
    case isFalse => cases taken
  case h_7 => cases taken

theorem steps_of_read {w : Stream} {amount : Nat} {p : Pipe} (here : s.caller = .communicating) (piped : w ∈ call.streams)
    (got : readPipe amount (s.pipes w) = some p) : Steps call s (.read w amount) (s.update w fun _ => p) := by
  unfold readPipe at got
  split at got
  case isTrue => cases got
  case isFalse unended =>
    have unended := Bool.eq_false_iff.mpr unended
    split at got
    case isTrue empty =>
      split at got
      case isTrue => cases got
      case isFalse unheld => exact Option.some.inj got ▸ .readEnd here piped unended empty (Bool.eq_false_iff.mpr unheld)
    case isFalse some =>
      split at got
      case isTrue => cases got
      case isFalse zero => exact Option.some.inj got ▸ .readSome here piped unended some (Nat.pos_of_ne_zero zero)

theorem steps_of_feed {p : Inlet} (here : s.caller = .communicating) (got : feed s.inlet = some p) :
    Steps call s .feed { s with inlet := p } := by
  unfold feed at got
  split at got
  case isTrue => cases got
  case isFalse unclosed =>
    have unclosed := Bool.eq_false_iff.mpr unclosed
    split at got
    case isTrue unheld => exact Option.some.inj got ▸ .refused here unclosed (by simpa using unheld)
    case isFalse held =>
      split at got
      case isTrue room => exact Option.some.inj got ▸ .fed here unclosed (by simpa using held) room
      case isFalse => cases got

theorem steps_of_proceed (taken : proceed call s = some t) : Steps call s .call t := by
  unfold proceed at taken
  split at taken
  case h_1 here =>
    split at taken
    case isTrue ended =>
      obtain ⟨closed, ended⟩ := (Bool.and_eq_true _ _).mp ended
      exact Option.some.inj taken ▸ .collected here closed (by simpa using ended)
    case isFalse => cases taken
  case h_2 here =>
    split at taken
    case isTrue gone => exact Option.some.inj taken ▸ .waited here gone
    case isFalse => cases taken
  case h_3 here =>
    obtain ⟨code, gone, rfl⟩ := Option.map_eq_some_iff.mp taken
    exact .returned here gone
  case h_4 => cases taken

theorem steps_of_step (taken : step call s l = some t) : Steps call s l t := by
  cases l with
  | write w data =>
    obtain ⟨held, same⟩ := Option.ite_none_right_eq_some.mp taken
    exact Option.some.inj same ▸ .write held
  | inherit w =>
    obtain ⟨held, same⟩ := Option.ite_none_right_eq_some.mp taken
    exact Option.some.inj same ▸ .inherit held
  | release w =>
    obtain ⟨held, same⟩ := Option.ite_none_right_eq_some.mp taken
    exact Option.some.inj same ▸ .release held
  | close w =>
    obtain ⟨held, same⟩ := Option.ite_none_right_eq_some.mp taken
    exact Option.some.inj same ▸ .close held
  | take amount =>
    obtain ⟨held, same⟩ := Option.ite_none_right_eq_some.mp taken
    exact Option.some.inj same ▸ .take held
  | inheritInput =>
    obtain ⟨held, same⟩ := Option.ite_none_right_eq_some.mp taken
    exact Option.some.inj same ▸ .inheritInput held
  | releaseInput =>
    obtain ⟨held, same⟩ := Option.ite_none_right_eq_some.mp taken
    exact Option.some.inj same ▸ .releaseInput held
  | closeInput =>
    obtain ⟨held, same⟩ := Option.ite_none_right_eq_some.mp taken
    exact Option.some.inj same ▸ .closeInput held
  | exit code =>
    obtain ⟨alive, same⟩ := Option.ite_none_right_eq_some.mp taken
    exact Option.some.inj same ▸ .exit (by simpa using alive)
  | set => exact Option.some.inj taken ▸ .set
  | tick => exact Option.some.inj taken ▸ .tick
  | signal =>
    obtain ⟨due, same⟩ := Option.ite_none_right_eq_some.mp taken
    simp only [Bool.and_eq_true, Option.isNone_iff_eq_none] at due
    exact Option.some.inj same ▸ .signal due.1 due.2
  | watch => exact steps_of_watch taken
  | read w amount =>
    obtain ⟨⟨here, piped⟩, same⟩ := Option.ite_none_right_eq_some.mp taken
    obtain ⟨p, got, rfl⟩ := Option.map_eq_some_iff.mp same
    exact steps_of_read here piped got
  | feed =>
    obtain ⟨here, same⟩ := Option.ite_none_right_eq_some.mp taken
    obtain ⟨p, got, rfl⟩ := Option.map_eq_some_iff.mp same
    exact steps_of_feed here got
  | call => exact steps_of_proceed taken

end

/-! ### What was written, and what was told -/

/-- What went into a pipe, whoever wrote it. -/
def written (call : Call) (w : Stream) (past : List Label) : Bytes :=
  past.flatMap fun
    | .write v data => if call.target v = w then data else []
    | _ => []

/-- The stop flag was given and set, or the time limit was over by a whole second. -/
def Told (call : Call) (past : List Label) : Prop :=
  (call.stopFlag = true ∧ .set ∈ past) ∨ call.expired (past.count .tick) = true

section
variable {call : Call} {s t : State} {l : Label} {past : List Label}

theorem written_snoc (w : Stream) : written call w (past ++ [l]) = written call w past ++ written call w [l] :=
  List.flatMap_append

@[simp] theorem written_write (w v : Stream) (data : Bytes) :
    written call w [.write v data] = if call.target v = w then data else [] := by
  simp [written]

theorem Call.expired_mono {elapsed later : Nat} (late : call.expired elapsed = true) (le : elapsed ≤ later) :
    call.expired later = true := by
  simp only [Call.expired, Option.any_eq_true, Bool.and_eq_true, decide_eq_true_eq] at late ⊢
  obtain ⟨limit, given, positive, passed⟩ := late
  exact ⟨limit, given, positive, passed.trans_le (Nat.div_le_div_right le)⟩

theorem Told.snoc (told : Told call past) (l : Label) : Told call (past ++ [l]) := by
  rcases told with ⟨given, set⟩ | expired
  · exact .inl ⟨given, List.mem_append_left _ set⟩
  · exact .inr (call.expired_mono expired (by simp))

/-! ### The invariants -/

/-- Nothing in a pipe is lost, doubled or reordered, and its end is seen once nobody can write any more. -/
structure Piped (call : Call) (s : State) (past : List Label) : Prop where
  passed : ∀ w, (s.pipes w).read ++ (s.pipes w).buffered = written call w past
  ended : ∀ w, (s.pipes w).ended = true → (s.pipes w).held = false ∧ (s.pipes w).buffered = []
  gone : s.child.isSome = true → ∀ w, (s.pipes w).child = false

theorem Pipe.held_eq_false {p : Pipe} : p.held = false ↔ p.child = false ∧ p.heirs = 0 := by
  simp [Pipe.held]

theorem piped_start : Piped call (start call) [] where
  passed := by simp [start, written]
  ended := by simp [start]
  gone := by simp [start]

theorem Piped.silent (piped : Piped call s past) (pipes : t.pipes = s.pipes) (child : t.child = s.child)
    (silent : ∀ w, written call w [l] = []) : Piped call t (past ++ [l]) where
  passed w := by rw [pipes, written_snoc, silent, List.append_nil, piped.passed]
  ended := by rw [pipes]; exact piped.ended
  gone := by rw [pipes, child]; exact piped.gone

/-- One pipe changes. -/
theorem Piped.update {w : Stream} {f : Pipe → Pipe} (piped : Piped call s past)
    (passed : (f (s.pipes w)).read ++ (f (s.pipes w)).buffered =
      (s.pipes w).read ++ (s.pipes w).buffered ++ written call w [l])
    (others : ∀ v ≠ w, written call v [l] = [])
    (ended : (f (s.pipes w)).ended = true → (f (s.pipes w)).held = false ∧ (f (s.pipes w)).buffered = [])
    (gone : (s.pipes w).child = false → (f (s.pipes w)).child = false) : Piped call (s.update w f) (past ++ [l]) where
  passed v := by
    by_cases same : v = w
    · subst same
      simp [State.update, written_snoc, ← piped.passed, passed]
    · simp [State.update, same, written_snoc, others v same, piped.passed]
  ended v := by
    by_cases same : v = w
    · subst same
      simpa [State.update] using ended
    · simpa [State.update, same] using piped.ended v
  gone dead v := by
    have before := piped.gone dead v
    by_cases same : v = w
    · subst same
      simpa [State.update] using gone before
    · simpa [State.update, same] using before

theorem Piped.finish {code : Int} (piped : Piped call s past) (silent : ∀ w, written call w [l] = []) :
    Piped call (s.finish code) (past ++ [l]) where
  passed w := by rw [written_snoc, silent, List.append_nil]; exact piped.passed w
  ended w atEnd := by
    obtain ⟨unheld, empty⟩ := piped.ended w atEnd
    exact ⟨Pipe.held_eq_false.mpr ⟨rfl, (Pipe.held_eq_false.mp unheld).2⟩, empty⟩
  gone _ _ := rfl

theorem Piped.step (piped : Piped call s past) (taken : step call s l = some t) : Piped call t (past ++ [l]) := by
  cases steps_of_step taken with
  | @write w data held =>
    refine piped.update (by simp) ?_ ?_ id
    · intro v other
      simp [Ne.symm other]
    · intro atEnd
      simp [(piped.ended _ atEnd).1] at held
  | @inherit w held =>
    refine piped.update (by simp [written]) (by simp [written]) ?_ id
    intro atEnd
    simp [(piped.ended _ atEnd).1] at held
  | @release w held =>
    refine piped.update (by simp [written]) (by simp [written]) ?_ id
    intro atEnd
    obtain ⟨unheld, empty⟩ := piped.ended _ atEnd
    simp [(Pipe.held_eq_false.mp unheld).2] at held
  | @close w held =>
    refine piped.update (by simp [written]) (by simp [written]) ?_ fun _ => rfl
    intro atEnd
    simp [(Pipe.held_eq_false.mp (piped.ended _ atEnd).1).1] at held
  | exit alive => exact piped.finish fun _ => rfl
  | signal alive signalled => exact piped.finish fun _ => rfl
  | @readSome w amount here piped' unended some positive =>
    refine piped.update ?_ (fun _ _ => rfl) ?_ id
    · simp [written]
    · simp [unended]
  | @readEnd w amount here piped' unended empty unheld =>
    exact piped.update (by simp [written]) (fun _ _ => rfl) (fun _ => ⟨unheld, empty⟩) id
  | _ => exact piped.silent rfl rfl fun _ => rfl

/-- A child is killed for a reason, and its end is known to the thread that waits for it. -/
structure Watched (call : Call) (s : State) (past : List Label) : Prop where
  clock : s.clock = past.count .tick
  flag : s.flag = true → .set ∈ past
  killing : s.waiter = .killing → Told call past
  signalled : s.signalled = true → Told call past
  reaping : s.waiter = .reaping → s.child.isSome = true ∨ s.signalled = true
  done : s.waiter = .done → s.child.isSome = true
  code : ∀ c, s.child = some c → .exit c ∈ past ∨ c = -SIGKILL ∧ Told call past

theorem watched_start : Watched call (start call) [] where
  clock := rfl
  flag := by simp [start]
  killing := by simp [start]
  signalled := by simp [start]
  reaping := by simp [start]
  done := by simp [start]
  code := by simp [start]

theorem Watched.silent (watched : Watched call s past) (clock : t.clock = (past ++ [l]).count .tick)
    (flag : t.flag = true → s.flag = true ∨ l = .set) (child : t.child = s.child) (signalled : t.signalled = s.signalled)
    (waiter : t.waiter = s.waiter) : Watched call t (past ++ [l]) where
  clock := clock
  flag set := by
    rcases flag set with before | rfl
    · exact List.mem_append_left _ (watched.flag before)
    · simp
  killing here := (watched.killing (waiter ▸ here)).snoc l
  signalled here := (watched.signalled (signalled ▸ here)).snoc l
  reaping here := by rw [child, signalled]; exact watched.reaping (waiter ▸ here)
  done here := by rw [child]; exact watched.done (waiter ▸ here)
  code c ended := (watched.code c (child ▸ ended)).imp (List.mem_append_left _) fun killed => ⟨killed.1, killed.2.snoc l⟩

theorem Watched.finish {code : Int} (watched : Watched call s past) (silent : l ≠ .tick)
    (reason : l = .exit code ∨ code = -SIGKILL ∧ s.signalled = true) : Watched call (s.finish code) (past ++ [l]) where
  clock := by simp [State.finish, watched.clock, silent]
  flag set := List.mem_append_left _ (watched.flag set)
  killing here := (watched.killing here).snoc l
  signalled here := (watched.signalled here).snoc l
  reaping _ := .inl rfl
  done _ := rfl
  code c ended := by
    obtain rfl : code = c := Option.some.inj ended
    rcases reason with rfl | ⟨killed, signalled⟩
    · exact .inl (by simp)
    · exact .inr ⟨killed, (watched.signalled signalled).snoc l⟩

/-- The waiting thread goes on, and leaves the child alone. -/
theorem Watched.move {waiter : Waiter} (watched : Watched call s past)
    (killing : waiter = .killing → Told call past) (reaping : waiter ≠ .reaping)
    (done : waiter = .done → s.child.isSome = true) : Watched call { s with waiter := waiter } (past ++ [.watch]) where
  clock := by simp [watched.clock]
  flag set := List.mem_append_left _ (watched.flag set)
  killing here := (killing here).snoc _
  signalled here := (watched.signalled here).snoc _
  reaping here := absurd here reaping
  done := done
  code c ended := (watched.code c ended).imp (List.mem_append_left _) fun killed => ⟨killed.1, killed.2.snoc _⟩

theorem Watched.told {started : Nat} (watched : Watched call s past)
    (told : call.stopFlag = true ∧ s.flag = true ∨ call.expired (s.clock - started) = true) : Told call past := by
  rcases told with ⟨given, set⟩ | expired
  · exact .inl ⟨given, watched.flag set⟩
  · exact .inr (call.expired_mono expired (by rw [watched.clock]; omega))

theorem Watched.step (watched : Watched call s past) (taken : step call s l = some t) : Watched call t (past ++ [l]) := by
  cases steps_of_step taken with
  | exit alive => exact watched.finish (by simp) (.inl rfl)
  | signal alive signalled => exact watched.finish (by simp) (.inr ⟨rfl, signalled⟩)
  | started here => exact watched.move (by simp) (by simp) (by simp)
  | alive here alive => exact watched.move (by simp) (by simp) (by simp)
  | reaped here gone => exact watched.move (by simp) (by simp) fun _ => gone
  | told here told => exact watched.move (fun _ => watched.told told) (by simp) (by simp)
  | untold here untold => exact watched.move (by simp) (by simp) (by simp)
  | slept here => exact watched.move (by simp) (by simp) (by simp)
  | kill here =>
    have told := watched.killing here
    refine ⟨by simp [watched.clock], fun set => List.mem_append_left _ (watched.flag set), by simp, fun _ => told.snoc _,
      fun _ => ?_, by simp, fun c ended => ?_⟩
    · cases gone : s.child <;> simp
    · exact (watched.code c ended).imp (List.mem_append_left _) fun killed => ⟨killed.1, killed.2.snoc _⟩
  | set => exact watched.silent (by simp [watched.clock]) (fun _ => .inr rfl) rfl rfl rfl
  | tick => exact watched.silent (by simp [watched.clock]) .inl rfl rfl rfl
  | _ => exact watched.silent (by simp [State.update, watched.clock]) .inl rfl rfl rfl

/-- What the caller knows when it has left a loop. -/
structure Collected (call : Call) (s : State) : Prop where
  ended : s.caller ≠ .communicating → ∀ w ∈ call.streams, (s.pipes w).ended = true
  gone : s.caller = .polling → s.child.isSome = true
  result : ∀ r, s.caller = .returned r →
    ∃ code, s.child = some code ∧ r = executionResult code (s.pipes .stdout).read (s.pipes .stderr).read

theorem collected_start : Collected call (start call) where
  ended := by simp [start]
  gone := by simp [start]
  result := by simp [start]

/-- Outside the caller nobody reads, and no end is taken back. -/
theorem Collected.silent (collected : Collected call s) (caller : t.caller = s.caller)
    (child : ∀ code, s.child = some code → t.child = some code)
    (pipes : ∀ w, (t.pipes w).read = (s.pipes w).read ∧ (t.pipes w).ended = (s.pipes w).ended) : Collected call t where
  ended here w piped := by rw [(pipes w).2]; exact collected.ended (caller ▸ here) w piped
  gone here := by
    obtain ⟨code, gone⟩ := Option.isSome_iff_exists.mp (collected.gone (caller ▸ here))
    simp [child code gone]
  result r here := by
    obtain ⟨code, gone, same⟩ := collected.result r (caller ▸ here)
    exact ⟨code, child code gone, by rw [(pipes _).1, (pipes _).1, same]⟩

theorem update_read {w : Stream} {f : Pipe → Pipe} (read : ∀ p, (f p).read = p.read) (ended : ∀ p, (f p).ended = p.ended) (v : Stream) :
    ((s.update w f).pipes v).read = (s.pipes v).read ∧ ((s.update w f).pipes v).ended = (s.pipes v).ended := by
  by_cases same : v = w
  · subst same
    simp [State.update, read, ended]
  · simp [State.update, same]

theorem Collected.step (collected : Collected call s) (taken : step call s l = some t) : Collected call t := by
  cases steps_of_step taken with
  | write held => exact collected.silent rfl (fun _ => id) (update_read (fun _ => rfl) fun _ => rfl)
  | inherit held => exact collected.silent rfl (fun _ => id) (update_read (fun _ => rfl) fun _ => rfl)
  | release held => exact collected.silent rfl (fun _ => id) (update_read (fun _ => rfl) fun _ => rfl)
  | close held => exact collected.silent rfl (fun _ => id) (update_read (fun _ => rfl) fun _ => rfl)
  | exit alive => exact collected.silent rfl (by simp [alive]) fun _ => ⟨rfl, rfl⟩
  | signal alive signalled => exact collected.silent rfl (by simp [alive]) fun _ => ⟨rfl, rfl⟩
  | readSome here => exact ⟨fun other => absurd here other, by simp [State.update, here], by simp [State.update, here]⟩
  | readEnd here => exact ⟨fun other => absurd here other, by simp [State.update, here], by simp [State.update, here]⟩
  | collected here closed ended => exact ⟨fun _ => ended, by simp, by simp⟩
  | waited here gone => exact ⟨fun _ => collected.ended (by simp [here]), fun _ => gone, by simp⟩
  | @returned code here gone =>
    exact ⟨fun _ => collected.ended (by simp [here]), by simp, fun r same => ⟨code, gone, by simpa using same.symm⟩⟩
  | _ => exact collected.silent rfl (fun _ => id) fun _ => ⟨rfl, rfl⟩

/-- The input goes into its pipe in its order, and all of it does unless nobody reads it any more. -/
structure Fed (call : Call) (s : State) : Prop where
  passed : s.inlet.taken ++ s.inlet.buffered ++ s.inlet.pending = call.input
  closed : s.inlet.closed = true → s.inlet.pending = [] ∨ s.inlet.held = false
  gone : s.child.isSome = true → s.inlet.child = false
  left : s.caller ≠ .communicating → s.inlet.closed = true

theorem Inlet.held_eq_false {p : Inlet} : p.held = false ↔ p.child = false ∧ p.heirs = 0 := by
  simp [Inlet.held]

theorem fed_start : Fed call (start call) where
  passed := rfl
  closed closed := .inl (by simpa [start] using closed)
  gone := by simp [start]
  left := by simp [start]

theorem Fed.silent (fed : Fed call s) (inlet : t.inlet = s.inlet) (child : t.child = s.child)
    (caller : t.caller = s.caller ∨ s.inlet.closed = true) : Fed call t where
  passed := by rw [inlet, fed.passed]
  closed := by rw [inlet]; exact fed.closed
  gone := by rw [inlet, child]; exact fed.gone
  left here := by
    rw [inlet]
    rcases caller with same | closed
    · exact fed.left (same ▸ here)
    · exact closed

theorem Fed.finish {code : Int} (fed : Fed call s) : Fed call (s.finish code) where
  passed := fed.passed
  closed closed := by
    rcases fed.closed closed with written | unheld
    · exact .inl written
    · exact .inr (Inlet.held_eq_false.mpr ⟨rfl, (Inlet.held_eq_false.mp unheld).2⟩)
  gone _ := rfl
  left := fed.left

/-- The readers of the input change. -/
theorem Fed.readers {p : Inlet} (fed : Fed call s) (passed : p.taken ++ p.buffered = s.inlet.taken ++ s.inlet.buffered)
    (pending : p.pending = s.inlet.pending) (closed : p.closed = s.inlet.closed)
    (unheld : s.inlet.held = false → p.held = false) (child : s.inlet.child = false → p.child = false) :
    Fed call { s with inlet := p } where
  passed := by rw [passed, pending, fed.passed]
  closed here := by
    rw [pending]
    exact (fed.closed (closed ▸ here)).imp id unheld
  gone dead := child (fed.gone dead)
  left here := closed.trans (fed.left here)

theorem Fed.step (fed : Fed call s) (taken : step call s l = some t) : Fed call t := by
  cases steps_of_step taken with
  | take held => exact fed.readers (by simp) rfl rfl id id
  | inheritInput held => exact fed.readers rfl rfl rfl (fun unheld => by simp [unheld] at held) id
  | releaseInput held =>
    refine fed.readers rfl rfl rfl (fun unheld => ?_) id
    simp [(Inlet.held_eq_false.mp unheld).2] at held
  | closeInput held =>
    refine fed.readers rfl rfl rfl (fun unheld => ?_) fun _ => rfl
    simp [(Inlet.held_eq_false.mp unheld).1] at held
  | exit alive => exact fed.finish
  | signal alive signalled => exact fed.finish
  | refused here unclosed unheld => exact ⟨fed.passed, fun _ => .inr unheld, fed.gone, fun _ => rfl⟩
  | fed here unclosed held room =>
    refine ⟨?_, fun closed => .inl (by simpa using closed), fed.gone, fun other => absurd here other⟩
    simp only [List.append_assoc, List.take_append_drop, ← fed.passed]
  | collected here closed ended => exact fed.silent rfl rfl (.inr closed)
  | waited here gone => exact fed.silent rfl rfl (.inr (fed.left (by simp [here])))
  | returned here gone => exact fed.silent rfl rfl (.inr (fed.left (by simp [here])))
  | _ => exact fed.silent rfl rfl (.inl rfl)

end

/-! ### A call that returns -/

section
variable {call : Call} {s t : State} {l : Label} {past : List Label}

structure Sound (call : Call) (s : State) (past : List Label) : Prop where
  piped : Piped call s past
  watched : Watched call s past
  collected : Collected call s
  fed : Fed call s

theorem Sound.step (sound : Sound call s past) (taken : step call s l = some t) : Sound call t (past ++ [l]) :=
  ⟨sound.piped.step taken, sound.watched.step taken, sound.collected.step taken, sound.fed.step taken⟩

theorem sound_of_run {schedule : List Label} (reached : run (step call) (start call) schedule = some s) :
    Sound call s schedule := by
  have initial : Sound call (start call) [] := ⟨piped_start, watched_start, collected_start, fed_start⟩
  exact run_past (Sound call) (fun _ _ _ _ sound taken => sound.step taken) initial reached

theorem Sound.read {w : Stream} (sound : Sound call s past) (piped : w ∈ call.streams) (left : s.caller ≠ .communicating) :
    (s.pipes w).read = written call w past := by
  have empty := (sound.piped.ended w (sound.collected.ended left w piped)).2
  rw [← sound.piped.passed, empty, List.append_nil]

theorem written_merged (merged : call.errToOutput = true) (past : List Label) : written call .stderr past = [] := by
  rw [written, List.flatMap_eq_nil_iff]
  intro l _
  cases l <;> simp [Call.target, merged]

/-- With one pipe for both streams nothing comes out of the other. -/
theorem Sound.read_stderr (sound : Sound call s past) (left : s.caller ≠ .communicating) :
    (s.pipes .stderr).read = written call .stderr past := by
  cases merged : call.errToOutput with
  | false => exact sound.read (by simp [Call.streams, merged]) left
  | true =>
    have passed := sound.piped.passed .stderr
    rw [written_merged merged] at passed ⊢
    exact (List.append_eq_nil_iff.mp passed).1

/-- In every interleaving: the result has all that was written, in its order, and the exit code of the child,
which is its own unless the stop flag or the time limit had it killed; no process holds an output pipe any more. -/
theorem execute_returns (call : Call) {schedule : List Label} {r : ExecutionResult}
    (reached : run (step call) (start call) schedule = some s) (returned : s.caller = .returned r) :
    ∃ code, r = executionResult code (written call .stdout schedule) (written call .stderr schedule) ∧
      (.exit code ∈ schedule ∨ code = -SIGKILL ∧ Told call schedule) ∧ ∀ w ∈ call.streams, (s.pipes w).held = false := by
  have sound := sound_of_run reached
  have left : s.caller ≠ .communicating := by simp [returned]
  obtain ⟨code, gone, result⟩ := sound.collected.result r returned
  have output : (s.pipes .stdout).read = written call .stdout schedule :=
    sound.read (by unfold Call.streams; split <;> simp) left
  refine ⟨code, by rw [result, output, sound.read_stderr left], sound.watched.code code gone, fun w piped => ?_⟩
  exact (sound.piped.ended w (sound.collected.ended left w piped)).1

/-- When the call has returned, the input lies in the pipe or was read from it, or nobody can read it any more. -/
theorem execute_feeds (call : Call) {schedule : List Label} {r : ExecutionResult}
    (reached : run (step call) (start call) schedule = some s) (returned : s.caller = .returned r) :
    s.inlet.taken ++ s.inlet.buffered = call.input ∨ s.inlet.held = false := by
  have fed := (sound_of_run reached).fed
  refine (fed.closed (fed.left (by simp [returned]))).imp (fun written => ?_) id
  rw [← fed.passed, written, List.append_nil]

/-- A child that is killed because the stop flag is set, after it has written to both streams. -/
def killed : List Label :=
  [.write .stdout [0x61], .watch, .watch, .watch, .watch, .set, .watch, .watch, .watch, .read .stdout 1,
    .write .stderr [0x62], .signal, .read .stdout 4096, .read .stdout 4096, .watch, .call, .call, .call]

theorem execute_returns_killed :
    ∃ code, executionResult (-9) [0x61, 0x62] [] =
        executionResult code (written ⟨true, true, none, []⟩ .stdout killed) (written ⟨true, true, none, []⟩ .stderr killed) ∧
      (.exit code ∈ killed ∨ code = -SIGKILL ∧ Told ⟨true, true, none, []⟩ killed) ∧
      ∀ w ∈ Call.streams ⟨true, true, none, []⟩,
        (((run (step ⟨true, true, none, []⟩) (start ⟨true, true, none, []⟩) killed).get rfl).pipes w).held = false :=
  execute_returns ⟨true, true, none, []⟩ (Option.some_get rfl).symm rfl

end

/-! ### A call that has to end -/

/-- The moves of the threads, and the delivery of the signal. -/
def ours : Label → Bool
  | .watch => true
  | .read _ _ => true
  | .feed => true
  | .call => true
  | .signal => true
  | _ => false

/-- The child has ended, or the waiting thread kills it at its next look. -/
def State.due (call : Call) (s : State) : Prop :=
  s.child.isSome = true ∨ (call.stopFlag = true ∧ s.flag = true) ∨
    match s.waiter with
    | .starting => False
    | .polling started => call.expired (s.clock - started) = true
    | .checking started => call.expired (s.clock - started) = true
    | .sleeping started => call.expired (s.clock - started) = true
    | _ => True

def Waiter.left (gone : Bool) : Waiter → Nat
  | .starting => if gone then 3 else 6
  | .polling _ => if gone then 1 else 5
  | .checking _ => if gone then 3 else 4
  | .sleeping _ => if gone then 2 else 6
  | .killing => if gone then 2 else 3
  | .reaping => if gone then 1 else 2
  | .done => if gone then 0 else 1

def Caller.left : Caller → Nat
  | .communicating => 3
  | .waiting => 2
  | .polling => 1
  | .returned _ => 0

def Pipe.left (p : Pipe) : Nat := p.buffered.length + if p.ended then 0 else 1

def Inlet.left (p : Inlet) : Nat := if p.closed then 0 else p.pending.length + 1

/-- How many moves the threads have left at most. -/
def State.left (s : State) : Nat :=
  s.waiter.left s.child.isSome + s.caller.left + (s.pipes .stdout).left + (s.pipes .stderr).left + s.inlet.left

def cost (l : Label) : Nat := if ours l then 1 else 0

def gain : Label → Nat
  | .write _ data => data.length
  | _ => 0

structure Ending (call : Call) (s : State) (past : List Label) : Prop where
  sound : Sound call s past
  lone : ∀ w, (s.pipes w).heirs = 0
  unread : s.inlet.heirs = 0
  due : s.due call

section
variable {call : Call} {s t : State} {l : Label} {past : List Label}

theorem update_left {w : Stream} {f : Pipe → Pipe} :
    (s.update w f).left + (s.pipes w).left = s.left + (f (s.pipes w)).left := by
  cases w <;> simp [State.update, State.left] <;> omega

theorem Waiter.left_gone (waiter : Waiter) : waiter.left true + 1 ≤ waiter.left false := by
  cases waiter <;> simp [Waiter.left]

theorem finish_left {code : Int} (alive : s.child = none) : (s.finish code).left + 1 ≤ s.left := by
  have fewer := s.waiter.left_gone
  have inlet : (s.finish code).inlet.left = s.inlet.left := rfl
  have pipes : ∀ w, ((s.finish code).pipes w).left = (s.pipes w).left := fun _ => rfl
  have waiter : (s.finish code).waiter.left (s.finish code).child.isSome = s.waiter.left true := rfl
  have caller : (s.finish code).caller = s.caller := rfl
  simp only [State.left, pipes, inlet, waiter, caller, alive, Option.isSome_none]
  omega

theorem State.due_mono (due : s.due call) (gone : s.child.isSome = true → t.child.isSome = true)
    (flag : s.flag = true → t.flag = true) (clock : s.clock ≤ t.clock) (waiter : t.waiter = s.waiter) : t.due call := by
  rcases due with dead | ⟨given, set⟩ | looked
  · exact .inl (gone dead)
  · exact .inr (.inl ⟨given, flag set⟩)
  · refine .inr (.inr ?_)
    rw [waiter]
    cases here : s.waiter with
    | starting => simp [here] at looked
    | polling started => exact call.expired_mono (by simpa [here] using looked) (by omega)
    | checking started => exact call.expired_mono (by simpa [here] using looked) (by omega)
    | sleeping started => exact call.expired_mono (by simpa [here] using looked) (by omega)
    | killing => trivial
    | reaping => trivial
    | done => trivial

/-- Without a new heir there is none later. -/
theorem lone_step (lone : ∀ w, (s.pipes w).heirs = 0) (noHeir : ∀ w, l ≠ .inherit w) (taken : Steps call s l t) (v : Stream) :
    (t.pipes v).heirs = 0 := by
  have update : ∀ {w : Stream} {f : Pipe → Pipe}, (∀ p, (f p).heirs = p.heirs) → ((s.update w f).pipes v).heirs = 0 := by
    intro w f same
    by_cases here : v = w
    · subst here
      simp [State.update, same, lone]
    · simp [State.update, here, lone]
  cases taken with
  | inherit held => exact absurd rfl (noHeir _)
  | release held => simp [lone] at held
  | write held => exact update fun _ => rfl
  | close held => exact update fun _ => rfl
  | readSome here piped unended some positive => exact update fun _ => rfl
  | readEnd here piped unended empty unheld => exact update fun _ => rfl
  | _ => exact lone v

theorem unread_step (unread : s.inlet.heirs = 0) (noHeir : l ≠ .inheritInput) (taken : Steps call s l t) : t.inlet.heirs = 0 := by
  cases taken with
  | inheritInput held => exact absurd rfl noHeir
  | releaseInput held => simp [unread] at held
  | _ => exact unread

/-- The waiting thread goes on to kill a child that still runs. -/
theorem due_watch (due : s.due call) (taken : Steps call s .watch t) : t.due call := by
  rcases due with dead | told | looked
  · cases taken <;> exact .inl dead
  · cases taken <;> exact .inr (.inl told)
  · refine .inr (.inr ?_)
    cases taken with
    | started here => simp [here] at looked
    | alive here alive => simpa [here] using looked
    | reaped here gone => trivial
    | told here told => trivial
    | untold here untold => exact absurd (.inr (by simpa [here] using looked)) untold
    | slept here => simpa [here] using looked
    | kill here => trivial

theorem left_waiter {waiter : Waiter} (less : waiter.left s.child.isSome + 1 ≤ s.waiter.left s.child.isSome) :
    ({ s with waiter := waiter } : State).left + 1 ≤ s.left := by
  simp only [State.left]
  omega

theorem left_caller {caller : Caller} (less : caller.left + 1 ≤ s.caller.left) :
    ({ s with caller := caller } : State).left + 1 ≤ s.left := by
  simp only [State.left]
  omega

theorem left_inlet {p : Inlet} {less : Nat} (fewer : p.left + less ≤ s.inlet.left) :
    ({ s with inlet := p } : State).left + less ≤ s.left := by
  simp only [State.left]
  omega

/-- A write leaves less to write, or the pipe closed. -/
theorem left_fed (unclosed : s.inlet.closed = false) :
    ({ s.inlet with
        pending := s.inlet.pending.drop PIPE_BUF
        buffered := s.inlet.buffered ++ s.inlet.pending.take PIPE_BUF
        closed := (s.inlet.pending.drop PIPE_BUF).isEmpty } : Inlet).left + 1 ≤ s.inlet.left := by
  cases rest : s.inlet.pending.drop PIPE_BUF with
  | nil => simp [Inlet.left, unclosed]
  | cons b bytes =>
    have shorter : (b :: bytes).length + PIPE_BUF = s.inlet.pending.length := by
      have length := congrArg List.length rest
      rw [List.length_drop] at length
      simp only [List.length_cons] at length ⊢
      omega
    have positive : 0 < PIPE_BUF := by decide
    simp only [Inlet.left, unclosed, List.isEmpty_cons, Bool.false_eq_true, if_false]
    omega

theorem left_watch (due : s.due call) (taken : Steps call s .watch t) : t.left + 1 ≤ s.left := by
  cases taken with
  | started here => exact left_waiter (by cases s.child <;> simp [here, Waiter.left])
  | alive here alive => exact left_waiter (by simp [here, alive, Waiter.left])
  | reaped here gone =>
    refine left_waiter ?_
    rcases here with here | here <;> simp [here, gone, Waiter.left]
  | told here told => exact left_waiter (by cases s.child <;> simp [here, Waiter.left])
  | untold here untold =>
    -- an unfinished child would be killed now
    refine left_waiter ?_
    rcases due with dead | ⟨given, set⟩ | looked
    · simp [here, dead, Waiter.left]
    · exact absurd (.inl ⟨given, set⟩) untold
    · exact absurd (.inr (by simpa [here] using looked)) untold
  | slept here => exact left_waiter (by cases s.child <;> simp [here, Waiter.left])
  | kill here =>
    have less : Waiter.reaping.left s.child.isSome + 1 ≤ s.waiter.left s.child.isSome := by
      cases s.child <;> simp [here, Waiter.left]
    exact left_waiter less

/-- Each move of the threads brings the end closer; outside, only what is written puts it off. -/
theorem left_step (due : s.due call) (taken : Steps call s l t) : t.left + cost l ≤ s.left + gain l := by
  have update : ∀ {w : Stream} {f : Pipe → Pipe} {extra less : Nat}, (f (s.pipes w)).left + less ≤ (s.pipes w).left + extra →
      (s.update w f).left + less ≤ s.left + extra := by
    intro w f extra less change
    have moved := update_left (s := s) (w := w) (f := f)
    omega
  by_cases watching : l = .watch
  · subst watching
    exact left_watch due taken
  cases taken with
  | write held => exact update (by simp [Pipe.left, cost, ours, gain]; omega)
  | inherit held => exact update (by simp [Pipe.left, cost, ours, gain])
  | release held => exact update (by simp [Pipe.left, cost, ours, gain])
  | close held => exact update (by simp [Pipe.left, cost, ours, gain])
  | exit alive => exact Nat.le_of_succ_le (finish_left alive)
  | signal alive signalled => exact finish_left alive
  | readSome here piped unended some positive =>
    have length := List.length_pos_iff.mpr some
    exact update (by simp [Pipe.left, cost, ours, gain, unended]; omega)
  | readEnd here piped unended empty unheld => exact update (by simp [Pipe.left, cost, ours, gain, unended])
  | take held => exact left_inlet (Nat.le_refl _)
  | inheritInput held => exact left_inlet (Nat.le_refl _)
  | releaseInput held => exact left_inlet (Nat.le_refl _)
  | closeInput held => exact left_inlet (Nat.le_refl _)
  | refused here unclosed unheld => exact left_inlet (by simp [Inlet.left, unclosed, cost, ours])
  | fed here unclosed held room => exact left_inlet (left_fed unclosed)
  | collected here closed ended => exact left_caller (by simp [here, Caller.left])
  | waited here gone => exact left_caller (by simp [here, Caller.left])
  | returned here gone => exact left_caller (by simp [here, Caller.left])
  | set => exact Nat.le_refl _
  | tick => exact Nat.le_refl _
  | _ => exact absurd rfl watching

theorem due_step (due : s.due call) (taken : Steps call s l t) : t.due call := by
  by_cases watching : l = .watch
  · subst watching
    exact due_watch due taken
  cases taken with
  | exit alive => exact .inl rfl
  | signal alive signalled => exact .inl rfl
  | set => exact State.due_mono due id (fun _ => rfl) le_rfl rfl
  | tick => exact State.due_mono due id id (Nat.le_succ _) rfl
  | started here => exact absurd rfl watching
  | alive here alive => exact absurd rfl watching
  | reaped here gone => exact absurd rfl watching
  | told here told => exact absurd rfl watching
  | untold here untold => exact absurd rfl watching
  | slept here => exact absurd rfl watching
  | kill here => exact absurd rfl watching
  | _ => exact State.due_mono due id id le_rfl rfl

theorem ending_step (ending : Ending call s past) (noHeir : ∀ w, l ≠ .inherit w) (noReader : l ≠ .inheritInput)
    (taken : step call s l = some t) : Ending call t (past ++ [l]) where
  sound := ending.sound.step taken
  lone := lone_step ending.lone noHeir (steps_of_step taken)
  unread := unread_step ending.unread noReader (steps_of_step taken)
  due := due_step ending.due (steps_of_step taken)

/-- A pipe that nobody holds is read to its end. -/
theorem read_enabled {w : Stream} (ending : Ending call s past) (gone : s.child.isSome = true)
    (here : s.caller = .communicating) (piped : w ∈ call.streams) (unended : (s.pipes w).ended = false) :
    step call s (.read w 1) ≠ none := by
  have unheld : (s.pipes w).held = false := Pipe.held_eq_false.mpr ⟨ending.sound.piped.gone gone w, ending.lone w⟩
  by_cases empty : (s.pipes w).buffered = []
  · simp [step, here, piped, readPipe, unended, empty, unheld]
  · simp [step, here, piped, readPipe, unended, empty]

/-- What is left of the input is written to nobody. -/
theorem feed_enabled (ending : Ending call s past) (gone : s.child.isSome = true) (here : s.caller = .communicating)
    (unclosed : s.inlet.closed = false) : step call s .feed ≠ none := by
  have unheld : s.inlet.held = false := Inlet.held_eq_false.mpr ⟨ending.sound.fed.gone gone, ending.unread⟩
  simp [step, here, feed, unclosed, unheld]

theorem gone_of_stuck (ending : Ending call s past) (stuck : ∀ l, ours l = true → step call s l = none) :
    s.child.isSome = true := by
  by_contra alive
  have alive : s.child = none := by simpa using alive
  have unsignalled : s.signalled = false := by
    have blocked := stuck .signal rfl
    simpa [step, alive] using blocked
  have blocked := stuck .watch rfl
  cases here : s.waiter with
  | reaping =>
    rcases ending.sound.watched.reaping here with dead | signalled
    · simp [alive] at dead
    · simp [unsignalled] at signalled
  | done => simpa [alive] using ending.sound.watched.done here
  | _ => simp [step, watch, here] at blocked

/-- Where the threads can do nothing, they have finished. -/
theorem ended_of_stuck (ending : Ending call s past) (stuck : ∀ l, ours l = true → step call s l = none) :
    (∃ r, s.caller = .returned r) ∧ s.waiter = .done := by
  have gone := gone_of_stuck ending stuck
  constructor
  · have blocked := stuck .call rfl
    cases here : s.caller with
    | communicating =>
      cases closed : s.inlet.closed with
      | false => exact absurd (stuck .feed rfl) (feed_enabled ending gone here closed)
      | true =>
        have unread : ∃ w ∈ call.streams, (s.pipes w).ended = false := by
          simpa [step, proceed, here, closed] using blocked
        obtain ⟨w, piped, unended⟩ := unread
        exact absurd (stuck (.read w 1) rfl) (read_enabled ending gone here piped unended)
    | waiting => simp [step, proceed, here, gone] at blocked
    | polling =>
      obtain ⟨code, dead⟩ := Option.isSome_iff_exists.mp gone
      simp [step, proceed, here, dead] at blocked
    | returned r => exact ⟨r, rfl⟩
  · have blocked := stuck .watch rfl
    cases here : s.waiter with
    | done => rfl
    | _ => simp [step, watch, here, gone] at blocked

theorem heirs_kept {w : Stream} (heir : 0 < (s.pipes w).heirs) (kept : l ≠ .release w) (taken : Steps call s l t) :
    0 < (t.pipes w).heirs := by
  have update : ∀ {v : Stream} {f : Pipe → Pipe}, (v = w → 0 < (f (s.pipes w)).heirs) → 0 < ((s.update v f).pipes w).heirs := by
    intro v f here
    by_cases same : w = v
    · subst same
      simpa [State.update] using here rfl
    · simpa [State.update, same] using heir
  cases taken with
  | write held => exact update fun _ => heir
  | inherit held => exact update fun _ => Nat.succ_pos _
  | release held => exact update fun same => absurd (congrArg Label.release same) kept
  | close held => exact update fun _ => heir
  | readSome here piped unended some positive => exact update fun _ => heir
  | readEnd here piped unended empty unheld => exact update fun _ => heir
  | _ => exact heir

/-- Once the child has ended or is to be killed, and no other process holds one of its pipes or gets hold of one: the
threads make a bounded number of moves, however the rest is interleaved with them, and where they can make none,
the call has returned and the waiting thread is done. -/
theorem execute_ends (call : Call) {before after : List Label} (reached : run (step call) (start call) before = some s)
    (lone : ∀ w, (s.pipes w).heirs = 0) (unread : s.inlet.heirs = 0) (due : s.due call)
    (noHeir : ∀ w, .inherit w ∉ after) (noReader : .inheritInput ∉ after)
    (later : run (step call) s after = some t) :
    (after.map cost).sum ≤ s.left + (after.map gain).sum ∧
      ((∀ l, ours l = true → step call t l = none) → (∃ r, t.caller = .returned r) ∧ t.waiter = .done) := by
  have allowed : Along (step call) (fun _ l => (∀ w, l ≠ .inherit w) ∧ l ≠ .inheritInput) s after := by
    refine along_of_mem (fun l member _ => ⟨?_, ?_⟩) s
    · rintro w rfl
      exact noHeir w member
    · rintro rfl
      exact noReader member
  obtain ⟨⟨past, ending⟩, paid⟩ := run_potential (fun s => ∃ past, Ending call s past) State.left cost gain
    (fun s l t allowed ⟨past, ending⟩ taken =>
      ⟨⟨_, ending_step ending allowed.1 allowed.2 taken⟩, left_step ending.due (steps_of_step taken)⟩)
    allowed ⟨before, sound_of_run reached, lone, unread, due⟩ later
  exact ⟨by omega, ended_of_stuck ending⟩

/-- A child that has ended, with its last output still unread and its input still to be written. -/
def leftover : List Label := [.watch, .write .stdout [0x61], .exit 0]

def wound : List Label := [.read .stdout 1, .feed, .watch, .tick, .read .stdout 1, .read .stderr 1, .call, .call, .call]

theorem execute_ends_leftover :
    (wound.map cost).sum ≤
        ((run (step ⟨false, false, some 5, [0x37]⟩) (start ⟨false, false, some 5, [0x37]⟩) leftover).get rfl).left + (wound.map gain).sum ∧
      ((∀ l, ours l = true → step ⟨false, false, some 5, [0x37]⟩
          ((run (step ⟨false, false, some 5, [0x37]⟩) (start ⟨false, false, some 5, [0x37]⟩) (leftover ++ wound)).get rfl) l = none) →
        (∃ r, ((run (step ⟨false, false, some 5, [0x37]⟩) (start ⟨false, false, some 5, [0x37]⟩) (leftover ++ wound)).get rfl).caller = .returned r) ∧
          ((run (step ⟨false, false, some 5, [0x37]⟩) (start ⟨false, false, some 5, [0x37]⟩) (leftover ++ wound)).get rfl).waiter = .done) :=
  execute_ends ⟨false, false, some 5, [0x37]⟩ (Option.some_get rfl).symm (fun w => by cases w <;> rfl) rfl (.inl rfl)
    (fun w => by cases w <;> decide) (by decide) (Option.some_get rfl).symm

/-- As long as a process that the child started holds a pipe the call does not return, whatever the stop flag
and the time limit are. -/
theorem execute_held (call : Call) {before after : List Label} {w : Stream}
    (reached : run (step call) (start call) before = some s) (piped : w ∈ call.streams) (heir : 0 < (s.pipes w).heirs)
    (kept : .release w ∉ after) (later : run (step call) s after = some t) (r : ExecutionResult) : t.caller ≠ .returned r := by
  have allowed : Along (step call) (fun _ l => l ≠ .release w) s after := by
    refine along_of_mem (fun l member _ => ?_) s
    rintro rfl
    exact kept member
  have still : 0 < (t.pipes w).heirs :=
    run_invariant (fun s => 0 < (s.pipes w).heirs) (fun _ _ _ other heir taken => heirs_kept heir other (steps_of_step taken))
      allowed heir later
  intro returned
  have sound := sound_of_run (run_append.mpr ⟨s, reached, later⟩)
  have ended := sound.collected.ended (by simp [returned]) w piped
  have unheld := (Pipe.held_eq_false.mp (sound.piped.ended w ended).1).2
  omega

/-- The child is gone and the time limit over, but a process that it started keeps its output open. -/
def orphaned : List Label := [.watch, .inherit .stdout, .exit 0]

theorem execute_held_orphaned :
    ((run (step ⟨true, false, some 1, []⟩) (start ⟨true, false, some 1, []⟩) (orphaned ++ [.tick, .watch])).get rfl).caller ≠
      .returned (executionResult 0 [] []) := by
  have reached : run (step ⟨true, false, some 1, []⟩) (start ⟨true, false, some 1, []⟩) orphaned =
    some ((run (step ⟨true, false, some 1, []⟩) (start ⟨true, false, some 1, []⟩) orphaned).get rfl) := (Option.some_get rfl).symm
  have whole : run (step ⟨true, false, some 1, []⟩) (start ⟨true, false, some 1, []⟩) (orphaned ++ [.tick, .watch]) =
    some ((run (step ⟨true, false, some 1, []⟩) (start ⟨true, false, some 1, []⟩) (orphaned ++ [.tick, .watch])).get rfl) :=
    (Option.some_get rfl).symm
  obtain ⟨m, first, later⟩ := run_append.mp whole
  obtain rfl := Option.some.inj (reached.symm.trans first)
  exact execute_held ⟨true, false, some 1, []⟩ reached (by decide : Stream.stdout ∈ _) (by decide) (by decide) later _

end

end Tbf.ChildProcess
