import Mathlib.Logic.Basic

/-!
# Programs that ask

A program is a deterministic machine that can ask its surroundings for an answer. An oracle
answers from a source or cuts the run; two oracles that agree where a run asks give it one ending.
-/

namespace Interaction

inductive Act (Query Answer State : Type*) where
  | exit
  | fail
  | silent (next : State)
  | ask (query : Query) (resume : Answer → State)

structure Program (Query Answer : Type*) where
  State : Type
  start : State
  next : State → Act Query Answer State

inductive Ending (Cut : Type*) where
  | exited
  | failed
  | cut (reason : Cut)
  deriving DecidableEq, Repr

/-- The answer, or the reason why there is none, and the source behind it. -/
abbrev Oracle (Query Answer Cut Source : Type*) := Query → Source → Except Cut Answer × Source

section
variable {Query Answer Cut Cut' Source Source' : Type*}

def exec (program : Program Query Answer) (oracle : Oracle Query Answer Cut Source) :
    Nat → program.State → Source → Option (Ending Cut)
  | 0, _, _ => none
  | fuel + 1, s, source =>
    match program.next s with
    | .exit => some .exited
    | .fail => some .failed
    | .silent t => exec program oracle fuel t source
    | .ask query resume =>
      match oracle query source with
      | (.ok answer, rest) => exec program oracle fuel (resume answer) rest
      | (.error reason, _) => some (.cut reason)

def Asks (program : Program Query Answer) (oracle : Oracle Query Answer Cut Source)
    (good : Query → Source → Prop) : Nat → program.State → Source → Prop
  | 0, _, _ => True
  | fuel + 1, s, source =>
    match program.next s with
    | .exit | .fail => True
    | .silent t => Asks program oracle good fuel t source
    | .ask query resume =>
      good query source ∧
        match oracle query source with
        | (.ok answer, rest) => Asks program oracle good fuel (resume answer) rest
        | (.error _, _) => True

variable {program : Program Query Answer} {left : Oracle Query Answer Cut Source}
  {right : Oracle Query Answer Cut' Source'}

theorem exec_ask {s : program.State} {query : Query} {resume : Answer → program.State} {source rest : Source} {answer : Answer}
    (asks : program.next s = .ask query resume) (answers : left query source = (.ok answer, rest)) (fuel : Nat) :
    exec program left (fuel + 1) s source = exec program left fuel (resume answer) rest := by
  rw [exec, asks]
  simp only [answers]

theorem exec_mono {fuel more : Nat} (le : fuel ≤ more) {s : program.State} {source : Source}
    {ending : Ending Cut} (ended : exec program left fuel s source = some ending) :
    exec program left more s source = some ending := by
  induction fuel generalizing more s source with
  | zero => cases ended
  | succ fuel ih =>
    obtain ⟨more, rfl⟩ := Nat.exists_eq_succ_of_ne_zero (Nat.ne_of_gt (Nat.lt_of_lt_of_le fuel.succ_pos le))
    have le := Nat.le_of_succ_le_succ le
    unfold exec at ended ⊢
    cases act : program.next s with
    | exit => simpa only [act] using ended
    | fail => simpa only [act] using ended
    | silent t =>
      simp only [act] at ended ⊢
      exact ih le ended
    | ask query resume =>
      simp only [act] at ended ⊢
      generalize left query source = reply at ended ⊢
      obtain ⟨reason | answer, rest⟩ := reply
      · exact ended
      · exact ih le ended

theorem exec_unique {fuel fuel' : Nat} {s : program.State} {source : Source} {ending ending' : Ending Cut}
    (ended : exec program left fuel s source = some ending)
    (ended' : exec program left fuel' s source = some ending') : ending = ending' := by
  have more := exec_mono (Nat.le_max_left fuel fuel') ended
  rw [exec_mono (Nat.le_max_right fuel fuel') ended'] at more
  exact (Option.some.inj more).symm

/-- How one cut answers the other. -/
def Answers (rel : Source → Source' → Prop) (same : Cut → Cut' → Prop) :
    Except Cut Answer × Source → Except Cut' Answer × Source' → Prop
  | (.ok answer, source), (.ok answer', source') => answer = answer' ∧ rel source source'
  | (.error reason, _), (.error reason', _) => same reason reason'
  | _, _ => False

def Endings (same : Cut → Cut' → Prop) : Option (Ending Cut) → Option (Ending Cut') → Prop
  | none, none => True
  | some .exited, some .exited => True
  | some .failed, some .failed => True
  | some (.cut reason), some (.cut reason') => same reason reason'
  | _, _ => False

variable {good : Query → Source → Prop} {rel : Source → Source' → Prop} {same : Cut → Cut' → Prop}

/-- Oracles that answer alike where the left run asks give both runs the same ending. -/
theorem exec_simulation
    (sim : ∀ query source source', rel source source' → good query source →
      Answers rel same (left query source) (right query source'))
    {fuel : Nat} {s : program.State} {source : Source} {source' : Source'}
    (asks : Asks program left good fuel s source) (related : rel source source') :
    Endings same (exec program left fuel s source) (exec program right fuel s source') := by
  induction fuel generalizing s source source' with
  | zero => trivial
  | succ fuel ih =>
    unfold Asks at asks
    unfold exec
    cases act : program.next s with
    | exit => trivial
    | fail => trivial
    | silent t =>
      simp only [act] at asks ⊢
      exact ih asks related
    | ask query resume =>
      simp only [act] at asks ⊢
      obtain ⟨here, later⟩ := asks
      have answers := sim query source source' related here
      generalize left query source = reply at answers later ⊢
      generalize right query source' = reply' at answers ⊢
      obtain ⟨reason | answer, rest⟩ := reply <;> obtain ⟨reason' | answer', rest'⟩ := reply'
      · exact answers
      · exact False.elim answers
      · exact False.elim answers
      · obtain ⟨rfl, related⟩ := answers
        exact ih later related

theorem asks_and {also : Query → Source → Prop} {fuel : Nat} {s : program.State} {source : Source}
    (first : Asks program left good fuel s source) (second : Asks program left also fuel s source) :
    Asks program left (fun query source => good query source ∧ also query source) fuel s source := by
  induction fuel generalizing s source with
  | zero => trivial
  | succ fuel ih =>
    unfold Asks at first second ⊢
    cases act : program.next s with
    | exit => trivial
    | fail => trivial
    | silent t =>
      simp only [act] at first second ⊢
      exact ih first second
    | ask query resume =>
      simp only [act] at first second ⊢
      generalize left query source = reply at first second ⊢
      obtain ⟨reason | answer, rest⟩ := reply
      · exact ⟨⟨first.1, second.1⟩, trivial⟩
      · exact ⟨⟨first.1, second.1⟩, ih first.2 second.2⟩

theorem asks_mono {also : Query → Source → Prop} (weaker : ∀ query source, good query source → also query source) {fuel : Nat}
    {s : program.State} {source : Source} (asks : Asks program left good fuel s source) :
    Asks program left also fuel s source := by
  induction fuel generalizing s source with
  | zero => trivial
  | succ fuel ih =>
    unfold Asks at asks ⊢
    cases act : program.next s with
    | exit => trivial
    | fail => trivial
    | silent t =>
      simp only [act] at asks ⊢
      exact ih asks
    | ask query resume =>
      simp only [act] at asks ⊢
      refine ⟨weaker _ _ asks.1, ?_⟩
      have later := asks.2
      generalize left query source = reply at later ⊢
      obtain ⟨reason | answer, rest⟩ := reply
      · trivial
      · exact ih later

/-- The first query to a bad source cuts the right run. -/
theorem exec_bad {assumed : Query → Source → Prop} {bad : Except Cut Answer → Cut' → Prop}
    (sim : ∀ query source source', rel source source' → assumed query source → good query source →
      Answers rel same (left query source) (right query source'))
    (broken : ∀ query source source', rel source source' → assumed query source → ¬ good query source →
      ∃ reason', (right query source').1 = .error reason' ∧ bad (left query source).1 reason')
    {fuel : Nat} {s : program.State} {source : Source} {source' : Source'}
    (fits : Asks program left assumed fuel s source) (asks : ¬ Asks program left good fuel s source) (related : rel source source') :
    ∃ answer reason', exec program right fuel s source' = some (.cut reason') ∧ bad answer reason' ∧
      ∀ reason, answer = .error reason → exec program left fuel s source = some (.cut reason) := by
  induction fuel generalizing s source source' with
  | zero => exact absurd trivial asks
  | succ fuel ih =>
    unfold Asks at asks fits
    unfold exec
    cases act : program.next s with
    | exit => simp [act] at asks
    | fail => simp [act] at asks
    | silent t =>
      simp only [act] at asks fits ⊢
      exact ih fits asks related
    | ask query resume =>
      simp only [act] at asks fits ⊢
      obtain ⟨fitsHere, fitsLater⟩ := fits
      by_cases here : good query source
      · have answers := sim query source source' related fitsHere here
        generalize left query source = reply at answers asks fitsLater ⊢
        generalize right query source' = reply' at answers ⊢
        obtain ⟨reason | answer, rest⟩ := reply
        · exact absurd ⟨here, trivial⟩ asks
        · obtain ⟨reason' | answer', rest'⟩ := reply'
          · exact False.elim answers
          · obtain ⟨rfl, related⟩ := answers
            exact ih fitsLater (fun later => asks ⟨here, later⟩) related
      · obtain ⟨reason', cut, wrong⟩ := broken query source source' related fitsHere here
        generalize left query source = reply at wrong ⊢
        generalize right query source' = reply' at cut ⊢
        obtain ⟨_ | _, rest'⟩ := reply'
        · obtain rfl := Except.error.inj cut
          refine ⟨reply.1, _, rfl, wrong, fun reason same => ?_⟩
          obtain ⟨_ | _, rest⟩ := reply
          · obtain rfl := Except.error.inj same
            rfl
          · cases same
        · cases cut

/-! ### A look at one answer -/

/-- The program up to its call number `n`, after which it fails if the answer passes the test and exits if not. -/
abbrev Program.watch (program : Program Query Answer) (n : Nat) (test : Answer → Bool) : Program Query Answer where
  State := (program.State × Nat) ⊕ Bool
  start := .inl (program.start, n)
  next
    | .inr true => .fail
    | .inr false => .exit
    | .inl (s, left) => match program.next s with
      | .exit => .exit
      | .fail => .fail
      | .silent t => .silent (.inl (t, left))
      | .ask query resume => match left with
        | 0 => .ask query fun answer => .inr (test answer)
        | left + 1 => .ask query fun answer => .inl (resume answer, left)

/-- How the look at an answer ends. -/
def told (test : Answer → Bool) : Except Cut Answer → Ending Cut
  | .ok answer => if test answer then .failed else .exited
  | .error reason => .cut reason

theorem exec_looked {start : Nat} {test : Answer → Bool} {s : program.State} {query : Query} {resume : Answer → program.State}
    (asks : program.next s = .ask query resume) (source : Source) :
    exec (program.watch start test) left 2 (.inl (s, 0)) source = some (told test (left query source).1) := by
  simp only [exec, asks]
  generalize left query source = reply
  obtain ⟨reason | answer, rest⟩ := reply
  · rfl
  · cases passed : test answer <;> simp [told, passed]

/-- The first query to a bad source can be looked at, behind queries that the program makes as before. -/
theorem watch_bad {assumed : Query → Source → Prop}
    (sim : ∀ query source source', rel source source' → assumed query source → good query source →
      Answers rel same (left query source) (right query source'))
    {fuel : Nat} {s : program.State} {source : Source} {source' : Source'}
    (fits : ∀ fuel, Asks program left assumed fuel s source) (asks : ¬ Asks program left good fuel s source)
    (related : rel source source') :
    ∃ n query there there', rel there there' ∧ assumed query there ∧ ¬ good query there ∧ ∀ start test,
      (∀ fuel, Asks (program.watch start test) left assumed fuel (.inl (s, n)) source) ∧
        ∃ fuel, exec (program.watch start test) left fuel (.inl (s, n)) source = some (told test (left query there).1) ∧
          exec (program.watch start test) right fuel (.inl (s, n)) source' = some (told test (right query there').1) := by
  induction fuel generalizing s source source' with
  | zero => exact absurd trivial asks
  | succ fuel ih =>
    unfold Asks at asks
    cases act : program.next s with
    | exit => simp [act] at asks
    | fail => simp [act] at asks
    | silent t =>
      simp only [act] at asks
      have later : ∀ fuel, Asks program left assumed fuel t source := by
        intro fuel
        have here := fits (fuel + 1)
        simpa only [Asks, act] using here
      obtain ⟨n, query, there, there', tied, assumption, bad, looked⟩ := ih later asks related
      refine ⟨n, query, there, there', tied, assumption, bad, fun start test => ?_⟩
      obtain ⟨asked, fuel, first, second⟩ := looked start test
      refine ⟨fun fuel => ?_, fuel + 1, ?_, ?_⟩
      · cases fuel with
        | zero => trivial
        | succ fuel => simpa only [Asks, act] using asked fuel
      · simpa only [exec, act] using first
      · simpa only [exec, act] using second
    | ask query resume =>
      have here : assumed query source := by
        have first := fits 1
        simp only [Asks, act] at first
        exact first.1
      by_cases fine : good query source
      · have answers := sim query source source' related here fine
        simp only [act, fine, true_and] at asks
        rcases reply : left query source with ⟨reason | answer, rest⟩
        · simp [reply] at asks
        · rcases reply' : right query source' with ⟨reason' | answer', rest'⟩
          · rw [reply, reply'] at answers
            exact False.elim answers
          · rw [reply, reply'] at answers
            obtain ⟨rfl, related⟩ := answers
            simp only [reply] at asks
            have later : ∀ fuel, Asks program left assumed fuel (resume answer) rest := by
              intro fuel
              have more := fits (fuel + 1)
              simp only [Asks, act, reply] at more
              exact more.2
            obtain ⟨n, query', there, there', tied, assumption, bad, looked⟩ := ih later asks related
            refine ⟨n + 1, query', there, there', tied, assumption, bad, fun start test => ?_⟩
            obtain ⟨asked, fuel, first, second⟩ := looked start test
            refine ⟨fun fuel => ?_, fuel + 1, ?_, ?_⟩
            · cases fuel with
              | zero => trivial
              | succ fuel => simpa only [Asks, act, reply] using ⟨here, asked fuel⟩
            · simpa only [exec, act, reply] using first
            · simpa only [exec, act, reply'] using second
      · refine ⟨0, query, source, source', related, here, fine, fun start test => ⟨fun fuel => ?_, 2, ?_, ?_⟩⟩
        · rcases fuel with _ | fuel
          · trivial
          · simp only [Asks, act]
            refine ⟨here, ?_⟩
            generalize left query source = reply
            obtain ⟨reason | answer, rest⟩ := reply
            · trivial
            · rcases fuel with _ | fuel
              · trivial
              · cases passed : test answer <;> simp [Asks, passed]
        · exact exec_looked act source
        · exact exec_looked act source'

/-- A run that ended without a bad cut met none on its way. -/
theorem asks_of_exec {bad : Cut → Prop} {fuel : Nat} {s : program.State} {source : Source} {ending : Ending Cut}
    (ended : exec program left fuel s source = some ending) (clear : ∀ reason, ending = .cut reason → ¬ bad reason) :
    Asks program left (fun query source => ∀ reason, (left query source).1 = .error reason → ¬ bad reason) fuel s source := by
  induction fuel generalizing s source with
  | zero => trivial
  | succ fuel ih =>
    unfold exec at ended
    unfold Asks
    cases act : program.next s with
    | exit => trivial
    | fail => trivial
    | silent t =>
      simp only [act] at ended ⊢
      exact ih ended
    | ask query resume =>
      simp only [act] at ended ⊢
      generalize left query source = reply at ended ⊢
      obtain ⟨reason | answer, rest⟩ := reply
      · refine ⟨?_, trivial⟩
        rintro other same
        obtain rfl := Except.error.inj same
        exact clear _ (Option.some.inj ended).symm
      · refine ⟨?_, ih ended⟩
        rintro reason same
        cases same

/-- A run that ended well is repeated by every oracle that answers as its own where that one answers well. -/
theorem exec_repeated {bad : Cut → Prop}
    (sim : ∀ query source source', rel source source' →
      (∀ reason, (left query source).1 = .error reason → ¬ bad reason) →
      Answers rel same (left query source) (right query source'))
    {fuel : Nat} {s : program.State} {source : Source} {source' : Source'} {ending : Ending Cut}
    (ended : exec program left fuel s source = some ending) (clear : ∀ reason, ending = .cut reason → ¬ bad reason)
    (related : rel source source') : Endings same (some ending) (exec program right fuel s source') := by
  have alike := exec_simulation sim (asks_of_exec ended clear) related
  rwa [ended] at alike

theorem eq_of_endings {ended ended' : Option (Ending Cut)} (alike : Endings (· = ·) ended ended') : ended = ended' := by
  rcases ended with _ | _ | _ | reason <;> rcases ended' with _ | _ | _ | reason'
  all_goals first | rfl | exact False.elim alike | skip
  exact congrArg (fun reason => some (Ending.cut reason)) alike

end

end Interaction
