import Mathlib.Tactic.Common

/-! Runs of a labelled transition relation. A run keeps the trace of its events and
may restrict its steps by a condition on the trace and the state a step starts from. -/

namespace LabelledRun

variable {State Event : Type*}

inductive Run (step : State → Event → State → Prop) (allowed : List Event → State → Event → Prop)
    (start : State) : List Event → State → Prop
  | nil : Run step allowed start [] start
  | snoc {trace : List Event} {state next : State} {event : Event} :
      Run step allowed start trace state → allowed trace state event → step state event next →
      Run step allowed start (trace ++ [event]) next

/-- The condition of an unrestricted run. -/
def Always : List Event → State → Event → Prop := fun _ _ _ => True

variable {step : State → Event → State → Prop} {allowed : List Event → State → Event → Prop}
  {start : State}

/-- What the start satisfies and every allowed step keeps holds after every run. -/
theorem Run.invariant (I : List Event → State → Prop) (base : I [] start)
    (keep : ∀ trace state event next, I trace state → allowed trace state event →
      step state event next → I (trace ++ [event]) next)
    {trace : List Event} {state : State} (run : Run step allowed start trace state) :
    I trace state := by
  induction run with
  | nil => exact base
  | snoc _ fits taken ih => exact keep _ _ _ _ ih fits taken

theorem Run.mono {weaker : List Event → State → Event → Prop}
    (weaken : ∀ trace state event, allowed trace state event → weaker trace state event)
    {trace : List Event} {state : State} (run : Run step allowed start trace state) :
    Run step weaker start trace state := by
  induction run with
  | nil => exact .nil
  | snoc _ fits taken ih => exact .snoc ih (weaken _ _ _ fits) taken

theorem Run.unrestricted {trace : List Event} {state : State}
    (run : Run step allowed start trace state) : Run step Always start trace state :=
  run.mono (fun _ _ _ _ => trivial)

/-- A condition that every step meets is one the run may be restricted by. -/
theorem Run.restrict {meets : State → Event → Prop} {trace : List Event} {state : State}
    (run : Run (fun state event next => step state event next ∧ meets state event) allowed start trace state) :
    Run step (fun _ => meets) start trace state := by
  induction run with
  | nil => exact .nil
  | snoc _ _ taken ih => exact .snoc ih taken.2 taken.1

/-- What the condition says of every event holds of the events of the trace. -/
theorem Run.forall_mem (P : Event → Prop)
    (fits : ∀ trace state event, allowed trace state event → P event) {trace : List Event} {state : State}
    (run : Run step allowed start trace state) : ∀ event ∈ trace, P event := by
  refine run.invariant (fun trace _ => ∀ event ∈ trace, P event) (fun _ member => (nomatch member)) ?_
  intro trace state event next held allowed' _ other member
  rcases List.mem_append.mp member with before | last
  · exact held other before
  · cases List.mem_singleton.mp last
    exact fits trace state event allowed'

theorem Run.of_nil {state : State} (run : Run step allowed start [] state) : state = start := by
  generalize same : ([] : List Event) = trace at run
  cases run with
  | nil => rfl
  | snoc => simp at same

theorem Run.last {trace : List Event} {event : Event} {state : State}
    (run : Run step allowed start (trace ++ [event]) state) :
    ∃ middle, Run step allowed start trace middle ∧ allowed trace middle event ∧
      step middle event state := by
  generalize same : trace ++ [event] = whole at run
  cases run with
  | nil => simp at same
  | snoc earlier fits taken =>
    obtain ⟨rfl, last⟩ := List.append_inj' same rfl
    cases last
    exact ⟨_, earlier, fits, taken⟩

/-- A run splits at every point of its trace; the later part starts in the state reached there. -/
theorem Run.split {trace : List Event} {state : State} (run : Run step allowed start trace state) :
    ∀ before after, trace = before ++ after → ∃ middle, Run step allowed start before middle ∧
      Run step (fun later => allowed (before ++ later)) middle after state := by
  induction run with
  | nil =>
    intro before after same
    obtain ⟨rfl, rfl⟩ := List.append_eq_nil_iff.mp same.symm
    exact ⟨start, .nil, .nil⟩
  | @snoc trace state next event run fits taken ih =>
    intro before after same
    rcases List.eq_nil_or_concat after with rfl | ⟨front, last, rfl⟩
    · rw [List.append_nil] at same
      exact ⟨next, same ▸ .snoc run fits taken, .nil⟩
    · rw [List.concat_eq_append, ← List.append_assoc] at same
      obtain ⟨fronts, lasts⟩ := List.append_inj' same rfl
      cases lasts
      obtain ⟨middle, first, second⟩ := ih before front fronts
      rw [List.concat_eq_append]
      exact ⟨middle, first, .snoc second (fronts ▸ fits) taken⟩

/-- Two runs, the second from where the first ends, make one. -/
theorem Run.append {trace later : List Event} {middle state : State}
    (first : Run step Always start trace middle) (second : Run step Always middle later state) :
    Run step Always start (trace ++ later) state := by
  induction second with
  | nil => simpa using first
  | snoc _ _ taken ih =>
    rw [← List.append_assoc]
    exact .snoc ih trivial taken

/-- The states some run reaches. -/
def Reachable (step : State → Event → State → Prop) (start state : State) : Prop :=
  ∃ trace, Run step Always start trace state

theorem Reachable.trans {middle state : State} (first : Reachable step start middle)
    (second : Reachable step middle state) : Reachable step start state := by
  obtain ⟨trace, run⟩ := first
  obtain ⟨later, rest⟩ := second
  exact ⟨trace ++ later, run.append rest⟩

theorem Reachable.invariant (I : State → Prop) (base : I start)
    (keep : ∀ state event next, I state → step state event next → I next)
    {state : State} (reach : Reachable step start state) : I state := by
  obtain ⟨_, run⟩ := reach
  exact run.invariant (fun _ => I) base (fun _ state event next held _ => keep state event next held)

/-- The state after a list of events, while each has a step. -/
def play (next : State → Event → Option State) : State → List Event → Option State
  | state, [] => some state
  | state, event :: rest => (next state event).bind (fun after => play next after rest)

theorem run_of_play {next : State → Event → Option State} {events : List Event} {first last : State}
    (played : play next first events = some last) :
    Run (fun state event after => next state event = some after) Always first events last := by
  induction events generalizing first with
  | nil => cases played; exact .nil
  | cons event rest ih =>
    obtain ⟨middle, taken, played⟩ := Option.bind_eq_some_iff.mp played
    exact Run.append (.snoc .nil trivial taken) (ih played)

theorem play_append {next : State → Event → Option State} (first second : List Event) (state : State) :
    play next state (first ++ second) =
      (play next state first).bind (fun middle => play next middle second) := by
  induction first generalizing state with
  | nil => rfl
  | cons event rest ih => simp [play, ih, Option.bind_assoc]

/-- A step function has one run for each trace. -/
theorem play_of_run {next : State → Event → Option State} {trace : List Event} {state : State}
    (run : Run (fun state event after => next state event = some after) allowed start trace state) :
    play next start trace = some state := by
  induction run with
  | nil => rfl
  | snoc _ _ taken ih => simp [play_append, ih, play, taken]

theorem Run.cons {event : Event} {rest : List Event} {middle last : State}
    (fits : allowed [] start event) (taken : step start event middle)
    (run : Run step (fun later => allowed (event :: later)) middle rest last) :
    Run step allowed start (event :: rest) last := by
  induction run with
  | nil =>
    have single : Run step allowed start ([] ++ [event]) middle := .snoc .nil fits taken
    exact single
  | @snoc trace _ _ last _ fits' taken' ih =>
    have longer : Run step allowed start ((event :: trace) ++ [last]) _ := .snoc ih fits' taken'
    exact longer

/-- The state after a list of events, while each has a step that is allowed. -/
def playUnder (next : State → Event → Option State) (allowed : List Event → State → Event → Prop)
    [∀ trace state event, Decidable (allowed trace state event)] :
    List Event → State → List Event → Option State
  | _, state, [] => some state
  | done, state, event :: rest =>
      if allowed done state event then
        (next state event).bind (fun after => playUnder next allowed (done ++ [event]) after rest)
      else none

theorem run_of_playUnder {next : State → Event → Option State}
    {allowed : List Event → State → Event → Prop}
    [∀ trace state event, Decidable (allowed trace state event)] {done events : List Event}
    {first last : State} (played : playUnder next allowed done first events = some last) :
    Run (fun state event after => next state event = some after) (fun later => allowed (done ++ later))
      first events last := by
  induction events generalizing done first with
  | nil => cases played; exact .nil
  | cons event rest ih =>
    simp only [playUnder] at played
    split at played
    next fits =>
      obtain ⟨middle, taken, played⟩ := Option.bind_eq_some_iff.mp played
      have later := ih played
      simp only [List.append_assoc, List.cons_append, List.nil_append] at later
      exact .cons (by simpa using fits) taken later
    next => cases played

/-- A played list of events ends in a reachable state; what is checked of it holds there. -/
theorem reachable_of_play (next : State → Event → Option State) (first : State) (events : List Event)
    (check : State → Bool) (played : (play next first events).map check = some true) :
    ∃ last, Reachable (fun state event after => next state event = some after) first last ∧
      check last = true := by
  obtain ⟨last, result, checked⟩ := Option.map_eq_some_iff.mp played
  exact ⟨last, ⟨events, run_of_play result⟩, checked⟩

end LabelledRun
