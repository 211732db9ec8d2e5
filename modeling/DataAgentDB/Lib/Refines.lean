import DataAgentDB.Lib.LabelledRun

/-! Forward simulation between labelled transition relations. An event of the concrete relation
stands for a list of events of the abstract one; the empty list is a step that cannot be seen. -/

namespace LabelledRun

variable {State Event Abstract Label : Type*}

/-- From related states, a concrete step is an abstract run of what its event stands for. -/
def Refines (step : State → Event → State → Prop) (abstract : Abstract → Label → Abstract → Prop)
    (emit : Event → List Label) (R : State → Abstract → Prop) : Prop :=
  ∀ state event next above, R state above → step state event next →
    ∃ above', Run abstract Always above (emit event) above' ∧ R next above'

variable {step : State → Event → State → Prop} {abstract : Abstract → Label → Abstract → Prop}
  {emit : Event → List Label} {R : State → Abstract → Prop}

/-- Every concrete run is an abstract run of what its trace stands for. -/
theorem Refines.run (refines : Refines step abstract emit R) {allowed : List Event → State → Event → Prop}
    {start state : State} {above : Abstract} {trace : List Event} (related : R start above)
    (run : Run step allowed start trace state) :
    ∃ above', Run abstract Always above (trace.flatMap emit) above' ∧ R state above' := by
  refine run.invariant (fun trace state => ∃ above', Run abstract Always above (trace.flatMap emit) above' ∧
    R state above') ⟨above, .nil, related⟩ ?_
  rintro trace state event next ⟨middle, earlier, here⟩ _ taken
  obtain ⟨above', later, there⟩ := refines state event next middle here taken
  rw [List.flatMap_append, List.flatMap_singleton]
  exact ⟨above', earlier.append later, there⟩

/-- A step of one event, or of none. -/
theorem Run.one {above above' : Abstract} {label : Label} (taken : abstract above label above') :
    Run abstract Always above [label] above' :=
  Run.snoc .nil trivial taken

theorem Run.single {above above' : Abstract} {label : Label} (run : Run abstract Always above [label] above') :
    abstract above label above' := by
  have once : Run abstract Always above ([] ++ [label]) above' := run
  obtain ⟨middle, before, -, taken⟩ := once.last
  rwa [before.of_nil] at taken

theorem Refines.of_steps
    (seen : ∀ state event next above, R state above → step state event next →
      (emit event = [] ∧ R next above) ∨
        ∃ label above', emit event = [label] ∧ abstract above label above' ∧ R next above') :
    Refines step abstract emit R := by
  intro state event next above related taken
  rcases seen state event next above related taken with ⟨silent, kept⟩ | ⟨label, above', shown, moved, kept⟩
  · exact ⟨above, silent ▸ .nil, kept⟩
  · exact ⟨above', shown ▸ .one moved, kept⟩

section Emitted
variable (next : State → Event → Option State) (emit : State → Event → List Label)

/-- What the events stand for, in the order they are taken. -/
def emitted : State → List Event → List Label
  | _, [] => []
  | state, event :: rest =>
      emit state event ++ (next state event).elim [] (fun after => emitted after rest)

theorem emitted_snoc {start state : State} {trace : List Event} (event : Event)
    (played : play next start trace = some state) :
    emitted next emit start (trace ++ [event]) = emitted next emit start trace ++ emit state event := by
  induction trace generalizing start with
  | nil =>
    cases played
    cases after : next state event <;> simp [emitted, after]
  | cons first rest ih =>
    obtain ⟨middle, taken, played⟩ := Option.bind_eq_some_iff.mp played
    simp only [List.cons_append, emitted, taken, Option.elim_some, ih played, List.append_assoc]

/-- What the start satisfies and every allowed step keeps, with what was emitted so far. -/
theorem Run.emitted_invariant {allowed : List Event → State → Event → Prop} (I : List Label → State → Prop)
    {start : State} (base : I [] start)
    (keep : ∀ trace labels state event after, allowed trace state event → I labels state →
      next state event = some after → I (labels ++ emit state event) after)
    {state : State} {trace : List Event}
    (run : Run (fun state event after => next state event = some after) allowed start trace state) :
    I (emitted next emit start trace) state := by
  induction run with
  | nil => exact base
  | @snoc trace state after event run fits taken ih =>
    rw [emitted_snoc next emit event (play_of_run run)]
    exact keep trace _ state event after fits ih taken

/-- A forward simulation of a step function whose steps emit by the state they meet. -/
theorem Run.emits {allowed : List Event → State → Event → Prop}
    (simulates : ∀ trace state event after above, allowed trace state event → R state above →
      next state event = some after → ∃ above', Run abstract Always above (emit state event) above' ∧ R after above')
    {start state : State} {above : Abstract} {trace : List Event} (related : R start above)
    (run : Run (fun state event after => next state event = some after) allowed start trace state) :
    ∃ above', Run abstract Always above (emitted next emit start trace) above' ∧ R state above' := by
  refine run.emitted_invariant next emit
    (fun labels state => ∃ above', Run abstract Always above labels above' ∧ R state above') ⟨above, .nil, related⟩ ?_
  rintro trace labels state event after fits ⟨middle, earlier, here⟩ taken
  obtain ⟨above', later, there⟩ := simulates trace state event after middle fits here taken
  exact ⟨above', earlier.append later, there⟩

end Emitted

end LabelledRun
