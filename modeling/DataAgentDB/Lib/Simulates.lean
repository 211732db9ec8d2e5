import Mathlib.Tactic.Common

/-! Computations that may fail against ones that may not complete: both end, with related results,
or the first fails for an excused reason and the second does not complete. -/

namespace Simulates

variable {ε X Y X' Y' : Type}

inductive Sim (excused : ε → Prop) (R : X → Y → Prop) : Except ε X → Option Y → Prop
  | ok {x : X} {y : Y} (related : R x y) : Sim excused R (.ok x) (some y)
  | error {e : ε} (reason : excused e) : Sim excused R (.error e) none

variable {excused : ε → Prop} {R : X → Y → Prop} {S : X' → Y' → Prop} {got : Except ε X} {want : Option Y}

@[simp] theorem ok_bind (x : X) (f : X → Except ε X') : (Except.ok x >>= f) = f x := rfl

theorem bind_eq_ok {x : Except ε X} {f : X → Except ε X'} {y : X'} (done : (x >>= f) = .ok y) :
    ∃ a, x = .ok a ∧ f a = .ok y := by
  cases x with
  | error e => cases done
  | ok a => exact ⟨a, rfl, done⟩

theorem Sim.mono {R' : X → Y → Prop} (sim : Sim excused R got want) (weaken : ∀ x y, R x y → R' x y) :
    Sim excused R' got want := by
  cases sim with
  | ok related => exact .ok (weaken _ _ related)
  | error reason => exact .error reason

/-- Simulated computations may be continued by simulated ones. -/
theorem Sim.bind {f : X → Except ε X'} {g : Y → Option Y'} (first : Sim excused R got want)
    (rest : ∀ x y, R x y → Sim excused S (f x) (g y)) : Sim excused S (got >>= f) (want >>= g) := by
  cases first with
  | ok related => exact rest _ _ related
  | error reason => exact .error reason

/-- A failure is excused. -/
theorem Sim.excuse (sim : Sim excused R got want) {e : ε} (failed : got = .error e) : excused e := by
  cases sim with
  | ok => cases failed
  | error reason =>
    cases failed
    exact reason

/-- Two computations that simulate one end alike, if there is one excuse only. -/
theorem Sim.alike {Z : Type} {Q : Z → Y → Prop} {other : Except ε Z} {reason : ε}
    (first : Sim (· = reason) R got want) (second : Sim (· = reason) Q other want) :
    (got = .error reason ∧ other = .error reason) ∨
      ∃ x y z, got = .ok x ∧ other = .ok z ∧ R x y ∧ Q z y := by
  cases first with
  | ok related =>
    cases second with
    | ok related' => exact .inr ⟨_, _, _, rfl, rfl, related, related'⟩
  | error same =>
    cases second with
    | error same' => exact .inl ⟨same ▸ rfl, same' ▸ rfl⟩

/-- An option as a computation that fails for one reason. -/
def orFail (reason : ε) : Option X → Except ε X
  | some x => .ok x
  | none => .error reason

theorem orFail_sim (reason : ε) (option : Option X) : Sim (· = reason) Eq (orFail reason option) option := by
  cases option with
  | some x => exact .ok rfl
  | none => exact .error rfl

end Simulates
