import DataAgentDB.Occ.Latching
import Mathlib.Data.Finset.Max

/-! Validation cannot deadlock: a transaction that waits inside the latch loop holds only rows
that sort before the one it waits for, and one that waits in `get_row` holds none. -/

namespace DataAgentDB.Occ
open Storage

section Definitions
variable {ρ α : Type}

/-- The row the latch loop of a transaction locks next. -/
def State.wanted (s : State ρ α) (t : Nat) : Option ρ :=
  match s.txns t with
  | some ⟨man, .latching, _, _⟩ => (man.accesses[man.lockCnt]?).map Access.origRow
  | _ => none

/-- Where the row a transaction is about to lock stands in the order of the latch loop. -/
def State.height (rows : ρ → Row α) (s : State ρ α) (t : Nat) : List Nat ×ₗ Nat :=
  (s.wanted t).elim (toLex ([], 0)) (fun row => (rows row).sortKey)

/-- The next call of the transaction may block on the row's mutex: it is the next row of the
latch loop, or a row a first `get_row` asks for. -/
def WaitsFor (s : State ρ α) (t : Nat) (row : ρ) : Prop :=
  s.wanted t = some row ∨ ∃ client, s.txns t = some client ∧ client.phase = .running ∧
    client.man.recordPos (s.rows row).primaryKey = none

def Deadlock (s : State ρ α) (group : Set Nat) : Prop :=
  group.Nonempty ∧ ∀ t ∈ group, ∃ row, WaitsFor s t row ∧
    ∃ u ∈ group, (s.rows row).manager.latch = some u

def Client.Validating (client : Client ρ α) : Prop :=
  match client.phase with
  | .latching | .writing _ | .releasing _ _ => True
  | .running | .ended _ => False

end Definitions

variable {ρ α : Type} {rows : ρ → Row α} {s : State ρ α}

theorem wanted_client {t : Nat} {row : ρ} (want : s.wanted t = some row) :
    ∃ man copied installs acc, s.txns t = some ⟨man, .latching, copied, installs⟩ ∧
      man.accesses[man.lockCnt]? = some acc ∧ acc.origRow = row := by
  unfold State.wanted at want
  split at want
  next man copied installs found =>
    obtain ⟨acc, entry, same⟩ := Option.map_eq_some_iff.mp want
    exact ⟨man, copied, installs, acc, found, entry, same⟩
  next => cases want

/-- Latches are taken upwards: what a transaction holds sorts before what it waits for. -/
theorem held_below_wanted (inv : Latches rows s) {t : Nat} {held row : ρ}
    (latch : (s.rows held).manager.latch = some t) (want : s.wanted t = some row) :
    (rows held).sortKey < (rows row).sortKey := by
  obtain ⟨man, copied, installs, acc, found, entry, rfl⟩ := wanted_client want
  obtain ⟨sorted, _⟩ := inv.tidy t _ found
  have member := inv.holds_of_latch found latch
  simp only [Client.holds, List.map_take] at member
  obtain ⟨i, bound, same⟩ := List.mem_take_iff_getElem.mp member
  obtain ⟨next, here⟩ := List.getElem?_eq_some_iff.mp entry
  have order := List.pairwise_iff_getElem.mp sorted i man.lockCnt
    (lt_of_lt_of_le bound (min_le_right _ _)) (by simpa using next)
    (lt_of_lt_of_le bound (min_le_left _ _))
  rw [same] at order
  simpa [here] using order

/-- Only transactions inside `finish` hold latches. -/
theorem validating_of_latch (inv : Latches rows s) {t : Nat} {row : ρ}
    (latch : (s.rows row).manager.latch = some t) :
    ∃ client, s.txns t = some client ∧ client.Validating := by
  have member := (inv.owner row t).mp latch
  unfold State.held at member
  split at member
  next => simp at member
  next client found =>
    refine ⟨client, found, ?_⟩
    obtain ⟨man, phase, copied, installs⟩ := client
    cases phase <;> simp_all [Client.holds, Client.Validating]

theorem no_waiting_cycle (inv : Latches rows s) (group : Set Nat) : ¬Deadlock s group := by
  classical
  rintro ⟨⟨first, inGroup⟩, waits⟩
  let holders := (Finset.range s.begun).filter
    (fun t => t ∈ group ∧ ∃ row, (s.rows row).manager.latch = some t)
  have holder : ∀ t ∈ group, ∀ row, (s.rows row).manager.latch = some t → t ∈ holders := by
    intro t member row latch
    obtain ⟨client, found, _⟩ := validating_of_latch inv latch
    simp only [holders, Finset.mem_filter, Finset.mem_range]
    exact ⟨inv.bounded t client found, member, row, latch⟩
  -- every holder of the group is in the latch loop and blocked by a holder further up
  have blocked : ∀ t ∈ holders, ∃ row, s.wanted t = some row ∧
      ∃ u ∈ holders, (s.rows row).manager.latch = some u := by
    intro t member
    simp only [holders, Finset.mem_filter] at member
    obtain ⟨_, inside, held, latch⟩ := member
    obtain ⟨row, waiting, u, uInside, uLatch⟩ := waits t inside
    refine ⟨row, ?_, u, holder u uInside row uLatch, uLatch⟩
    rcases waiting with want | ⟨client, found, running, _⟩
    · exact want
    · have member := inv.holds_of_latch found latch
      simp [Client.holds, running] at member
  obtain ⟨row, _, u, uInside, latch⟩ := waits first inGroup
  obtain ⟨top, member, highest⟩ :=
    Finset.exists_max_image holders (s.height rows) ⟨u, holder u uInside row latch⟩
  obtain ⟨row, want, v, vMember, vLatch⟩ := blocked top member
  obtain ⟨above, vWant, _⟩ := blocked v vMember
  have higher := held_below_wanted inv vLatch vWant
  have lower := highest v vMember
  simp only [State.height, want, vWant, Option.elim_some] at lower
  exact absurd higher (not_lt.mpr lower)

/-- A transaction in the latch loop that cannot step finds its next row latched. -/
theorem stuck_latching [DecidableEq ρ] {t : Nat} {client : Client ρ α}
    (found : s.txns t = some client) (validating : client.Validating)
    (stuck : step s (.advance t) = none) :
    ∃ row u, s.wanted t = some row ∧ (s.rows row).manager.latch = some u := by
  obtain ⟨man, phase, copied, installs⟩ := client
  simp only [step, found] at stuck
  cases phase with
  | running => exact validating.elim
  | ended rc => exact validating.elim
  | latching =>
    simp only [advance] at stuck
    split at stuck
    next acc entry =>
      refine ⟨acc.origRow, ?_⟩
      have want : s.wanted t = some acc.origRow := by simp [State.wanted, found, entry]
      cases latch : (s.rows acc.origRow).manager.latch with
      | some u => exact ⟨u, want, rfl⟩
      | none => simp [Row.latch, latch] at stuck; split at stuck <;> cases stuck
    next => cases stuck
  | writing todo =>
    cases todo with
    | nil => cases stuck
    | cons acc todo => simp only [advance] at stuck; split at stuck <;> cases stuck
  | releasing held rc => cases held <;> cases stuck

/-- From any access tables, no interleaving reaches a set of transactions that wait for each
other's row latches, and a state with an unfinished validation is never stuck. -/
theorem validation_deadlock_free [DecidableEq ρ] {start : State ρ α} (ready : Ready start)
    (reach : LabelledRun.Reachable Step start s) :
    (∀ group, ¬Deadlock s group) ∧
      ((∃ t client, s.txns t = some client ∧ client.Validating) →
        ∃ t client next, s.txns t = some client ∧ client.Validating ∧
          Step s (.advance t) next) := by
  have inv := latches_reachable ready reach
  refine ⟨no_waiting_cycle inv, ?_⟩
  rintro ⟨t, client, found, validating⟩
  by_contra stuck
  apply no_waiting_cycle inv {u | ∃ other, s.txns u = some other ∧ other.Validating}
  refine ⟨⟨t, client, found, validating⟩, ?_⟩
  rintro u ⟨other, present, active⟩
  have none : step s (.advance u) = none := by
    cases result : step s (.advance u) with
    | none => rfl
    | some next => exact absurd ⟨u, other, next, present, active, result⟩ stuck
  obtain ⟨row, v, want, latch⟩ := stuck_latching present active none
  exact ⟨row, Or.inl want, v, validating_of_latch inv latch, latch⟩

/-- Two transactions whose tables list the same two rows in opposite orders. -/
def crossed : State Nat Nat :=
  let client (first second : Nat) : Client Nat Nat :=
    { man := { (TxnMan.init 1 : TxnMan Nat Nat) with
        accesses := [⟨.RD, first, 0⟩, ⟨.WR, second, 0⟩]
        recordPos := fun rid => if rid = first then some 0 else if rid = second then some 1 else none }
      phase := .running, copied := [], installs := [] }
  { rows := fun row => ⟨[84], row, 0, RowOcc.init, true⟩
    timestamp := 2
    txns := fun t => [client 7 3, client 3 7][t]?
    begun := 2 }

theorem crossed_ready : Ready crossed := by
  refine ⟨fun _ => rfl, ?_, ?_, ?_, ?_⟩ <;> intro t client found
  · have member := List.mem_of_getElem? found
    simp only [List.mem_cons, List.not_mem_nil, or_false] at member
    rcases member with rfl | rfl <;> rfl
  · have member := List.mem_of_getElem? found
    simp only [List.mem_cons, List.not_mem_nil, or_false] at member
    rcases member with rfl | rfl <;> refine ⟨by simp [crossed], ?_⟩ <;>
      (intro rid pos same; simp only [TxnMan.rowCnt] at same ⊢; split_ifs at same <;> simp_all <;> omega)
  · have member := List.mem_of_getElem? found
    simp only [List.mem_cons, List.not_mem_nil, or_false] at member
    rcases member with rfl | rfl <;> simp [crossed]
  · exact (List.getElem?_eq_some_iff.mp found).1

/-- Both validate at once; the one that finds its first row latched waits, the other goes on. -/
theorem crossed_deadlock_free :
    ∃ s : State Nat Nat, (s.wanted 1 = some 3 ∧ (s.rows 3).manager.latch = some 0) ∧
      (∀ group, ¬Deadlock s group) ∧ ∃ t client next, s.txns t = some client ∧
        client.Validating ∧ Step s (.advance t) next := by
  obtain ⟨s, reach, checked⟩ := LabelledRun.reachable_of_play step crossed
    [.finish 0 .RCOK, .finish 1 .RCOK, .advance 0]
    (fun s => s.wanted 1 = some 3 ∧ (s.rows 3).manager.latch = some 0) (by decide)
  simp only [decide_eq_true_eq] at checked
  obtain ⟨free, goes⟩ := validation_deadlock_free crossed_ready reach
  obtain ⟨man, copied, installs, _, found, _⟩ := wanted_client checked.1
  exact ⟨s, checked, free, goes ⟨1, _, found, trivial⟩⟩

end DataAgentDB.Occ
