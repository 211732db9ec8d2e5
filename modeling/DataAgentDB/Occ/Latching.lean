import DataAgentDB.Occ.Protocol

/-! Who holds which latch. The rows latched by a transaction are exactly those its place in
`finish` says, and each transaction takes its latches in strictly increasing sort order. -/

namespace DataAgentDB.Occ
open Storage

variable {ρ α : Type}

def State.held (s : State ρ α) (t : Nat) : List ρ :=
  match s.txns t with
  | none => []
  | some client => client.holds

/-- Every accessed key is in the map, and the map points below `row_cnt`. -/
def Covered (rows : ρ → Row α) (man : TxnMan ρ α) : Prop :=
  (∀ acc ∈ man.accesses, man.recordPos (rows acc.origRow).primaryKey ≠ none) ∧
    ∀ rid pos, man.recordPos rid = some pos → pos < man.rowCnt

/-- No two entries share table name and primary key. -/
def Distinct (rows : ρ → Row α) (accesses : List (Access ρ α)) : Prop :=
  (accesses.map Access.origRow).Pairwise (fun a b => (rows a).sortKey ≠ (rows b).sortKey)

def Client.Tidy (rows : ρ → Row α) (client : Client ρ α) : Prop :=
  match client.phase with
  | .running => Covered rows client.man ∧ Distinct rows client.man.accesses
  | .latching =>
      (client.man.accesses.map Access.origRow).Pairwise
        (fun a b => (rows a).sortKey < (rows b).sortKey) ∧
      client.man.lockCnt ≤ client.man.rowCnt
  | .writing todo =>
      (client.man.accesses.map Access.origRow).Nodup ∧ client.man.lockCnt = client.man.rowCnt ∧
      todo.reverse <+: client.man.accesses
  | .releasing held _ => held.Nodup
  | .ended _ => True

structure Latches (rows : ρ → Row α) (s : State ρ α) : Prop where
  keys : ∀ row, (s.rows row).sortKey = (rows row).sortKey
  owner : ∀ row t, (s.rows row).manager.latch = some t ↔ row ∈ s.held t
  tidy : ∀ t client, s.txns t = some client → client.Tidy rows
  bounded : ∀ t client, s.txns t = some client → t < s.begun

/-- Transactions with access tables of their own, none of them validating yet. -/
structure Ready (s : State ρ α) : Prop where
  unlatched : ∀ row, (s.rows row).manager.latch = none
  running : ∀ t client, s.txns t = some client → client.phase = .running
  covered : ∀ t client, s.txns t = some client → Covered s.rows client.man
  distinct : ∀ t client, s.txns t = some client → client.man.accesses.Pairwise (fun a b =>
    ¬((s.rows a.origRow).tableName = (s.rows b.origRow).tableName ∧
      (s.rows a.origRow).primaryKey = (s.rows b.origRow).primaryKey))
  bounded : ∀ t client, s.txns t = some client → t < s.begun

theorem ready_latches {s : State ρ α} (ready : Ready s) : Latches s.rows s where
  keys _ := rfl
  owner row t := by
    have nothing : s.held t = [] := by
      unfold State.held
      split
      next => rfl
      next client found => simp [Client.holds, ready.running t client found]
    simp [ready.unlatched row, nothing]
  tidy t client found := by
    simp only [Client.Tidy, ready.running t client found, Distinct]
    refine ⟨ready.covered t client found, List.pairwise_map.mpr ?_⟩
    exact (ready.distinct t client found).imp (fun apart same => apart ((sortKey_eq_iff _ _).mp same))
  bounded := ready.bounded

namespace Latches

variable {rows : ρ → Row α} {s : State ρ α}

theorem primaryKey (inv : Latches rows s) (row : ρ) :
    (s.rows row).primaryKey = (rows row).primaryKey :=
  ((sortKey_eq_iff _ _).mp (inv.keys row)).2

/-- One transaction moves on. Its new place accounts for every latch that changed. -/
theorem update (inv : Latches rows s) {t : Nat} {client : Client ρ α} {rows' : ρ → Row α}
    {timestamp' begun' : Nat} (keys : ∀ row, (rows' row).sortKey = (s.rows row).sortKey)
    (mine : ∀ row, (rows' row).manager.latch = some t ↔ row ∈ client.holds)
    (others : ∀ row u, u ≠ t →
      ((rows' row).manager.latch = some u ↔ (s.rows row).manager.latch = some u))
    (tidy : client.Tidy rows) (known : t < begun') (grows : s.begun ≤ begun') :
    Latches rows ⟨rows', timestamp', Function.update s.txns t (some client), begun'⟩ where
  keys row := (keys row).trans (inv.keys row)
  owner row u := by
    by_cases same : u = t
    · subst same
      simpa [State.held] using mine row
    · rw [others row u same, inv.owner row u]
      simp [State.held, Function.update_of_ne same]
  tidy u other found := by
    by_cases same : u = t
    · subst same
      simp only [Function.update_self, Option.some.injEq] at found
      exact found ▸ tidy
    · exact inv.tidy u other (by simpa [Function.update_of_ne same] using found)
  bounded u other found := by
    by_cases same : u = t
    · exact same ▸ known
    · have old := inv.bounded u other (by simpa [Function.update_of_ne same] using found)
      exact lt_of_lt_of_le old grows

/-- A step of a transaction that neither takes nor drops a latch. -/
theorem quiet (inv : Latches rows s) {t : Nat} {old client : Client ρ α} {rows' : ρ → Row α}
    {timestamp' : Nat} (found : s.txns t = some old)
    (keys : ∀ row, (rows' row).sortKey = (s.rows row).sortKey)
    (latches : ∀ row, (rows' row).manager.latch = (s.rows row).manager.latch)
    (holds : ∀ row, row ∈ client.holds ↔ row ∈ old.holds) (tidy : client.Tidy rows) :
    Latches rows ⟨rows', timestamp', Function.update s.txns t (some client), s.begun⟩ := by
  refine inv.update keys ?_ (fun row u _ => by rw [latches row]) tidy (inv.bounded t old found) le_rfl
  intro row
  rw [latches row, inv.owner row t, holds row]
  simp [State.held, found]

/-- The held rows of a transaction inside `finish` carry its latch. -/
theorem latch_of_holds (inv : Latches rows s) {t : Nat} {client : Client ρ α}
    (found : s.txns t = some client) {row : ρ} (held : row ∈ client.holds) :
    (s.rows row).manager.latch = some t := by
  rw [inv.owner row t]
  simpa [State.held, found] using held

theorem holds_of_latch (inv : Latches rows s) {t : Nat} {client : Client ρ α}
    (found : s.txns t = some client) {row : ρ} (latch : (s.rows row).manager.latch = some t) :
    row ∈ client.holds := by
  rw [inv.owner row t] at latch
  simpa [State.held, found] using latch

end Latches

theorem covered_of_same_rows {rows : ρ → Row α} {man man' : TxnMan ρ α} (covered : Covered rows man)
    (same : man'.accesses.map Access.origRow = man.accesses.map Access.origRow)
    (pos : man'.recordPos = man.recordPos) : Covered rows man' := by
  constructor
  · intro other member
    have inTable : other.origRow ∈ man.accesses.map Access.origRow :=
      same ▸ List.mem_map_of_mem member
    obtain ⟨before, member', equal⟩ := List.mem_map.mp inTable
    simpa [pos, equal] using covered.1 before member'
  · intro rid place found
    have length := congrArg List.length same
    simp only [List.length_map] at length
    simpa [TxnMan.rowCnt, length] using covered.2 rid place (pos ▸ found)

theorem covered_record {rows : ρ → Row α} {man : TxnMan ρ α} (covered : Covered rows man)
    (row : ρ) (type : AccessT) (copy : α) :
    Covered rows (man.record (rows row).primaryKey row type copy) := by
  constructor
  · intro other member
    simp only [TxnMan.record_accesses, List.mem_append, List.mem_singleton] at member
    simp only [TxnMan.record_recordPos]
    rcases member with old | rfl
    · by_cases same : (rows other.origRow).primaryKey = (rows row).primaryKey
      · simp [same]
      · rw [Function.update_of_ne same]
        exact covered.1 other old
    · simp
  · intro rid place found
    simp only [TxnMan.record_recordPos] at found
    simp only [TxnMan.rowCnt, TxnMan.record_accesses, List.length_append, List.length_singleton]
    by_cases same : rid = (rows row).primaryKey
    · subst same
      simp only [Function.update_self, Option.some.injEq, TxnMan.rowCnt] at found
      omega
    · rw [Function.update_of_ne same] at found
      have bound := covered.2 rid place found
      simp only [TxnMan.rowCnt] at bound
      omega

/-- A row copied for the first time differs in its key from every row of the table. -/
theorem distinct_record {rows : ρ → Row α} {man : TxnMan ρ α} (covered : Covered rows man)
    (distinct : Distinct rows man.accesses) {row : ρ} (type : AccessT) (copy : α)
    (missing : man.recordPos (rows row).primaryKey = none) :
    Distinct rows (man.record (rows row).primaryKey row type copy).accesses := by
  simp only [Distinct, TxnMan.record_accesses, List.map_append, List.map_cons, List.map_nil,
    List.pairwise_append]
  refine ⟨distinct, by simp, ?_⟩
  intro a member b last same
  obtain ⟨acc, inTable, rfl⟩ := List.mem_map.mp member
  rw [List.mem_singleton.mp last] at same
  have keys := ((sortKey_eq_iff _ _).mp same).2
  exact covered.1 acc inTable (keys ▸ missing)

theorem strictly_sorted {rows current : ρ → Row α} {man : TxnMan ρ α}
    (keys : ∀ row, (current row).sortKey = (rows row).sortKey)
    (distinct : Distinct rows man.accesses) :
    ((man.sortAccesses current).accesses.map Access.origRow).Pairwise
      (fun a b => (rows a).sortKey < (rows b).sortKey) := by
  have sorted : ((man.sortAccesses current).accesses.map Access.origRow).Pairwise
      (fun a b => (rows a).sortKey ≤ (rows b).sortKey) := by
    rw [List.pairwise_map]
    exact (man.sortAccesses_sorted current).imp (fun le => by rwa [keys, keys] at le)
  have apart : ((man.sortAccesses current).accesses.map Access.origRow).Pairwise
      (fun a b => (rows a).sortKey ≠ (rows b).sortKey) :=
    (((man.sortAccesses_perm current).map Access.origRow).pairwise_iff
      (fun differ same => differ same.symm)).mpr distinct
  exact (sorted.and apart).imp (fun both => lt_of_le_of_ne both.1 both.2)

theorem nodup_of_increasing {rows : ρ → Row α} {held : List ρ}
    (sorted : held.Pairwise (fun a b => (rows a).sortKey < (rows b).sortKey)) : held.Nodup :=
  sorted.imp (fun less same => absurd (same ▸ less) (lt_irrefl _))

section Steps
variable [DecidableEq ρ] {rows : ρ → Row α} {s next : State ρ α} {action : Action ρ α}

/-- What the new content of a row shares with the old one stays for every row. -/
theorem kept_setRow {β : Type} (part : Row α → β) {content : Row α} {row : ρ}
    (same : part content = part (s.rows row)) (other : ρ) :
    part (Function.update s.rows row content other) = part (s.rows other) := by
  by_cases here : other = row
  · rw [here, Function.update_self, same]
  · rw [Function.update_of_ne here]

/-- Taking a free row's latch. -/
private theorem latches_take (inv : Latches rows s) {t : Nat} {old client : Client ρ α} {row : ρ}
    (found : s.txns t = some old) (free : (s.rows row).manager.latch = none)
    (holds : client.holds = old.holds ++ [row]) (tidy : client.Tidy rows) :
    Latches rows ((s.setRow row { s.rows row with
      manager := { (s.rows row).manager with latch := some t } }).setClient t client) := by
  refine inv.update (kept_setRow Row.sortKey rfl) ?_ ?_ tidy (inv.bounded t old found) le_rfl
  · intro other
    simp only [State.setRow]
    by_cases here : other = row
    · subst here; simp [holds]
    · rw [Function.update_of_ne here, inv.owner other t]
      simp [State.held, found, holds, here]
  · intro other u apart
    simp only [State.setRow]
    by_cases here : other = row
    · subst here; simp [free, apart.symm]
    · rw [Function.update_of_ne here]

private theorem latches_drop (inv : Latches rows s) {t : Nat} {old client : Client ρ α} {row : ρ}
    (found : s.txns t = some old) (mine : (s.rows row).manager.latch = some t)
    (holds : ∀ other, other ∈ client.holds ↔ other ∈ old.holds ∧ other ≠ row)
    (tidy : client.Tidy rows) :
    Latches rows ((s.setRow row (s.rows row).release).setClient t client) := by
  refine inv.update (kept_setRow Row.sortKey rfl) ?_ ?_ tidy (inv.bounded t old found) le_rfl
  · intro other
    simp only [State.setRow, holds other]
    by_cases here : other = row
    · subst here; simp [Row.release]
    · rw [Function.update_of_ne here, inv.owner other t]
      simp [State.held, found, here]
  · intro other u apart
    simp only [State.setRow]
    by_cases here : other = row
    · subst here; simp [Row.release, mine, apart.symm]
    · rw [Function.update_of_ne here]

theorem latches_step (inv : Latches rows s) (taken : Step s action next) : Latches rows next := by
  cases step_cases taken with
  | begun =>
    have unknown : s.txns s.begun = none := by
      cases found : s.txns s.begun with
      | none => rfl
      | some client => exact absurd (inv.bounded _ client found) (lt_irrefl _)
    refine inv.update (fun _ => rfl) ?_ (fun _ _ _ => Iff.rfl) ?_ (Nat.lt_succ_self _) (Nat.le_succ _)
    · intro row
      change (s.rows row).manager.latch = some s.begun ↔ _
      rw [inv.owner row s.begun]
      simp [State.held, unknown, Client.holds]
    · simp [Client.Tidy, TxnMan.init, Covered, Distinct]
  | @reread t row type man copied installs pos acc client found entry =>
    obtain ⟨covered, distinct⟩ := inv.tidy t _ client
    have same := man.upgrade_rows entry type
    refine inv.quiet client (fun _ => rfl) (fun _ => rfl) (fun _ => Iff.rfl) ⟨?_, ?_⟩
    · exact covered_of_same_rows covered same (by simp)
    · simpa only [Distinct, same] using distinct
  | refused client =>
    exact inv.quiet client (fun _ => rfl) (fun _ => rfl) (fun _ => Iff.rfl) (inv.tidy _ _ client)
  | @copied t row type man copied installs client missing free current =>
    obtain ⟨covered, distinct⟩ := inv.tidy t _ client
    rw [inv.primaryKey row] at missing
    refine inv.quiet client (fun _ => rfl) (fun _ => rfl) (fun _ => Iff.rfl) ⟨?_, ?_⟩
    · simpa only [inv.primaryKey row] using covered_record covered row type _
    · simpa only [inv.primaryKey row] using distinct_record covered distinct type _ missing
  | @changed t row value man copied installs client =>
    obtain ⟨covered, distinct⟩ := inv.tidy t _ client
    have same := man.setLocal_rows (s.rows row).primaryKey (fun _ => value)
    refine inv.quiet client (fun _ => rfl) (fun _ => rfl) (fun _ => Iff.rfl) ⟨?_, ?_⟩
    · exact covered_of_same_rows covered same (by simp)
    · simpa only [Distinct, same] using distinct
  | @sorted t man copied installs client =>
    obtain ⟨_, distinct⟩ := inv.tidy t _ client
    refine inv.quiet client (fun _ => rfl) (fun _ => rfl) (fun _ => by simp [Client.holds]) ?_
    exact ⟨strictly_sorted inv.keys distinct, Nat.zero_le _⟩
  | dropped client =>
    exact inv.quiet client (fun _ => rfl) (fun _ => rfl) (fun _ => by simp [Client.holds]) trivial
  | @latched t man copied installs acc client entry free current =>
    obtain ⟨sorted, _⟩ := inv.tidy t _ client
    obtain ⟨bound, _⟩ := List.getElem?_eq_some_iff.mp entry
    refine latches_take inv client free ?_ ⟨sorted, bound⟩
    simp [Client.holds, List.take_add_one, entry]
  | @failed t man copied installs acc client entry free =>
    obtain ⟨sorted, _⟩ := inv.tidy t _ client
    refine latches_take inv client free ?_ ?_
    · simp [Client.holds, List.take_add_one, entry]
    · simp only [Client.Tidy, List.map_take]
      exact (nodup_of_increasing sorted).sublist (List.take_sublist _ _)
  | @drew t man copied installs client finished =>
    obtain ⟨sorted, bound⟩ := inv.tidy t _ client
    have complete : man.lockCnt = man.rowCnt :=
      le_antisymm bound (List.getElem?_eq_none_iff.mp finished)
    refine inv.quiet client (fun _ => rfl) (fun _ => rfl) ?_ ?_
    · intro row
      simp [Client.holds, complete, TxnMan.rowCnt]
    · exact ⟨nodup_of_increasing sorted, complete, by simp⟩
  | @wrote t man copied installs acc todo client written =>
    obtain ⟨nodup, complete, front⟩ := inv.tidy t _ client
    refine inv.quiet client (kept_setRow Row.sortKey rfl) ?_ (fun _ => Iff.rfl) ⟨nodup, complete, ?_⟩
    · exact kept_setRow (fun row => row.manager.latch) rfl
    · exact List.IsPrefix.trans (by simp) front
  | @skipped t man copied installs acc todo client read =>
    obtain ⟨nodup, complete, front⟩ := inv.tidy t _ client
    refine inv.quiet client (fun _ => rfl) (fun _ => rfl) (fun _ => Iff.rfl) ⟨nodup, complete, ?_⟩
    exact List.IsPrefix.trans (by simp) front
  | @returned t man copied installs client =>
    obtain ⟨nodup, complete, _⟩ := inv.tidy t _ client
    have all : man.accesses.take man.lockCnt = man.accesses := by
      rw [complete]; exact List.take_length
    refine inv.quiet client (fun _ => rfl) (fun _ => rfl) ?_ ?_
    · intro row; simp [Client.holds, all]
    · simpa only [Client.Tidy, all] using nodup
  | @released t man copied installs row held rc client =>
    obtain ⟨fresh, nodup⟩ := List.nodup_cons.mp (inv.tidy t _ client)
    refine latches_drop inv client (inv.latch_of_holds client (by simp [Client.holds])) ?_ nodup
    intro other
    simp only [Client.holds, List.mem_cons]
    constructor
    · intro member
      exact ⟨Or.inr member, fun same => fresh (same ▸ member)⟩
    · rintro ⟨rfl | member, apart⟩
      · exact absurd rfl apart
      · exact member
  | ended client =>
    exact inv.quiet client (fun _ => rfl) (fun _ => rfl) (fun _ => by simp [Client.holds]) trivial

theorem latches_reachable {start : State ρ α} (ready : Ready start)
    (reach : LabelledRun.Reachable Step start s) : Latches start.rows s :=
  reach.invariant _ (ready_latches ready) (fun _ _ _ inv taken => latches_step inv taken)

end Steps

end DataAgentDB.Occ
