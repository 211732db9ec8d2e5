import DataAgentDB.Lib.Refines
import DataAgentDB.Occ.Serializability
import DataAgentDB.Storage.Finish

/-! The interleaved protocol refines calls that run as a whole. A `finish` takes effect in one
step of its own, between its start and its return: the `get_ts` that follows its last latch, or
the check that fails. Whoever looks at a row in between finds it latched. -/

namespace DataAgentDB.Occ
open Storage LabelledRun

section Definitions
variable {ρ α : Type}

/-- A storage call with what it answers. -/
inductive Call (ρ α : Type) where
  | begin (startTs : Nat)
  | getRow (t : Nat) (row : ρ) (type : AccessT) (result : Option α)
  | setLocal (t : Nat) (row : ρ) (value : α)
  | finish (t : Nat) (rc answer : RC)
  deriving DecidableEq

end Definitions

variable {ρ α : Type} [DecidableEq ρ]

/-- The calls run one after another, `finish` being `txn_man::finish` of Storage/Finish. -/
inductive Atomic (s : State ρ α) : Call ρ α → State ρ α → Prop
  | begun : Atomic s (.begin s.timestamp)
      { s.setClient s.begun ⟨TxnMan.init s.timestamp, .running, [], []⟩ with
        timestamp := s.timestamp + 1, begun := s.begun + 1 }
  | got {t row type man man' copied installs result}
      (client : s.txns t = some ⟨man, .running, copied, installs⟩)
      (taken : man.getRow s.rows row type = some (result, man')) :
      Atomic s (.getRow t row type result)
        (s.setClient t ⟨man', .running, noteFirst copied row result, installs⟩)
  | changed {t row value man copied installs}
      (client : s.txns t = some ⟨man, .running, copied, installs⟩)
      (writable : (Client.mk man .running copied installs).writable (s.rows row).primaryKey = true) :
      Atomic s (.setLocal t row value) (s.setClient t
        ⟨man.setLocal (s.rows row).primaryKey (fun _ => value), .running, copied, installs⟩)
  | finished {t rc answer man man' copied installs rows timestamp}
      (client : s.txns t = some ⟨man, .running, copied, installs⟩)
      (taken : man.finish s.rows s.timestamp t rc = some (answer, rows, timestamp, man')) :
      Atomic s (.finish t rc answer) (State.setClient { s with rows := rows, timestamp := timestamp } t
        ⟨man', .ended answer, copied,
          if answer = .RCOK then writeSet (man.sortAccesses s.rows).accesses else installs⟩)

/-- The call that takes effect in a step. -/
def effect (s : State ρ α) : Action ρ α → List (Call ρ α)
  | .begin => [.begin s.timestamp]
  | .getRow t row type =>
    match s.txns t with
    | none => []
    | some client => ((client.man.getRow s.rows row type).map (fun got => Call.getRow t row type got.1)).toList
  | .setLocal t row value => [.setLocal t row value]
  | .finish _ .RCOK => []
  | .finish t rc => [.finish t rc rc]
  | .advance t =>
    match s.txns t with
    | some ⟨man, .latching, _, _⟩ =>
      match man.accesses[man.lockCnt]? with
      | none => [.finish t .RCOK .RCOK]
      | some acc => if (s.rows acc.origRow).validate man.startTs then [] else [.finish t .RCOK .Abort]
    | _ => []

/-- The calls of a run in the order they take effect, with their answers. -/
def effects (s : State ρ α) (actions : List (Action ρ α)) : List (Call ρ α) :=
  emitted step effect s actions

/-- What a transaction has still to do to the contents of a row that it holds. -/
def Client.lands (client : Client ρ α) (row : Row α) (here : ρ) : Row α :=
  match client.phase with
  | .writing todo => TxnMan.wroteBack todo (fun _ => row) client.man.endTs here
  | _ => row

/-- The row as everybody will see it: written back by the transaction that holds it, and released. -/
def State.settled (s : State ρ α) (here : ρ) : Row α :=
  match (s.rows here).manager.latch with
  | none => s.rows here
  | some t => (s.txns t).elim (s.rows here).release (fun client => client.lands (s.rows here).release here)

/-- The code `finish` will return, from the step it takes effect in. -/
def Client.answered (client : Client ρ α) : Option RC :=
  match client.phase with
  | .running | .latching => none
  | .writing _ => some .RCOK
  | .releasing _ rc | .ended rc => some rc

/-- Where a transaction stands, and where it stands when its calls are whole. The access table
is sorted by the keys of `rows`. -/
inductive Client.Stands (rows : ρ → Row α) : Client ρ α → Client ρ α → Prop
  | running {man copied installs} :
      Stands rows ⟨man, .running, copied, installs⟩ ⟨man, .running, copied, installs⟩
  | latching {man count copied installs} :
      Stands rows ⟨{ man.sortAccesses rows with lockCnt := count }, .latching, copied, installs⟩
        ⟨man, .running, copied, installs⟩
  | answered {client whole : Client ρ α} {rc : RC} (answered : client.answered = some rc)
      (ended : whole.phase = .ended rc) (same : client.summary = whole.summary) : Stands rows client whole

/-- The second state is the first with every call that took effect carried out. -/
structure Settles (start : ρ → Row α) (s whole : State ρ α) : Prop where
  rows : whole.rows = s.settled
  timestamp : whole.timestamp = s.timestamp
  begun : whole.begun = s.begun
  unknown : ∀ t, s.txns t = none → whole.txns t = none
  stands : ∀ t client, s.txns t = some client →
    ∃ other, whole.txns t = some other ∧ client.Stands start other

/-- A transaction without inserted rows whose rows are live and whose checks so far still hold, or
whose end is past. -/
def Client.Checked (rows : ρ → Row α) (timestamp : Nat) (client : Client ρ α) : Prop :=
  match client.phase with
  | .running => client.man.insertRows = [] ∧ ∀ acc ∈ client.man.accesses, (rows acc.origRow).live = true
  | .latching => (client.man.insertRows = [] ∧ ∀ acc ∈ client.man.accesses, (rows acc.origRow).live = true) ∧
      ∀ row ∈ client.holds, (rows row).manager.wts ≤ client.man.startTs
  | .writing _ => client.man.endTs < timestamp
  | _ => True

structure Checks (s : State ρ α) : Prop where
  past : ∀ row, (s.rows row).manager.wts < s.timestamp
  clients : ∀ t client, s.txns t = some client → client.Checked s.rows s.timestamp

section Steps
variable {start : ρ → Row α} {s next whole : State ρ α} {action : Action ρ α}

omit [DecidableEq ρ] in
theorem Client.Checked.mono {rows rows' : ρ → Row α} {timestamp timestamp' : Nat} {client : Client ρ α}
    (checked : client.Checked rows timestamp) (onward : timestamp ≤ timestamp')
    (live : ∀ row, (rows' row).live = (rows row).live)
    (held : ∀ row ∈ client.holds, (rows' row).manager.wts = (rows row).manager.wts) :
    client.Checked rows' timestamp' := by
  obtain ⟨man, phase, copied, installs⟩ := client
  cases phase with
  | running => exact ⟨checked.1, fun acc member => (live _).trans (checked.2 acc member)⟩
  | latching =>
    obtain ⟨⟨kept, alive⟩, current⟩ := checked
    exact ⟨⟨kept, fun acc member => (live _).trans (alive acc member)⟩,
      fun row member => (held row member).le.trans (current row member)⟩
  | writing todo => exact lt_of_lt_of_le checked onward
  | releasing => trivial
  | ended => trivial

omit [DecidableEq ρ] in
/-- One transaction moves on; a row whose version changes is one that no other transaction holds. -/
theorem Checks.move (checks : Checks s) {t : Nat} {client : Client ρ α} {rows' : ρ → Row α}
    {timestamp' begun' : Nat} (live : ∀ row, (rows' row).live = (s.rows row).live)
    (past : ∀ row, (rows' row).manager.wts < timestamp') (onward : s.timestamp ≤ timestamp')
    (others : ∀ u other, u ≠ t → s.txns u = some other → ∀ row ∈ other.holds,
      (rows' row).manager.wts = (s.rows row).manager.wts)
    (mine : client.Checked rows' timestamp') :
    Checks ⟨rows', timestamp', Function.update s.txns t (some client), begun'⟩ where
  past := past
  clients u other found := by
    rcases found_update found with ⟨rfl, rfl⟩ | ⟨apart, before⟩
    · exact mine
    · exact (checks.clients u other before).mono onward live (others u other apart before)

omit [DecidableEq ρ] in
theorem Checks.quiet (checks : Checks s) {t : Nat} {client : Client ρ α} {timestamp' begun' : Nat}
    (onward : s.timestamp ≤ timestamp') (mine : client.Checked s.rows timestamp') :
    Checks ⟨s.rows, timestamp', Function.update s.txns t (some client), begun'⟩ :=
  checks.move (fun _ => rfl) (fun row => lt_of_lt_of_le (checks.past row) onward) onward (fun _ _ _ _ _ _ => rfl) mine

/-- A row changes but for its version. -/
theorem Checks.same (checks : Checks s) {t : Nat} {client : Client ρ α} {row : ρ} {content : Row α}
    (live : content.live = (s.rows row).live) (wts : content.manager.wts = (s.rows row).manager.wts)
    (mine : client.Checked (Function.update s.rows row content) s.timestamp) :
    Checks ((s.setRow row content).setClient t client) := by
  have versions : ∀ other, (Function.update s.rows row content other).manager.wts = (s.rows other).manager.wts :=
    kept_setRow (fun row => row.manager.wts) wts
  refine checks.move (kept_setRow Row.live live) (fun other => ?_) le_rfl (fun _ _ _ _ other _ => versions other) mine
  exact (versions other).trans_lt (checks.past other)

omit [DecidableEq ρ] in
/-- The rows of the table are live after a `get_row` or a write to a copy when they were before. -/
theorem alive_rows {rows : ρ → Row α} {accesses accesses' : List (Access ρ α)}
    (alive : ∀ acc ∈ accesses, (rows acc.origRow).live = true)
    (same : accesses'.map Access.origRow = accesses.map Access.origRow) :
    ∀ acc ∈ accesses', (rows acc.origRow).live = true := by
  intro acc member
  have listed : acc.origRow ∈ accesses.map Access.origRow := same ▸ List.mem_map_of_mem member
  obtain ⟨before, member', here⟩ := List.mem_map.mp listed
  exact here ▸ alive before member'

theorem checks_getRow (checks : Checks s) {t : Nat} {row : ρ} {type : AccessT}
    (taken : Step s (.getRow t row type) next) : Checks next := by
  simp only [Step, step] at taken
  split at taken
  next man copied installs client =>
    obtain ⟨kept, alive⟩ := checks.clients _ _ client
    split at taken
    next => cases taken
    next result man' got =>
      cases taken
      obtain ⟨live, kind⟩ := TxnMan.getRow_cases got
      refine checks.quiet le_rfl ?_
      cases kind with
      | hit found entry =>
        exact ⟨(TxnMan.upgrade_insertRows _ _ _ _).trans kept, alive_rows alive (man.upgrade_rows entry type)⟩
      | abort => exact ⟨kept, alive⟩
      | copied =>
        refine ⟨kept, fun acc member => ?_⟩
        rcases List.mem_append.mp member with old | new
        · exact alive acc old
        · rw [List.mem_singleton.mp new]
          exact live
  next => cases taken

theorem checks_step (latches : Latches start s) (checks : Checks s) (taken : Step s action next) : Checks next := by
  cases step_cases taken with
  | begun => exact checks.quiet (Nat.le_succ _) ⟨rfl, fun _ member => by cases member⟩
  | reread | refused | copied => exact checks_getRow checks taken
  | @changed t row value man copied installs client =>
    obtain ⟨kept, alive⟩ := checks.clients _ _ client
    exact checks.quiet le_rfl ⟨(TxnMan.setLocal_insertRows _ _ _).trans kept, alive_rows alive (man.setLocal_rows _ _)⟩
  | @sorted t man copied installs client =>
    obtain ⟨kept, alive⟩ := checks.clients _ _ client
    refine checks.quiet le_rfl ⟨⟨kept, fun acc member => ?_⟩, fun _ member => by simp [Client.holds] at member⟩
    exact alive acc ((man.sortAccesses_perm s.rows).mem_iff.mp member)
  | dropped => exact checks.quiet le_rfl trivial
  | @latched t man copied installs acc client entry free current =>
    obtain ⟨⟨kept, alive⟩, checked⟩ := checks.clients _ _ client
    refine checks.same rfl rfl ⟨⟨kept, fun other member => ?_⟩, fun row member => ?_⟩
    · exact (kept_setRow Row.live (by rfl) _).trans (alive other member)
    · rw [kept_setRow (fun row => row.manager.wts) (by rfl)]
      simp only [Client.holds, List.take_add_one, entry, Option.toList_some, List.map_append, List.map_cons,
        List.map_nil, List.mem_append, List.mem_singleton] at member
      rcases member with before | rfl
      · exact checked row before
      · exact current
  | failed => exact checks.same rfl rfl trivial
  | drew => exact checks.quiet (Nat.le_succ _) (Nat.lt_succ_self _)
  | @wrote t man copied installs acc todo client written =>
    have ended : man.endTs < s.timestamp := checks.clients _ _ client
    have holds : acc.origRow ∈ (Client.mk man (.writing (acc :: todo)) copied installs).holds := by
      obtain ⟨-, -, front⟩ := latches.tidy t _ client
      exact List.mem_map_of_mem (front.subset (by simp))
    refine checks.move (kept_setRow Row.live (by rfl)) ?_ le_rfl ?_ ended
    · intro other
      dsimp only [State.setRow]
      by_cases here : other = acc.origRow
      · subst here
        rw [Function.update_self]
        exact ended
      · rw [Function.update_of_ne here]
        exact checks.past other
    · intro u other apart found row member
      have here : row ≠ acc.origRow := by
        rintro rfl
        have both := (latches.latch_of_holds found member).symm.trans (latches.latch_of_holds client holds)
        exact apart (Option.some.inj both)
      dsimp only [State.setRow]
      rw [Function.update_of_ne here]
  | skipped client =>
    have ended : _ < s.timestamp := checks.clients _ _ client
    exact checks.quiet le_rfl ended
  | returned => exact checks.quiet le_rfl trivial
  | released => exact checks.same rfl rfl trivial
  | ended => exact checks.quiet le_rfl trivial

theorem settled_free {here : ρ} (free : (s.rows here).manager.latch = none) : s.settled here = s.rows here := by
  unfold State.settled
  rw [free]

theorem settled_held {here : ρ} {t : Nat} {client : Client ρ α} (found : s.txns t = some client)
    (held : (s.rows here).manager.latch = some t) :
    s.settled here = client.lands (s.rows here).release here := by
  simp only [State.settled, held, found, Option.elim_some]

/-- A settled row differs from the row at most in its contents, its version and its latch. -/
theorem settled_kept (latches : Latches start s) (here : ρ) :
    (s.settled here).manager.latch = none ∧ (s.settled here).sortKey = (s.rows here).sortKey ∧
      (s.settled here).live = (s.rows here).live := by
  cases held : (s.rows here).manager.latch with
  | none =>
    rw [settled_free held]
    exact ⟨held, rfl, rfl⟩
  | some t =>
    have mine := (latches.owner here t).mp held
    unfold State.held at mine
    split at mine
    next => cases mine
    next client found =>
      rw [settled_held found held]
      unfold Client.lands
      split
      next todo =>
        unfold TxnMan.wroteBack
        split <;> exact ⟨rfl, rfl, rfl⟩
      next => exact ⟨rfl, rfl, rfl⟩

/-- One transaction moves, and every row it frees, holds or leaves latched settles as before. -/
theorem settled_move {t : Nat} {client : Client ρ α} {rows' : ρ → Row α} {timestamp' begun' : Nat}
    (free : ∀ here, (rows' here).manager.latch = none → rows' here = s.settled here)
    (mine : ∀ here, (rows' here).manager.latch = some t → client.lands (rows' here).release here = s.settled here)
    (others : ∀ here u, u ≠ t → (rows' here).manager.latch = some u → rows' here = s.rows here) :
    State.settled ⟨rows', timestamp', Function.update s.txns t (some client), begun'⟩ = s.settled := by
  funext here
  cases held : (rows' here).manager.latch with
  | none => exact (settled_free held).trans (free here held)
  | some u =>
    by_cases same : u = t
    · subst same
      exact (settled_held (Function.update_self _ _ _) held).trans (mine here held)
    · have kept := others here u same held
      have before : (s.rows here).manager.latch = some u := kept ▸ held
      simp only [State.settled, before, Function.update_of_ne same, kept]

/-- One transaction moves, and the rows stay. -/
theorem settled_quiet {t : Nat} {client : Client ρ α} {timestamp' begun' : Nat}
    (mine : ∀ here, (s.rows here).manager.latch = some t →
      client.lands (s.rows here).release here = s.settled here) :
    State.settled ⟨s.rows, timestamp', Function.update s.txns t (some client), begun'⟩ = s.settled :=
  settled_move (fun _ free => (settled_free free).symm) mine (fun _ _ _ _ => rfl)

/-- One transaction moves and does the same to the rows it holds. -/
theorem settled_alike {t : Nat} {old client : Client ρ α} {timestamp' begun' : Nat} (found : s.txns t = some old)
    (alike : ∀ row here, client.lands row here = old.lands row here) :
    State.settled ⟨s.rows, timestamp', Function.update s.txns t (some client), begun'⟩ = s.settled :=
  settled_quiet (fun here held => (alike _ here).trans (settled_held found held).symm)

/-- One transaction changes a row that is free or its own, and leaves it free or its own. -/
theorem settled_set {t : Nat} {old client : Client ρ α} {row : ρ} {content : Row α}
    (found : s.txns t = some old)
    (own : ∀ u, content.manager.latch = some u → u = t)
    (free : content.manager.latch = none → content = s.settled row)
    (held : content.manager.latch = some t → client.lands content.release row = s.settled row)
    (alike : ∀ here, here ≠ row → ∀ other, client.lands other here = old.lands other here) :
    ((s.setRow row content).setClient t client).settled = s.settled := by
  change State.settled ⟨Function.update s.rows row content, s.timestamp, Function.update s.txns t (some client), s.begun⟩ = _
  refine settled_move ?_ ?_ ?_
  · intro here unlatched
    by_cases same : here = row
    · subst same
      rw [Function.update_self] at unlatched ⊢
      exact free unlatched
    · rw [Function.update_of_ne same] at unlatched ⊢
      exact (settled_free unlatched).symm
  · intro here mine
    by_cases same : here = row
    · subst same
      rw [Function.update_self] at mine ⊢
      exact held mine
    · rw [Function.update_of_ne same] at mine ⊢
      exact (alike here same _).trans (settled_held found mine).symm
  · intro here u apart latched
    by_cases same : here = row
    · subst same
      rw [Function.update_self] at latched
      exact absurd (own u latched) apart
    · exact Function.update_of_ne same _ _

omit [DecidableEq ρ] in
theorem Client.Stands.of_running {man : TxnMan ρ α} {copied installs : List (ρ × α)} {other : Client ρ α}
    (stands : Client.Stands start ⟨man, .running, copied, installs⟩ other) :
    other = ⟨man, .running, copied, installs⟩ := by
  cases stands with
  | running => rfl
  | answered answered => cases answered

omit [DecidableEq ρ] in
theorem Client.Stands.of_latching {man : TxnMan ρ α} {copied installs : List (ρ × α)} {other : Client ρ α}
    (stands : Client.Stands start ⟨man, .latching, copied, installs⟩ other) :
    ∃ man' count, man = { TxnMan.sortAccesses man' start with lockCnt := count } ∧
      other = ⟨man', .running, copied, installs⟩ := by
  cases stands with
  | latching => exact ⟨_, _, rfl, rfl⟩
  | answered answered => cases answered

omit [DecidableEq ρ] in
/-- What is left of a `finish` that took effect changes nothing that the whole call knows of. -/
theorem Client.Stands.onward {client later other : Client ρ α} (stands : client.Stands start other) {rc : RC}
    (answered : client.answered = some rc) (kept : later.answered = some rc)
    (same : later.summary = client.summary) : later.Stands start other := by
  cases stands with
  | running => cases answered
  | latching => cases answered
  | answered answered' ended alike =>
    rw [answered'] at answered
    exact .answered (kept.trans answered.symm) ended (same.trans alike)

/-- Only where the transactions stand is not read off the first state. -/
theorem Settles.shape (settles : Settles start s whole) : whole = ⟨s.settled, s.timestamp, whole.txns, s.begun⟩ := by
  rw [← settles.rows, ← settles.timestamp, ← settles.begun]

/-- One transaction moves in both. -/
theorem Settles.both (settles : Settles start s whole) {t : Nat} {client other : Client ρ α}
    {rows' rows'' : ρ → Row α} {timestamp' begun' : Nat}
    (rows : rows'' = State.settled ⟨rows', timestamp', Function.update s.txns t (some client), begun'⟩)
    (stands : client.Stands start other) :
    Settles start ⟨rows', timestamp', Function.update s.txns t (some client), begun'⟩
      ⟨rows'', timestamp', Function.update whole.txns t (some other), begun'⟩ where
  rows := rows
  timestamp := rfl
  begun := rfl
  unknown u absent := by
    dsimp only at absent ⊢
    by_cases same : u = t
    · subst same
      rw [Function.update_self] at absent
      cases absent
    · rw [Function.update_of_ne same] at absent ⊢
      exact settles.unknown u absent
  stands u found present := by
    rcases found_update present with ⟨rfl, rfl⟩ | ⟨apart, before⟩
    · exact ⟨other, Function.update_self _ _ _, stands⟩
    · obtain ⟨mate, found', stands'⟩ := settles.stands u found before
      exact ⟨mate, (Function.update_of_ne apart _ _).trans found', stands'⟩

/-- A step that is a call. -/
theorem Settles.told (settles : Settles start s whole) {t : Nat} {client other : Client ρ α}
    {rows' rows'' : ρ → Row α} {timestamp' begun' : Nat} {call : Call ρ α}
    (told : Atomic ⟨s.settled, s.timestamp, whole.txns, s.begun⟩ call
      ⟨rows'', timestamp', Function.update whole.txns t (some other), begun'⟩)
    (rows : rows'' = State.settled ⟨rows', timestamp', Function.update s.txns t (some client), begun'⟩)
    (stands : client.Stands start other) :
    ∃ whole', Run Atomic Always whole [call] whole' ∧
      Settles start ⟨rows', timestamp', Function.update s.txns t (some client), begun'⟩ whole' :=
  ⟨_, settles.shape ▸ .one told, settles.both rows stands⟩

/-- One transaction takes a step that nobody can see. -/
theorem Settles.silent (settles : Settles start s whole) {t : Nat} {old client : Client ρ α} {rows' : ρ → Row α}
    (found : s.txns t = some old)
    (rows : State.settled ⟨rows', s.timestamp, Function.update s.txns t (some client), s.begun⟩ = s.settled)
    (stands : ∀ other, old.Stands start other → client.Stands start other) :
    Settles start ⟨rows', s.timestamp, Function.update s.txns t (some client), s.begun⟩ whole := by
  obtain ⟨other, found', old'⟩ := settles.stands t old found
  have same : Function.update whole.txns t (some other) = whole.txns := by
    rw [← found', Function.update_eq_self]
  have both := settles.both rows.symm (stands other old')
  rwa [same, ← settles.shape] at both

omit [DecidableEq ρ] in
/-- The rows still to be written back are rows of the table, none of them twice. -/
theorem todo_rows {rows : ρ → Row α} {man : TxnMan ρ α} {acc : Access ρ α} {todo : List (Access ρ α)}
    {copied installs : List (ρ × α)} (tidy : (Client.mk man (.writing (acc :: todo)) copied installs).Tidy rows) :
    acc.origRow ∈ man.accesses.map Access.origRow ∧ ∀ other ∈ todo, other.origRow ≠ acc.origRow := by
  obtain ⟨nodup, -, front⟩ := tidy
  have perm := ((List.reverse_perm (acc :: todo)).map Access.origRow).nodup_iff
  have once := perm.mp (nodup.sublist (front.sublist.map Access.origRow))
  obtain ⟨fresh, -⟩ := List.nodup_cons.mp once
  exact ⟨List.mem_map_of_mem (front.subset (by simp)),
    fun other member same => fresh (same ▸ List.mem_map_of_mem member)⟩

theorem settled_past (latches : Latches start s) (checks : Checks s) (here : ρ) :
    (s.settled here).manager.wts < s.timestamp := by
  have past : (s.rows here).release.manager.wts < s.timestamp := checks.past here
  cases held : (s.rows here).manager.latch with
  | none =>
    rw [settled_free held]
    exact past
  | some t =>
    have mine := (latches.owner here t).mp held
    unfold State.held at mine
    split at mine
    next => cases mine
    next client found =>
      have checked := checks.clients t client found
      obtain ⟨man, phase, copied, installs⟩ := client
      rw [settled_held found held]
      cases phase with
      | writing todo =>
        change (TxnMan.wroteBack todo _ _ here).manager.wts < _
        unfold TxnMan.wroteBack
        split
        next => exact past
        next => exact checked
      | running => exact past
      | latching => exact past
      | releasing => exact past
      | ended => exact past

section Latching
variable {t : Nat} {man : TxnMan ρ α} {count : Nat} {copied installs : List (ρ × α)}

/-- A transaction that latches may call `finish` as a whole. -/
theorem latching_ready (latches : Latches start s) (checks : Checks s)
    (client : s.txns t = some ⟨{ man.sortAccesses start with lockCnt := count }, .latching, copied, installs⟩) :
    (∀ acc ∈ man.accesses, (s.settled acc.origRow).manager.latch = none) ∧
      (∀ acc ∈ man.accesses, (s.settled acc.origRow).manager.wts < s.timestamp) ∧
      (man.accesses.map Access.origRow).Nodup ∧ man.insertRows = [] ∧
      ∀ acc ∈ man.accesses, (s.settled acc.origRow).live = true := by
  obtain ⟨sorted, -⟩ := latches.tidy t _ client
  obtain ⟨⟨kept, alive⟩, -⟩ := checks.clients t _ client
  have perm := man.sortAccesses_perm start
  refine ⟨fun acc _ => (settled_kept latches _).1, fun acc _ => settled_past latches checks _,
    (perm.map Access.origRow).nodup_iff.mp (nodup_of_increasing sorted), kept, fun acc member => ?_⟩
  exact (settled_kept latches _).2.2.trans (alive acc (perm.mem_iff.mpr member))

theorem settled_sorts (latches : Latches start s) (man : TxnMan ρ α) :
    man.sortAccesses s.settled = man.sortAccesses start :=
  man.sortAccesses_congr (fun row => (settled_kept latches row).2.1.trans (latches.keys row))

/-- A row that a latching transaction holds settles as it is. -/
theorem settled_latching {here : ρ}
    (client : s.txns t = some ⟨{ man.sortAccesses start with lockCnt := count }, .latching, copied, installs⟩)
    (held : (s.rows here).manager.latch = some t) : s.settled here = (s.rows here).release :=
  settled_held client held

/-- All latches taken: the whole call commits, and its rows are those that will be written back. -/
theorem latching_commits (latches : Latches start s) (checks : Checks s)
    (client : s.txns t = some ⟨{ man.sortAccesses start with lockCnt := count }, .latching, copied, installs⟩)
    (finished : (man.sortAccesses start).accesses[count]? = none) :
    ∃ man', man.finish s.settled s.timestamp t .RCOK =
        some (.RCOK, TxnMan.wroteBack man.accesses s.settled s.timestamp, s.timestamp + 1, man') ∧
      TxnMan.wroteBack man.accesses s.settled s.timestamp = State.settled ⟨s.rows, s.timestamp + 1,
        Function.update s.txns t (some ⟨{ { man.sortAccesses start with lockCnt := count } with endTs := s.timestamp },
          .writing (man.sortAccesses start).accesses.reverse, copied,
          writeSet (man.sortAccesses start).accesses⟩), s.begun⟩ := by
  obtain ⟨free, past, nodup, kept, live⟩ := latching_ready latches checks client
  obtain ⟨-, checked⟩ := checks.clients t _ client
  have perm := man.sortAccesses_perm start
  have all : (man.sortAccesses start).accesses.take count = (man.sortAccesses start).accesses :=
    List.take_of_length_le (List.getElem?_eq_none_iff.mp finished)
  have holds : ∀ acc ∈ man.accesses,
      acc.origRow ∈ (Client.mk { man.sortAccesses start with lockCnt := count } .latching copied installs).holds := by
    intro acc member
    have listed := List.mem_map_of_mem (f := Access.origRow) (perm.mem_iff.mpr member)
    simpa only [Client.holds, all] using listed
  have latched : ∀ acc ∈ man.accesses, (s.rows acc.origRow).manager.latch = some t :=
    fun acc member => latches.latch_of_holds client (holds acc member)
  have current : ∀ acc ∈ man.accesses, (s.settled acc.origRow).manager.wts ≤ man.startTs := by
    intro acc member
    rw [settled_latching client (latched acc member)]
    exact checked acc.origRow (holds acc member)
  obtain ⟨man', done⟩ := TxnMan.finish_commits t free past nodup live current
  refine ⟨man', done, ?_⟩
  funext here
  by_cases held : (s.rows here).manager.latch = some t
  · symm
    refine Eq.trans (settled_held (Function.update_self _ _ _) held) ?_
    change TxnMan.wroteBack (man.sortAccesses start).accesses.reverse (fun _ => (s.rows here).release) s.timestamp here = _
    rw [TxnMan.wroteBack_perm ((List.reverse_perm _).trans perm) nodup]
    unfold TxnMan.wroteBack
    rw [settled_latching client held]
  · have unlisted : ∀ acc ∈ man.accesses, acc.origRow = here → acc.type ≠ .WR := by
      rintro acc member rfl
      exact absurd (latched acc member) held
    rw [TxnMan.wroteBack_of_not_mem unlisted]
    unfold State.settled
    dsimp only
    cases latch : (s.rows here).manager.latch with
    | none => rfl
    | some u =>
      have apart : u ≠ t := fun same => held (same ▸ latch)
      simp only [Function.update_of_ne apart]

/-- A check fails: the whole call aborts, and leaves the rows as they are. -/
theorem latching_fails (latches : Latches start s) (checks : Checks s)
    (client : s.txns t = some ⟨{ man.sortAccesses start with lockCnt := count }, .latching, copied, installs⟩)
    {acc : Access ρ α} (entry : (man.sortAccesses start).accesses[count]? = some acc)
    (free : (s.rows acc.origRow).manager.latch = none) (newer : man.startTs < (s.rows acc.origRow).manager.wts) :
    ∃ man', man.finish s.settled s.timestamp t .RCOK = some (.Abort, s.settled, s.timestamp, man') := by
  obtain ⟨unlatched, past, nodup, kept, live⟩ := latching_ready latches checks client
  have member := (man.sortAccesses_perm start).mem_iff.mp (List.mem_of_getElem? entry)
  rw [← settled_free free] at newer
  exact TxnMan.finish_fails t unlatched past nodup kept live member newer

end Latching

theorem newer_of_failed {t : Nat} {man : TxnMan ρ α} {copied installs : List (ρ × α)} {acc : Access ρ α} {client : Client ρ α}
    {content : Row α} (found : s.txns t = some ⟨man, .latching, copied, installs⟩) (entry : man.accesses[man.lockCnt]? = some acc)
    (free : (s.rows acc.origRow).manager.latch = none) (left : client.phase ≠ .latching)
    (taken : Step s (.advance t) ((s.setRow acc.origRow content).setClient t client)) :
    man.startTs < (s.rows acc.origRow).manager.wts := by
  by_contra old
  have latched : (s.rows acc.origRow).latch t = some { s.rows acc.origRow with
      manager := { (s.rows acc.origRow).manager with latch := some t } } := Row.latch_eq_some.mpr ⟨free, rfl⟩
  have valid : Row.validate { s.rows acc.origRow with manager := { (s.rows acc.origRow).manager with latch := some t } }
      man.startTs = true := Row.validate_eq_true.mpr (Nat.le_of_not_lt old)
  simp only [Step, step, found, advance, entry, latched, valid, if_true, Option.some.injEq] at taken
  have same := congrArg (fun s : State ρ α => s.txns t) taken
  simp only [State.setClient, Function.update_self, Option.some.injEq] at same
  exact left (same ▸ rfl)

theorem settles_begin (latches : Latches start s) (settles : Settles start s whole) :
    ∃ whole', Run Atomic Always whole [.begin s.timestamp] whole' ∧
      Settles start { s.setClient s.begun ⟨TxnMan.init s.timestamp, .running, [], []⟩ with
        timestamp := s.timestamp + 1, begun := s.begun + 1 } whole' := by
  have unheld : ∀ here, (s.rows here).manager.latch ≠ some s.begun := by
    intro here held
    have mine := (latches.owner here _).mp held
    unfold State.held at mine
    split at mine
    next => cases mine
    next client found => exact absurd (latches.bounded _ client found) (lt_irrefl _)
  exact settles.told .begun (settled_quiet (fun here held => absurd held (unheld here))).symm .running

theorem settles_getRow (latches : Latches start s) (settles : Settles start s whole) {t : Nat} {row : ρ} {type : AccessT}
    (taken : Step s (.getRow t row type) next) :
    ∃ whole', Run Atomic Always whole (effect s (.getRow t row type)) whole' ∧ Settles start next whole' := by
  simp only [Step, step] at taken
  split at taken
  next man copied installs client =>
    split at taken
    next => cases taken
    next result man' got =>
      cases taken
      obtain ⟨other, found, stands⟩ := settles.stands t _ client
      obtain rfl := stands.of_running
      obtain ⟨-, keys, live⟩ := settled_kept latches row
      have key := ((sortKey_eq_iff _ _).mp keys).2
      have alone := TxnMan.getRow_congr key live (fun free => settled_free free) got
      simp only [effect, client, got, Option.map_some, Option.toList_some]
      refine settles.told (.got found alone) (Eq.symm (settled_alike client ?_)) .running
      exact fun _ _ => rfl
  next => cases taken

theorem settles_step (latches : Latches start s) (checks : Checks s) (settles : Settles start s whole)
    (taken : Step s action next) :
    ∃ whole', Run Atomic Always whole (effect s action) whole' ∧ Settles start next whole' := by
  cases action with
  | begin =>
    cases step_cases taken with
    | begun => exact settles_begin latches settles
  | getRow t row type => exact settles_getRow latches settles taken
  | setLocal t row value =>
    simp only [Step, step] at taken
    split at taken
    next man copied installs client =>
      split at taken
      next writable =>
        cases taken
        obtain ⟨other, found, stands⟩ := settles.stands t _ client
        obtain rfl := stands.of_running
        have key : (s.settled row).primaryKey = (s.rows row).primaryKey :=
          ((sortKey_eq_iff _ _).mp (settled_kept latches row).2.1).2
        rw [← key] at writable ⊢
        refine settles.told (.changed found writable) (Eq.symm (settled_alike client ?_)) .running
        exact fun _ _ => rfl
      next => cases taken
    next => cases taken
  | finish t rc =>
    cases step_cases taken with
    | @sorted _ man copied installs client =>
      refine ⟨whole, .nil, settles.silent client (settled_alike client ?_) ?_⟩
      · exact fun _ _ => rfl
      · intro other stands
        obtain rfl := stands.of_running
        rw [man.sortAccesses_congr latches.keys]
        exact .latching
    | @dropped _ man copied installs client =>
      obtain ⟨kept, -⟩ := checks.clients t _ client
      obtain ⟨other, found, stands⟩ := settles.stands t _ client
      obtain rfl := stands.of_running
      refine settles.told (.finished found (TxnMan.finish_aborts s.settled s.timestamp t kept))
        (Eq.symm (settled_alike client ?_)) (.answered rfl rfl rfl)
      exact fun _ _ => rfl
  | advance t =>
    cases step_cases taken with
    | @latched _ man copied installs acc client entry free current =>
      have quiet : effect s (.advance t) = [] := by
        simp only [effect, client, entry, Row.validate_eq_true.mpr current, if_true]
      rw [quiet]
      refine ⟨whole, .nil, settles.silent client (settled_set client ?_ ?_ ?_ ?_) ?_⟩
      · exact fun u latch => (Option.some.inj latch).symm
      · exact fun unlatched => by cases unlatched
      · intro _
        rw [settled_free free]
        exact TxnMan.release_latched _ free t
      · exact fun _ _ _ => rfl
      · intro other stands
        obtain ⟨man', count, rfl, rfl⟩ := stands.of_latching
        exact @Client.Stands.latching ρ α start man' (count + 1) copied installs
    | @failed _ man copied installs acc client entry free =>
      have newer := newer_of_failed client entry free (by simp) taken
      have fails : effect s (.advance t) = [.finish t .RCOK .Abort] := by
        have invalid : (s.rows acc.origRow).validate man.startTs = false :=
          Bool.eq_false_iff.mpr (fun valid => absurd newer (Nat.not_lt.mpr (Row.validate_eq_true.mp valid)))
        simp only [effect, client, entry, invalid, Bool.false_eq_true, if_false]
      obtain ⟨other, found, stands⟩ := settles.stands t _ client
      obtain ⟨man', count, rfl, rfl⟩ := stands.of_latching
      obtain ⟨txn', done⟩ := latching_fails latches checks client entry free newer
      obtain ⟨starts, ends⟩ := TxnMan.finish_stamps done
      rw [fails]
      refine settles.told (.finished found done) (Eq.symm (settled_set client ?_ ?_ ?_ ?_)) ?_
      · exact fun u latch => (Option.some.inj latch).symm
      · exact fun unlatched => by cases unlatched
      · intro _
        rw [settled_free free]
        exact TxnMan.release_latched _ free t
      · exact fun _ _ _ => rfl
      · refine .answered rfl rfl ?_
        simp only [Client.summary, starts, ends rfl]
        rfl
    | @drew _ man copied installs client finished =>
      have commits : effect s (.advance t) = [.finish t .RCOK .RCOK] := by
        simp only [effect, client, finished]
      obtain ⟨other, found, stands⟩ := settles.stands t _ client
      obtain ⟨man', count, rfl, rfl⟩ := stands.of_latching
      obtain ⟨txn', done, rows⟩ := latching_commits latches checks client finished
      obtain ⟨starts, -⟩ := TxnMan.finish_stamps done
      obtain ⟨ends, -⟩ := TxnMan.finish_endTs done (by decide)
      rw [commits]
      refine settles.told (.finished found done) rows (.answered rfl rfl ?_)
      simp only [Client.summary, starts, ends, if_true, settled_sorts latches]
      rfl
    | @wrote _ man copied installs acc todo client written =>
      have quiet : effect s (.advance t) = [] := by simp only [effect, client]
      obtain ⟨listed, others⟩ := todo_rows (latches.tidy t _ client)
      have mine := latches.latch_of_holds client listed
      rw [quiet]
      refine ⟨whole, .nil, settles.silent client (settled_set client ?_ ?_ ?_ ?_) ?_⟩
      · exact fun u latch => (Option.some.inj (mine.symm.trans latch)).symm
      · exact fun unlatched => by cases mine.symm.trans unlatched
      · intro _
        have once : ∀ other ∈ todo, other.origRow = acc.origRow → other.type ≠ .WR :=
          fun other member same => absurd same (others other member)
        rw [settled_held client mine]
        simp only [Client.lands, TxnMan.wroteBack_of_not_mem once, TxnMan.wroteBack_head written]
        rfl
      · intro here apart row
        simp only [Client.lands, TxnMan.wroteBack_cons (.inl apart.symm)]
      · exact fun other stands => stands.onward rfl rfl rfl
    | @skipped _ man copied installs acc todo client read =>
      have quiet : effect s (.advance t) = [] := by simp only [effect, client]
      rw [quiet]
      refine ⟨whole, .nil, settles.silent client (settled_alike client ?_) ?_⟩
      · exact fun row here => by simp only [Client.lands, TxnMan.wroteBack_cons (.inr read)]
      · exact fun other stands => stands.onward rfl rfl rfl
    | @returned _ man copied installs client =>
      have quiet : effect s (.advance t) = [] := by simp only [effect, client]
      rw [quiet]
      refine ⟨whole, .nil, settles.silent client (settled_alike client ?_) ?_⟩
      · exact fun _ _ => rfl
      · exact fun other stands => stands.onward rfl rfl rfl
    | @released _ man copied installs row held rc client =>
      have quiet : effect s (.advance t) = [] := by simp only [effect, client]
      have mine : (s.rows row).manager.latch = some t := latches.latch_of_holds client (by simp [Client.holds])
      rw [quiet]
      refine ⟨whole, .nil, settles.silent client (settled_set client ?_ ?_ ?_ ?_) ?_⟩
      · exact fun u latch => by cases latch
      · exact fun _ => (settled_held client mine).symm
      · exact fun latch => by cases latch
      · exact fun _ _ _ => rfl
      · exact fun other stands => stands.onward rfl rfl rfl
    | @ended _ man copied installs rc client =>
      have quiet : effect s (.advance t) = [] := by simp only [effect, client]
      rw [quiet]
      refine ⟨whole, .nil, settles.silent client (settled_alike client ?_) ?_⟩
      · exact fun _ _ => rfl
      · exact fun other stands => stands.onward rfl rfl rfl

end Steps

omit [DecidableEq ρ] in
/-- No transaction yet, no row latched, and no row from the future. -/
structure Idle (first : State ρ α) : Prop where
  txns : ∀ t, first.txns t = none
  unlatched : ∀ row, (first.rows row).manager.latch = none
  past : ∀ row, (first.rows row).manager.wts < first.timestamp

variable {first s : State ρ α} {actions : List (Action ρ α)}

/-- What a step keeps of the state and of the whole calls next to it. -/
structure Explained (start : ρ → Row α) (s whole : State ρ α) : Prop where
  latches : Latches start s
  checks : Checks s
  settles : Settles start s whole

theorem Idle.explained (idle : Idle first) : Explained first.rows first first := by
  have nobody : ∀ {t : Nat} {client : Client ρ α}, first.txns t ≠ some client := by
    intro t client found
    rw [idle.txns t] at found
    cases found
  refine ⟨ready_latches ⟨idle.unlatched, ?_, ?_, ?_, ?_⟩, ⟨idle.past, ?_⟩, ⟨?_, rfl, rfl, fun _ absent => absent, ?_⟩⟩
  case refine_6 => exact funext (fun row => (settled_free (idle.unlatched row)).symm)
  all_goals exact fun _ _ found => absurd found nobody

theorem explained_step {start : ρ → Row α} {s next whole : State ρ α} {action : Action ρ α}
    (explained : Explained start s whole) (taken : Step s action next) :
    ∃ whole', Run Atomic Always whole (effect s action) whole' ∧ Explained start next whole' := by
  obtain ⟨latches, checks, settles⟩ := explained
  obtain ⟨whole', told, settles'⟩ := settles_step latches checks settles taken
  exact ⟨whole', told, latches_step latches taken, checks_step latches checks taken, settles'⟩

/-- The code that a `finish` returns is that of the call that took effect. -/
theorem answered_step {s next : State ρ α} {action : Action ρ α} (taken : Step s action next) {t : Nat}
    {client : Client ρ α} {rc : RC} (found : next.txns t = some client) (answered : client.answered = some rc) :
    (∃ before, s.txns t = some before ∧ before.answered = some rc) ∨
      ∃ asked, Call.finish t asked rc ∈ effect s action := by
  cases step_cases taken with
  | begun | reread | refused | copied | changed | sorted | latched =>
    rcases found_update found with ⟨rfl, rfl⟩ | ⟨-, before⟩
    · cases answered
    · exact .inl ⟨client, before, answered⟩
  | dropped =>
    rcases found_update found with ⟨rfl, rfl⟩ | ⟨-, before⟩
    · cases answered
      exact .inr ⟨.Abort, List.mem_singleton_self _⟩
    · exact .inl ⟨client, before, answered⟩
  | failed running entry free =>
    rcases found_update found with ⟨rfl, rfl⟩ | ⟨-, before⟩
    · cases answered
      have newer := newer_of_failed running entry free (by simp) taken
      have invalid := Bool.eq_false_iff.mpr (fun valid => absurd newer (Nat.not_lt.mpr (Row.validate_eq_true.mp valid)))
      refine .inr ⟨.RCOK, ?_⟩
      simp only [effect, running, entry, invalid, Bool.false_eq_true, if_false, List.mem_singleton_self]
    · exact .inl ⟨client, before, answered⟩
  | drew running finished =>
    rcases found_update found with ⟨rfl, rfl⟩ | ⟨-, before⟩
    · cases answered
      refine .inr ⟨.RCOK, ?_⟩
      simp only [effect, running, finished, List.mem_singleton_self]
    · exact .inl ⟨client, before, answered⟩
  | wrote running | skipped running | returned running | released running | ended running =>
    rcases found_update found with ⟨rfl, rfl⟩ | ⟨-, before⟩
    · exact .inl ⟨_, running, answered⟩
    · exact .inl ⟨client, before, answered⟩

/-- A transaction that is not in its `finish` stands where it stands when its calls are whole. -/
theorem Explained.running {start : ρ → Row α} {s whole : State ρ α} (explained : Explained start s whole) {t : Nat}
    {man : TxnMan ρ α} {copied installs : List (ρ × α)} (client : s.txns t = some ⟨man, .running, copied, installs⟩) :
    whole.txns t = some ⟨man, .running, copied, installs⟩ := by
  obtain ⟨other, found, stands⟩ := explained.settles.stands t _ client
  exact stands.of_running ▸ found

theorem Atomic.of_begin {s next : State ρ α} {startTs : Nat} (told : Atomic s (.begin startTs) next) :
    next = { s.setClient s.begun ⟨TxnMan.init s.timestamp, .running, [], []⟩ with
      timestamp := s.timestamp + 1, begun := s.begun + 1 } := by
  cases told with
  | begun => rfl

/-- A `get_row` is a whole call, with the same copy. -/
theorem Explained.getRow {start : ρ → Row α} {s whole : State ρ α} (explained : Explained start s whole) {t : Nat}
    {man man' : TxnMan ρ α} {copied installs : List (ρ × α)} {row : ρ} {type : AccessT} {result : Option α}
    (client : s.txns t = some ⟨man, .running, copied, installs⟩)
    (taken : man.getRow s.rows row type = some (result, man')) :
    man.getRow whole.rows row type = some (result, man') ∧
      Explained start (s.setClient t ⟨man', .running, noteFirst copied row result, installs⟩)
        (whole.setClient t ⟨man', .running, noteFirst copied row result, installs⟩) := by
  have stepped : Step s (.getRow t row type)
      (s.setClient t ⟨man', .running, noteFirst copied row result, installs⟩) := by
    simp only [Step, step, client, taken]
  obtain ⟨whole', told, explained'⟩ := explained_step explained stepped
  simp only [effect, client, taken, Option.map_some, Option.toList_some] at told
  cases told.single with
  | @got _ _ _ man₁ man₁' _ _ _ there alone =>
    rw [explained.running client] at there
    cases there
    have onward := explained'.running (Function.update_self _ _ _)
    simp only [State.setClient, Function.update_self, Option.some.injEq, Client.mk.injEq] at onward
    obtain ⟨rfl, -⟩ := onward
    exact ⟨alone, explained'⟩

/-- A write to a local copy is seen by nobody else, whatever it writes. -/
theorem Explained.setLocal {start : ρ → Row α} {s whole : State ρ α} (explained : Explained start s whole) {t : Nat}
    {man : TxnMan ρ α} {copied installs : List (ρ × α)} (client : s.txns t = some ⟨man, .running, copied, installs⟩)
    (rid : Nat) (value : α → α) :
    Explained start (s.setClient t ⟨man.setLocal rid value, .running, copied, installs⟩)
      (whole.setClient t ⟨man.setLocal rid value, .running, copied, installs⟩) := by
  obtain ⟨latches, checks, settles⟩ := explained
  obtain ⟨covered, distinct⟩ := latches.tidy t _ client
  obtain ⟨kept, alive⟩ := checks.clients t _ client
  have same := man.setLocal_rows rid value
  refine ⟨latches.quiet client (fun _ => rfl) (fun _ => rfl) (fun _ => Iff.rfl) ⟨?_, ?_⟩, ?_, ?_⟩
  · exact covered_of_same_rows covered same (by simp)
  · simpa only [Distinct, same] using distinct
  · exact checks.quiet le_rfl ⟨(TxnMan.setLocal_insertRows _ _ _).trans kept, alive_rows alive same⟩
  · rw [settles.shape]
    refine settles.both (Eq.symm (settled_alike client ?_)) .running
    exact fun _ _ => rfl

/-- Every interleaving is explained by calls that run as a whole, in the order they take effect:
with the same answers and the same rows, but for those still to be written back by who holds them. -/
theorem finish_atomic (idle : Idle first) (run : Run Step Always first actions s) :
    ∃ whole, Run Atomic Always first (effects first actions) whole ∧ Settles first.rows s whole ∧
      ∀ row, (s.rows row).manager.latch = none → whole.rows row = s.rows row := by
  obtain ⟨whole, told, explained⟩ :=
    Run.emits step effect (fun _ _ _ _ _ _ explained taken => explained_step explained taken) idle.explained run
  refine ⟨whole, told, explained.settles, fun row free => ?_⟩
  rw [explained.settles.rows, settled_free free]

/-- Two transactions inside `finish` at once: the second to start comes first, and the other's row
is not written yet. -/
theorem finish_atomic_crossed :
    ∃ (actions : List (Action Nat Nat)) (s whole : State Nat Nat),
      effects (initial plainRows) actions =
        [.begin 1, .begin 2, .getRow 0 4 .WR (some 0), .getRow 1 5 .WR (some 0), .setLocal 0 4 8, .setLocal 1 5 9,
          .finish 1 .RCOK .RCOK, .finish 0 .RCOK .RCOK] ∧
      Run Atomic Always (initial plainRows) (effects (initial plainRows) actions) whole ∧
      whole.rows 5 = s.rows 5 ∧ (s.rows 5).data = 9 ∧ (s.rows 4).data = 0 := by
  let actions : List (Action Nat Nat) :=
    [.begin, .begin, .getRow 0 4 .WR, .getRow 1 5 .WR, .setLocal 0 4 8, .setLocal 1 5 9, .finish 0 .RCOK,
      .finish 1 .RCOK, .advance 0, .advance 1, .advance 1, .advance 0, .advance 1, .advance 1, .advance 1]
  have played : (play step (initial plainRows) actions).map (fun s =>
      ((s.rows 5).manager.latch, (s.rows 5).data, (s.rows 4).data)) = some (none, 9, 0) := by decide +kernel
  obtain ⟨s, ran, rows⟩ := Option.map_eq_some_iff.mp played
  simp only [Prod.mk.injEq] at rows
  obtain ⟨free, written, unwritten⟩ := rows
  have idle : Idle (initial plainRows) := ⟨fun _ => rfl, fun _ => rfl, fun _ => Nat.one_pos⟩
  obtain ⟨whole, told, -, same⟩ := finish_atomic idle (run_of_play ran)
  exact ⟨actions, s, whole, by decide +kernel, told, same 5 free, written, unwritten⟩

end DataAgentDB.Occ
