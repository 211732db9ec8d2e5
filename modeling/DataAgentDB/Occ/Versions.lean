import DataAgentDB.Occ.Serializability

/-! Row versions only move forward. The writes of a run are listed with the transaction
that executed each; a row's version is the end timestamp of its last writer, and
every end timestamp still to be written is newer than the version it replaces. -/

namespace DataAgentDB.Occ
open Storage LabelledRun

section Definitions
variable {ρ α : Type}

/-- The transaction and the row of the `Row_occ::write` that a step executes, if it is one. -/
def writing (s : State ρ α) : Action ρ α → Option (Nat × ρ)
  | .advance t =>
    match s.txns t with
    | some ⟨_, .writing (acc :: _), _, _⟩ => if acc.type = .WR then some (t, acc.origRow) else none
    | _ => none
  | _ => none

/-- The transaction that wrote the row last. -/
def lastWriter [DecidableEq ρ] (writes : List (Nat × ρ)) (row : ρ) : Option Nat :=
  (writes.reverse.find? (fun write => write.2 = row)).map Prod.fst

/-- A version is 0 before the first write, then the end timestamp its writer drew. -/
def State.Version (s : State ρ α) (wts : Nat) : Option Nat → Prop
  | none => wts = 0
  | some t => ∃ client, s.txns t = some client ∧ client.drew = true ∧ wts = client.man.endTs

/-- The transaction is on its way out of `finish` with `Abort`, or out of it. -/
def Client.aborts (client : Client ρ α) : Bool :=
  match client.phase with
  | .releasing _ rc | .ended rc => rc = .Abort
  | _ => false

/-- A `get_row` call of the transaction requested the row, or one of the same key, with `WR`. -/
def Asked (rows : ρ → Row α) (trace : List (Action ρ α)) (t : Nat) (row : ρ) : Prop :=
  ∃ other, (rows other).primaryKey = (rows row).primaryKey ∧ Action.getRow t other .WR ∈ trace

/-- The map leads each key to its entry, and every `WR` entry was requested so. -/
def Client.Backed (rows : ρ → Row α) (asked : ρ → Prop) (client : Client ρ α) : Prop :=
  (client.phase = .running → ∀ rid pos, client.man.recordPos rid = some pos →
    ∃ acc, client.man.accesses[pos]? = some acc ∧ (rows acc.origRow).primaryKey = rid) ∧
  ∀ acc ∈ client.man.accesses, acc.type = .WR → asked acc.origRow

theorem not_aborts_of_drew {client : Client ρ α} (drew : client.drew = true) : client.aborts = false := by
  obtain ⟨man, phase, copied, installs⟩ := client
  cases phase <;> simp_all [Client.drew, Client.aborts]

theorem drew_of_pending {client : Client ρ α} {row : ρ} (pending : row ∈ client.pending) :
    client.drew = true := by
  obtain ⟨man, phase, copied, installs⟩ := client
  cases phase <;> simp_all [Client.drew, Client.pending]

structure Versions [DecidableEq ρ] (s : State ρ α) (writes : List (Nat × ρ)) : Prop where
  version : ∀ row, s.Version (s.rows row).manager.wts (lastWriter writes row)
  positive : 0 < s.timestamp
  drawn : ∀ t client, s.txns t = some client → client.drew = true → client.man.endTs < s.timestamp
  pending : ∀ t client, s.txns t = some client → ∀ row ∈ client.pending,
    (s.rows row).manager.wts < client.man.endTs
  writers : ∀ t row, (t, row) ∈ writes → ∃ client, s.txns t = some client ∧ client.drew = true

end Definitions

variable {ρ α : Type} [DecidableEq ρ] {rows : ρ → Row α} {s next : State ρ α} {action : Action ρ α}
  {writes : List (Nat × ρ)} {trace : List (Action ρ α)}

/-- The `Row_occ::write` steps of a run in their order. -/
def writeSteps (s : State ρ α) : List (Action ρ α) → List (Nat × ρ)
  | [] => []
  | action :: rest =>
    match step s action with
    | none => []
    | some next => (writing s action).toList ++ writeSteps next rest

theorem writeSteps_append {middle : State ρ α} (played : play step s trace = some middle)
    (later : List (Action ρ α)) :
    writeSteps s (trace ++ later) = writeSteps s trace ++ writeSteps middle later := by
  induction trace generalizing s with
  | nil => cases played; rfl
  | cons action rest ih =>
    obtain ⟨after, taken, played⟩ := Option.bind_eq_some_iff.mp played
    simp only [List.cons_append, writeSteps, taken, ih played, List.append_assoc]

theorem writeSteps_snoc {start : State ρ α} (run : Run Step Always start trace s)
    (taken : Step s action next) :
    writeSteps start (trace ++ [action]) = writeSteps start trace ++ (writing s action).toList := by
  rw [writeSteps_append (play_of_run run)]
  simp only [Step] at taken
  simp [writeSteps, taken]

theorem lastWriter_snoc (t : Nat) (row other : ρ) :
    lastWriter (writes ++ [(t, row)]) other = if row = other then some t else lastWriter writes other := by
  unfold lastWriter
  rw [List.reverse_append, List.reverse_singleton, List.singleton_append, List.find?_cons]
  by_cases same : row = other <;> simp [same]

omit [DecidableEq ρ] in
/-- The end timestamps once drawn stay with their transactions. -/
theorem State.Version.mono {wts : Nat} {writer : Option Nat} (held : s.Version wts writer)
    (kept : ∀ t client, s.txns t = some client → client.drew = true → ∃ client',
      next.txns t = some client' ∧ client'.drew = true ∧ client'.man.endTs = client.man.endTs) :
    next.Version wts writer := by
  cases writer with
  | none => exact held
  | some t =>
    obtain ⟨client, found, drew, rfl⟩ := held
    obtain ⟨client', found', drew', same⟩ := kept t client found drew
    exact ⟨client', found', drew', same.symm⟩

omit [DecidableEq ρ] in
theorem State.Version.lt {wts : Nat} {writer : Option Nat} (held : s.Version wts writer)
    (positive : 0 < s.timestamp) (drawn : ∀ t client, s.txns t = some client → client.drew = true →
      client.man.endTs < s.timestamp) : wts < s.timestamp := by
  cases writer with
  | none => exact held ▸ positive
  | some t =>
    obtain ⟨client, found, drew, rfl⟩ := held
    exact drawn t client found drew

namespace Versions

theorem past (inv : Versions s writes) (row : ρ) : (s.rows row).manager.wts < s.timestamp :=
  (inv.version row).lt inv.positive inv.drawn

/-- One transaction moves on, and writes the rows in `fresh` or none. -/
theorem move (inv : Versions s writes) {t : Nat} {client : Client ρ α} {rows' : ρ → Row α}
    {timestamp' begun' : Nat} {fresh : List (Nat × ρ)} (later : s.timestamp ≤ timestamp')
    (kept : ∀ old, s.txns t = some old → old.drew = true →
      client.drew = true ∧ client.man.endTs = old.man.endTs)
    (drawn : client.drew = true → client.man.endTs < timestamp')
    (mine : ∀ row ∈ client.pending, (rows' row).manager.wts < client.man.endTs)
    (others : ∀ u other, u ≠ t → s.txns u = some other → ∀ row ∈ other.pending,
      (rows' row).manager.wts = (s.rows row).manager.wts)
    (version : ∀ row, (State.mk rows' timestamp' (Function.update s.txns t (some client)) begun').Version
      (rows' row).manager.wts (lastWriter (writes ++ fresh) row))
    (writer : ∀ u row, (u, row) ∈ fresh → u = t ∧ client.drew = true) :
    Versions ⟨rows', timestamp', Function.update s.txns t (some client), begun'⟩ (writes ++ fresh) where
  version := version
  positive := lt_of_lt_of_le inv.positive later
  drawn u other found drew := by
    rcases found_update found with ⟨rfl, rfl⟩ | ⟨_, before⟩
    · exact drawn drew
    · exact lt_of_lt_of_le (inv.drawn u other before drew) later
  pending u other found row waits := by
    rcases found_update found with ⟨rfl, rfl⟩ | ⟨apart, before⟩
    · exact mine row waits
    · calc (rows' row).manager.wts
          _ = (s.rows row).manager.wts := others u other apart before row waits
          _ < other.man.endTs := inv.pending u other before row waits
  writers u row listed := by
    rcases List.mem_append.mp listed with old | new
    · obtain ⟨other, before, drew⟩ := inv.writers u row old
      by_cases same : u = t
      · subst same
        exact ⟨client, Function.update_self .., (kept other before drew).1⟩
      · exact ⟨other, (Function.update_of_ne same ..).trans before, drew⟩
    · obtain ⟨rfl, drew⟩ := writer u row new
      exact ⟨client, Function.update_self .., drew⟩

omit [DecidableEq ρ] in
theorem kept_update {t : Nat} {client : Client ρ α} {rows' : ρ → Row α} {timestamp' begun' : Nat}
    (kept : ∀ old, s.txns t = some old → old.drew = true →
      client.drew = true ∧ client.man.endTs = old.man.endTs) (u : Nat) (other : Client ρ α)
    (found : s.txns u = some other) (drew : other.drew = true) :
    ∃ client', (State.mk rows' timestamp' (Function.update s.txns t (some client)) begun').txns u =
      some client' ∧ client'.drew = true ∧ client'.man.endTs = other.man.endTs := by
  by_cases same : u = t
  · subst same
    exact ⟨client, Function.update_self .., kept other found drew⟩
  · exact ⟨other, by simpa [Function.update_of_ne same] using found, drew, rfl⟩

/-- A step of one transaction that changes no version. -/
theorem quiet (inv : Versions s writes) {t : Nat} {client : Client ρ α} {rows' : ρ → Row α}
    {timestamp' begun' : Nat} (later : s.timestamp ≤ timestamp')
    (same : ∀ row, (rows' row).manager.wts = (s.rows row).manager.wts)
    (kept : ∀ old, s.txns t = some old → old.drew = true →
      client.drew = true ∧ client.man.endTs = old.man.endTs)
    (drawn : client.drew = true → client.man.endTs < timestamp')
    (mine : ∀ row ∈ client.pending, (s.rows row).manager.wts < client.man.endTs) :
    Versions ⟨rows', timestamp', Function.update s.txns t (some client), begun'⟩ writes := by
  rw [← List.append_nil writes]
  refine inv.move later kept drawn (fun row waits => same row ▸ mine row waits) (fun _ _ _ _ row _ => same row)
    ?_ (fun _ _ listed => nomatch listed)
  intro row
  rw [same row, List.append_nil]
  exact (inv.version row).mono (kept_update kept)

end Versions

/-- Running or latching, a transaction owes nothing to the record of versions. -/
private theorem versions_undrawn (inv : Versions s writes) {t : Nat} {old client : Client ρ α}
    {rows' : ρ → Row α} (found : s.txns t = some old) (before : old.drew = false)
    (after : client.drew = false)
    (same : ∀ row, (rows' row).manager.wts = (s.rows row).manager.wts) :
    Versions ⟨rows', s.timestamp, Function.update s.txns t (some client), s.begun⟩ writes := by
  refine inv.quiet le_rfl same ?_ ?_ ?_
  · intro other present drew
    cases found.symm.trans present
    exact absurd (before.symm.trans drew) (by simp)
  · intro drew
    exact absurd (after.symm.trans drew) (by simp)
  · intro row waits
    exact absurd (after.symm.trans (drew_of_pending waits)) (by simp)

/-- Past its end timestamp, a transaction that writes nothing in this step keeps it. -/
private theorem versions_drawn (inv : Versions s writes) {t : Nat} {old client : Client ρ α}
    {rows' : ρ → Row α} (found : s.txns t = some old) (drew : client.drew = old.drew)
    (endTs : client.man.endTs = old.man.endTs) (pending : ∀ row ∈ client.pending, row ∈ old.pending)
    (same : ∀ row, (rows' row).manager.wts = (s.rows row).manager.wts) :
    Versions ⟨rows', s.timestamp, Function.update s.txns t (some client), s.begun⟩ writes := by
  refine inv.quiet le_rfl same ?_ ?_ ?_
  · intro other present drawn
    cases found.symm.trans present
    exact ⟨drew.trans drawn, endTs⟩
  · intro drawn
    exact endTs ▸ inv.drawn t old found (drew ▸ drawn)
  · intro row waits
    exact endTs ▸ inv.pending t old found row (pending row waits)

/-- A write back: the row's version becomes the writer's end timestamp. -/
private theorem versions_wrote (latches : Latches rows s) (inv : Versions s writes) {t : Nat}
    {man : TxnMan ρ α} {copied installs : List (ρ × α)} {acc : Access ρ α} {todo : List (Access ρ α)}
    (found : s.txns t = some ⟨man, .writing (acc :: todo), copied, installs⟩) (written : acc.type = .WR) :
    Versions ((s.setRow acc.origRow ((s.rows acc.origRow).write acc.data man.endTs)).setClient t
      ⟨man, .writing todo, copied, installs⟩) (writes ++ [(t, acc.origRow)]) := by
  have kept : ∀ old, s.txns t = some old → old.drew = true →
      (Client.mk man (.writing todo) copied installs).drew = true ∧ man.endTs = old.man.endTs := by
    intro old present _
    cases found.symm.trans present
    exact ⟨rfl, rfl⟩
  have here : acc.origRow ∈ (Client.mk man (.writing (acc :: todo)) copied installs).pending := by
    simp [Client.pending, written]
  have drawn := inv.drawn t _ found rfl
  refine inv.move le_rfl kept (fun _ => drawn) ?_ ?_ ?_ ?_
  · intro row waits
    -- the rows still to write back differ from the one written now
    obtain ⟨nodup, _, front⟩ := latches.tidy t _ found
    have apart : row ≠ acc.origRow := by
      rintro rfl
      have whole : ((acc :: todo).reverse.map Access.origRow).Nodup :=
        nodup.sublist (front.sublist.map _)
      rw [List.map_reverse, List.nodup_reverse, List.map_cons, List.nodup_cons] at whole
      obtain ⟨other, member, same⟩ := List.mem_map.mp waits
      exact whole.1 (same ▸ List.mem_map_of_mem (List.mem_of_mem_filter member))
    simp only [State.setRow, Function.update_of_ne apart]
    refine inv.pending t _ found row ?_
    simpa [Client.pending, written] using Or.inr (by simpa [Client.pending] using waits)
  · intro u other apart present row waits
    have different : row ≠ acc.origRow := by
      rintro rfl
      have mine := pending_latch latches found here
      have theirs := pending_latch latches present waits
      exact apart (Option.some.inj (theirs.symm.trans mine))
    simp only [State.setRow, Function.update_of_ne different]
  · intro row
    rw [lastWriter_snoc]
    by_cases same : acc.origRow = row
    · subst same
      simp only [State.setRow, Function.update_self, ↓reduceIte]
      exact ⟨_, Function.update_self .., rfl, rfl⟩
    · simp only [State.setRow, Function.update_of_ne (Ne.symm same), if_neg same]
      exact (inv.version row).mono (Versions.kept_update kept)
  · intro u row member
    cases List.mem_singleton.mp member
    exact ⟨rfl, rfl⟩

private theorem versions_unwritten (still : writing s action = none)
    (inv : Versions next writes) : Versions next (writes ++ (writing s action).toList) := by
  simpa [still] using inv

theorem versions_step (latches : Latches rows s) (inv : Versions s writes) (taken : Step s action next) :
    Versions next (writes ++ (writing s action).toList) := by
  cases step_cases taken with
  | begun =>
    have unknown : s.txns s.begun = none := by
      cases found : s.txns s.begun with
      | none => rfl
      | some client => exact absurd (latches.bounded _ client found) (lt_irrefl _)
    refine versions_unwritten rfl (inv.quiet (Nat.le_succ _) (fun _ => rfl) ?_ ?_ ?_)
    · intro old found
      cases unknown.symm.trans found
    · intro drew
      cases drew
    · intro row waits
      cases waits
  | reread client found entry =>
    exact versions_unwritten rfl (versions_undrawn inv client rfl rfl (fun _ => rfl))
  | refused client => exact versions_unwritten rfl (versions_undrawn inv client rfl rfl (fun _ => rfl))
  | copied client missing free current =>
    exact versions_unwritten rfl (versions_undrawn inv client rfl rfl (fun _ => rfl))
  | changed client => exact versions_unwritten rfl (versions_undrawn inv client rfl rfl (fun _ => rfl))
  | sorted client => exact versions_unwritten rfl (versions_undrawn inv client rfl rfl (fun _ => rfl))
  | dropped client => exact versions_unwritten rfl (versions_undrawn inv client rfl rfl (fun _ => rfl))
  | latched client entry free current =>
    refine versions_unwritten (by simp [writing, client]) ?_
    exact versions_undrawn inv client rfl rfl (kept_setRow (fun row => row.manager.wts) rfl)
  | failed client entry free =>
    refine versions_unwritten (by simp [writing, client]) ?_
    exact versions_undrawn inv client rfl rfl (kept_setRow (fun row => row.manager.wts) rfl)
  | @drew t man copied installs client finished =>
    refine versions_unwritten (by simp [writing, client]) ?_
    refine inv.quiet (Nat.le_succ _) (fun _ => rfl) ?_ (fun _ => Nat.lt_succ_self _) (fun row _ => inv.past row)
    intro old found drew
    cases client.symm.trans found
    cases drew
  | @wrote t man copied installs acc todo client written =>
    have writes' : (writing s (.advance t)).toList = [(t, acc.origRow)] := by simp [writing, client, written]
    rw [writes']
    exact versions_wrote latches inv client written
  | @skipped t man copied installs acc todo client read =>
    refine versions_unwritten (by simp [writing, client, read]) ?_
    refine versions_drawn inv client rfl rfl ?_ (fun _ => rfl)
    intro row waits
    simpa [Client.pending, read] using waits
  | returned client =>
    refine versions_unwritten (by simp [writing, client]) ?_
    refine versions_drawn inv client rfl rfl ?_ (fun _ => rfl)
    intro row waits
    cases waits
  | released client =>
    refine versions_unwritten (by simp [writing, client]) ?_
    refine versions_drawn inv client rfl rfl ?_ (kept_setRow (fun row => row.manager.wts) rfl)
    intro row waits
    cases waits
  | ended client =>
    refine versions_unwritten (by simp [writing, client]) ?_
    refine versions_drawn inv client rfl rfl ?_ (fun _ => rfl)
    intro row waits
    cases waits

structure Requests (rows : ρ → Row α) (trace : List (Action ρ α)) (s : State ρ α)
    (writes : List (Nat × ρ)) : Prop where
  backed : ∀ t client, s.txns t = some client → client.Backed rows (Asked rows trace t)
  written : ∀ t row, (t, row) ∈ writes → Asked rows trace t row

omit [DecidableEq ρ] in
theorem Asked.of_distinct {t : Nat} {row : ρ} (asked : Asked rows trace t row)
    (distinct : Function.Injective (fun row => (rows row).primaryKey)) : Action.getRow t row .WR ∈ trace := by
  obtain ⟨other, key, listed⟩ := asked
  rwa [distinct key] at listed

omit [DecidableEq ρ] in
theorem Asked.snoc {t : Nat} {row : ρ} (asked : Asked rows trace t row) (action : Action ρ α) :
    Asked rows (trace ++ [action]) t row := by
  obtain ⟨other, key, listed⟩ := asked
  exact ⟨other, key, List.mem_append_left _ listed⟩

omit [DecidableEq ρ] in
/-- A client that has the entries of another, in any order and with other copies, is backed by
the same requests. -/
theorem Client.Backed.later {t : Nat} {old client : Client ρ α} (backed : old.Backed rows (Asked rows trace t))
    (action : Action ρ α) (stopped : client.phase ≠ .running)
    (entries : ∀ acc ∈ client.man.accesses, acc ∈ old.man.accesses) :
    client.Backed rows (Asked rows (trace ++ [action]) t) :=
  ⟨fun running => absurd running stopped,
    fun acc member written => (backed.2 acc (entries acc member) written).snoc action⟩

namespace Requests

omit [DecidableEq ρ] in
theorem move (inv : Requests rows trace s writes) {t : Nat} {client : Client ρ α} {rows' : ρ → Row α}
    {timestamp' begun' : Nat} (backed : client.Backed rows (Asked rows (trace ++ [action]) t))
    (wrote : ∀ u row, writing s action = some (u, row) → Asked rows (trace ++ [action]) u row) :
    Requests rows (trace ++ [action]) ⟨rows', timestamp', Function.update s.txns t (some client), begun'⟩
      (writes ++ (writing s action).toList) where
  backed u other found := by
    rcases found_update found with ⟨rfl, rfl⟩ | ⟨_, before⟩
    · exact backed
    · obtain ⟨placed, asked⟩ := inv.backed u other before
      exact ⟨placed, fun acc member written => (asked acc member written).snoc action⟩
  written u row listed := by
    rcases List.mem_append.mp listed with old | new
    · exact (inv.written u row old).snoc action
    · exact wrote u row (Option.mem_toList.mp new)

end Requests

omit [DecidableEq ρ] in
private theorem placed_modify {accesses : List (Access ρ α)} {change : Access ρ α → Access ρ α}
    (pos : Nat) (same : ∀ acc, (change acc).origRow = acc.origRow) {place rid : Nat}
    (placed : ∃ acc, accesses[place]? = some acc ∧ (rows acc.origRow).primaryKey = rid) :
    ∃ acc, (accesses.modify pos change)[place]? = some acc ∧ (rows acc.origRow).primaryKey = rid := by
  obtain ⟨acc, there, named⟩ := placed
  rw [List.getElem?_modify, there]
  refine ⟨_, rfl, ?_⟩
  split
  · rwa [same acc]
  · exact named

omit [DecidableEq ρ] in
private theorem changed_of_mem_modify {accesses : List (Access ρ α)} {change : Access ρ α → Access ρ α}
    {pos : Nat} {acc : Access ρ α} (member : acc ∈ accesses.modify pos change) :
    acc ∈ accesses ∨ ∃ old, accesses[pos]? = some old ∧ acc = change old := by
  obtain ⟨place, there⟩ := List.mem_iff_getElem?.mp member
  rw [List.getElem?_modify] at there
  obtain ⟨old, before, rfl⟩ := Option.map_eq_some_iff.mp there
  split
  next here => exact .inr ⟨old, here ▸ before, rfl⟩
  next => exact .inl (List.mem_of_getElem? before)

omit [DecidableEq ρ] in
/-- A repeated request finds the entry of its own key, and may raise it to `WR`. -/
private theorem backed_reread (latches : Latches rows s) {t : Nat} {row : ρ} {type : AccessT}
    {man : TxnMan ρ α} {copied copied' installs : List (ρ × α)} {pos : Nat} {acc : Access ρ α}
    (backed : (Client.mk man .running copied installs).Backed rows (Asked rows trace t))
    (found : man.recordPos (s.rows row).primaryKey = some pos) (entry : man.accesses[pos]? = some acc) :
    (Client.mk (man.upgrade pos acc type) .running copied' installs).Backed rows
      (Asked rows (trace ++ [.getRow t row type]) t) := by
  obtain ⟨placed, asked⟩ := backed
  obtain ⟨_, same, key⟩ := placed rfl _ pos found
  cases entry.symm.trans same
  refine ⟨?_, ?_⟩
  · intro _ rid place recorded
    rw [TxnMan.upgrade_recordPos] at recorded
    rw [TxnMan.upgrade_accesses type entry]
    apply placed_modify
    · intro _; rfl
    · exact placed rfl rid place recorded
  · intro other member written
    rw [TxnMan.upgrade_accesses type entry] at member
    rcases changed_of_mem_modify member with old | ⟨before, here, rfl⟩
    · exact (asked other old written).snoc _
    · cases entry.symm.trans here
      by_cases raised : acc.type = .RD ∧ type = .WR
      · rw [raised.2]
        exact ⟨row, by rw [key, latches.primaryKey row], by simp⟩
      · simp only [if_neg raised] at written
        exact (asked acc (List.mem_of_getElem? entry) written).snoc _

omit [DecidableEq ρ] in
private theorem backed_copied (latches : Latches rows s) {t : Nat} {row : ρ} {type : AccessT}
    {man : TxnMan ρ α} {copied copied' installs : List (ρ × α)} {copy : α}
    (backed : (Client.mk man .running copied installs).Backed rows (Asked rows trace t)) :
    (Client.mk (man.record (s.rows row).primaryKey row type copy) .running copied' installs).Backed rows
      (Asked rows (trace ++ [.getRow t row type]) t) := by
  obtain ⟨placed, asked⟩ := backed
  refine ⟨?_, ?_⟩
  · intro _ rid place recorded
    rw [TxnMan.record_recordPos] at recorded
    rw [TxnMan.record_accesses]
    by_cases same : rid = (s.rows row).primaryKey
    · subst same
      rw [Function.update_self] at recorded
      cases recorded
      exact ⟨_, List.getElem?_concat_length, (latches.primaryKey row).symm⟩
    · rw [Function.update_of_ne same] at recorded
      obtain ⟨acc, there, named⟩ := placed rfl rid place recorded
      rw [List.getElem?_append_left (List.getElem?_eq_some_iff.mp there).1]
      exact ⟨acc, there, named⟩
  · intro acc member written
    rw [TxnMan.record_accesses] at member
    rcases List.mem_append.mp member with old | last
    · exact (asked acc old written).snoc _
    · cases List.mem_singleton.mp last
      cases written
      exact ⟨row, rfl, by simp⟩

omit [DecidableEq ρ] in
private theorem backed_changed {t rid : Nat} {value : α → α} {man : TxnMan ρ α}
    {copied installs : List (ρ × α)}
    (backed : (Client.mk man .running copied installs).Backed rows (Asked rows trace t))
    (action : Action ρ α) : (Client.mk (man.setLocal rid value) .running copied installs).Backed rows
      (Asked rows (trace ++ [action]) t) := by
  obtain ⟨placed, asked⟩ := backed
  unfold TxnMan.setLocal
  split
  next => exact ⟨placed, fun acc member written => (asked acc member written).snoc action⟩
  next pos found =>
    refine ⟨?_, ?_⟩
    · intro _ rid place recorded
      apply placed_modify
      · intro _; rfl
      · exact placed rfl rid place recorded
    · intro acc member written
      rcases changed_of_mem_modify member with old | ⟨before, here, rfl⟩
      · exact (asked acc old written).snoc action
      · exact (asked before (List.mem_of_getElem? here) written).snoc action

theorem requests_step (latches : Latches rows s) (inv : Requests rows trace s writes)
    (taken : Step s action next) :
    Requests rows (trace ++ [action]) next (writes ++ (writing s action).toList) := by
  cases step_cases taken with
  | begun =>
    refine inv.move ⟨?_, ?_⟩ (fun _ _ wrote => nomatch wrote)
    · intro _ rid pos recorded
      cases recorded
    · intro acc member
      cases member
  | @reread t row type man copied installs pos acc client found entry =>
    exact inv.move (backed_reread latches (inv.backed t _ client) found entry) (fun _ _ wrote => nomatch wrote)
  | @refused t row type man copied installs client =>
    obtain ⟨placed, asked⟩ := inv.backed t _ client
    exact inv.move ⟨placed, fun acc member written => (asked acc member written).snoc _⟩
      (fun _ _ wrote => nomatch wrote)
  | @copied t row type man copied installs client missing free current =>
    exact inv.move (backed_copied latches (inv.backed t _ client)) (fun _ _ wrote => nomatch wrote)
  | @changed t row value man copied installs client =>
    exact inv.move (backed_changed (inv.backed t _ client) _) (fun _ _ wrote => nomatch wrote)
  | @sorted t man copied installs client =>
    refine inv.move ((inv.backed t _ client).later _ (by simp) ?_) (fun _ _ wrote => nomatch wrote)
    intro acc member
    exact (man.sortAccesses_perm s.rows).mem_iff.mp member
  | @dropped t man copied installs client =>
    exact inv.move ((inv.backed t _ client).later _ (by simp) (fun _ member => nomatch member))
      (fun _ _ wrote => nomatch wrote)
  | @latched t man copied installs acc client entry free current =>
    refine inv.move ((inv.backed t _ client).later _ (by simp) (fun _ member => member)) ?_
    simp [writing, client]
  | @failed t man copied installs acc client entry free =>
    refine inv.move ((inv.backed t _ client).later _ (by simp) (fun _ member => nomatch member)) ?_
    simp [writing, client]
  | @drew t man copied installs client finished =>
    refine inv.move ((inv.backed t _ client).later _ (by simp) (fun _ member => member)) ?_
    simp [writing, client]
  | @wrote t man copied installs acc todo client written =>
    have backed := inv.backed t _ client
    refine inv.move (backed.later _ (by simp) (fun _ member => member)) ?_
    intro u row wrote
    simp only [writing, client, written, ↓reduceIte, Option.some.injEq, Prod.mk.injEq] at wrote
    obtain ⟨rfl, rfl⟩ := wrote
    obtain ⟨_, _, front⟩ := latches.tidy t _ client
    exact (backed.2 acc (front.subset (by simp)) written).snoc _
  | @skipped t man copied installs acc todo client read =>
    refine inv.move ((inv.backed t _ client).later _ (by simp) (fun _ member => member)) ?_
    simp [writing, client, read]
  | @returned t man copied installs client =>
    refine inv.move ((inv.backed t _ client).later _ (by simp) (fun _ member => nomatch member)) ?_
    simp [writing, client]
  | @released t man copied installs row held rc client =>
    refine inv.move ((inv.backed t _ client).later _ (by simp) (fun _ member => member)) ?_
    simp [writing, client]
  | @ended t man copied installs rc client =>
    refine inv.move ((inv.backed t _ client).later _ (by simp) (fun _ member => member)) ?_
    simp [writing, client]

/-- A `Row_occ::write` by the latch holder of a row it has a `WR` entry for: the assertion holds
and the version becomes the writer's end timestamp. -/
def WroteForward (s : State ρ α) (t : Nat) (row : ρ) (next : State ρ α) : Prop :=
  (s.rows row).manager.latch = some t ∧ ∃ client, s.txns t = some client ∧
    row ∈ client.man.accesses.map Access.origRow ∧
    (∀ acc ∈ client.man.accesses, acc.origRow = row → acc.type = .WR) ∧
    (s.rows row).manager.wts < client.man.endTs ∧ (next.rows row).manager.wts = client.man.endTs

theorem writing_forward (latches : Latches rows s) (inv : Versions s writes) (taken : Step s action next)
    {t : Nat} {row : ρ} (wrote : writing s action = some (t, row)) : WroteForward s t row next := by
  cases step_cases taken with
  | @wrote t man copied installs acc todo client written =>
    simp only [writing, client, written, ↓reduceIte, Option.some.injEq, Prod.mk.injEq] at wrote
    obtain ⟨rfl, rfl⟩ := wrote
    have here : acc.origRow ∈ (Client.mk man (.writing (acc :: todo)) copied installs).pending := by
      simp [Client.pending, written]
    obtain ⟨nodup, _, front⟩ := latches.tidy t _ client
    have listed : acc ∈ man.accesses := front.subset (by simp)
    refine ⟨pending_latch latches client here, _, client, List.mem_map_of_mem listed, ?_,
      inv.pending t _ client _ here, ?_⟩
    · intro other member same
      rw [List.inj_on_of_nodup_map nodup member listed same]
      exact written
    · simp only [State.setClient, State.setRow, Function.update_self, Row.write]
  | @skipped t man copied installs acc todo client read => simp [writing, client, read] at wrote
  | latched client => simp [writing, client] at wrote
  | failed client => simp [writing, client] at wrote
  | drew client => simp [writing, client] at wrote
  | returned client => simp [writing, client] at wrote
  | released client => simp [writing, client] at wrote
  | ended client => simp [writing, client] at wrote
  | _ => cases wrote

/-- A step that is not a write of the row leaves its version. -/
theorem wts_of_not_writing (taken : Step s action next) {row : ρ}
    (still : ∀ t, writing s action ≠ some (t, row)) :
    (next.rows row).manager.wts = (s.rows row).manager.wts := by
  cases step_cases taken with
  | @wrote t man copied installs acc todo client written =>
    have apart : row ≠ acc.origRow := by
      rintro rfl
      exact still t (by simp [writing, client, written])
    simp only [State.setClient, State.setRow, Function.update_of_ne apart]
  | latched client =>
    refine kept_setRow (fun row => row.manager.wts) ?_ row
    rfl
  | failed client =>
    refine kept_setRow (fun row => row.manager.wts) ?_ row
    rfl
  | released client =>
    refine kept_setRow (fun row => row.manager.wts) ?_ row
    rfl
  | _ => rfl

theorem versions_run (fresh : Fresh rows) (run : Run Step Always (initial rows) trace s) :
    Latches rows s ∧ Versions s (writeSteps (initial rows) trace) ∧
      Requests rows trace s (writeSteps (initial rows) trace) := by
  induction run with
  | nil =>
    refine ⟨ready_latches (initial_ready fresh), ⟨?_, Nat.one_pos, ?_, ?_, ?_⟩, ?_, ?_⟩
    · intro row
      change (rows row).manager.wts = 0
      rw [(fresh row).1]
      rfl
    all_goals simp [initial, writeSteps]
  | @snoc trace s next action run _ taken ih =>
    obtain ⟨latches, inv, requests⟩ := ih
    rw [writeSteps_snoc run taken]
    exact ⟨latches_step latches taken, versions_step latches inv taken, requests_step latches requests taken⟩

/-- Over every run of any transactions on fresh rows: a row's version is 0 or the end timestamp
of its last writer, and below the next timestamp; every write is by the latch holder and moves
the version forward; nothing else moves it; and what a transaction writes it requested with
`WR`, by that very row if no two rows share a primary key, and it does not abort. -/
theorem row_versions_move_forward (fresh : Fresh rows) (run : Run Step Always (initial rows) trace s) :
    (∀ row, s.Version (s.rows row).manager.wts (lastWriter (writeSteps (initial rows) trace) row) ∧
      (s.rows row).manager.wts < s.timestamp) ∧
    (∀ action next, Step s action next →
      (∀ t row, writing s action = some (t, row) → WroteForward s t row next) ∧
      ∀ row, (∀ t, writing s action ≠ some (t, row)) →
        (next.rows row).manager.wts = (s.rows row).manager.wts) ∧
    ∀ t row, (t, row) ∈ writeSteps (initial rows) trace → Asked rows trace t row ∧
      (Function.Injective (fun row => (rows row).primaryKey) → Action.getRow t row .WR ∈ trace) ∧
      ∀ client, s.txns t = some client → client.aborts = false := by
  obtain ⟨latches, inv, requests⟩ := versions_run fresh run
  refine ⟨fun row => ⟨inv.version row, inv.past row⟩, ?_, ?_⟩
  · intro action next taken
    exact ⟨fun t row wrote => writing_forward latches inv taken wrote,
      fun row still => wts_of_not_writing taken still⟩
  · intro t row listed
    obtain ⟨client, found, drew⟩ := inv.writers t row listed
    have asked := requests.written t row listed
    refine ⟨asked, fun distinct => asked.of_distinct distinct, ?_⟩
    intro other present
    cases found.symm.trans present
    exact not_aborts_of_drew drew

/-- Two transactions increment one row; its version is the second one's end timestamp. -/
theorem row_versions_bumps :
    ∃ s : State Nat Nat, (s.rows 5).manager.wts = 4 ∧ s.Version 4 (some 1) ∧ 4 < s.timestamp := by
  obtain ⟨s, played, checked⟩ := Option.map_eq_some_iff.mp (show (play step (initial plainRows)
    (bump 0 5 7 ++ bump 1 5 8)).map (fun s => ((s.rows 5).manager.wts,
      lastWriter (writeSteps (initial plainRows) (bump 0 5 7 ++ bump 1 5 8)) 5)) = some (4, some 1) by
        decide +kernel)
  obtain ⟨version, writer⟩ := Prod.mk.inj checked
  obtain ⟨bound, -⟩ := row_versions_move_forward plainRows_fresh (run_of_play played)
  have final := bound 5
  rw [version, writer] at final
  exact ⟨s, version, final⟩

end DataAgentDB.Occ
