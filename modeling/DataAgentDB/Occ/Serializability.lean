import DataAgentDB.Occ.Chronicle

/-! Strict serializability of the row protocol and the snapshot every transaction reads. -/

namespace DataAgentDB.Occ
open Storage CommitReplay

section Definitions
variable {ρ α : Type}

/-- `finish` returned `RCOK`. -/
def Client.committed (client : Client ρ α) : Bool :=
  match client.phase with
  | .ended rc => rc = .RCOK
  | _ => false

/-- No transaction is between its end timestamp and its return. -/
def State.Quiescent (s : State ρ α) : Prop :=
  ∀ t client, s.txns t = some client → client.drew = true → client.committed = true

/-- Rows of live memory with managers as `Row_occ::init` leaves them. -/
def Fresh (rows : ρ → Row α) : Prop := ∀ row, (rows row).manager = RowOcc.init ∧ (rows row).live = true

theorem drew_of_committed {client : Client ρ α} (committed : client.committed = true) :
    client.drew = true := by
  obtain ⟨man, phase, copied, installs⟩ := client
  cases phase <;> simp_all [Client.committed, Client.drew]

end Definitions

variable {ρ α : Type} [DecidableEq ρ] {rows : ρ → Row α} {s : State ρ α}

omit [DecidableEq ρ] in
theorem initial_ready (fresh : Fresh rows) : Ready (initial rows) where
  unlatched row := by simp [initial, (fresh row).1, RowOcc.init]
  running t client found := by cases found
  covered t client found := by cases found
  distinct t client found := by cases found
  bounded t client found := by cases found

theorem initial_chronicle : Chronicle rows (initial rows) [] := by
  refine ⟨⟨.nil, ?_, ?_, ?_, ?_, ?_, ?_, ?_, ?_⟩, ?_, ?_, ?_⟩ <;> simp [initial, contents]

theorem chronicle_reachable (fresh : Fresh rows)
    (distinct : Function.Injective (fun row => (rows row).primaryKey))
    (reach : LabelledRun.Reachable Step (initial rows) s) :
    Latches rows s ∧ ∃ commits, Chronicle rows s commits :=
  reach.invariant (fun state => Latches rows state ∧ ∃ commits, Chronicle rows state commits)
    ⟨ready_latches (initial_ready fresh), [], initial_chronicle⟩
    (fun _ _ _ ⟨latches, _, inv⟩ taken =>
      ⟨latches_step latches taken, chronicle_step distinct latches inv taken⟩)

omit [DecidableEq ρ] in
theorem mem_commits (latches : Latches rows s) {among : Client ρ α → Bool} {commit : Commit ρ α} :
    commit ∈ s.commits among ↔
      ∃ t client, s.txns t = some client ∧ among client = true ∧ client.summary = commit := by
  simp only [State.commits, (List.perm_insertionSort _ _).mem_iff, List.mem_filterMap, List.mem_range,
    Option.map_eq_some_iff, Option.filter_eq_some_iff]
  constructor
  · rintro ⟨t, _, client, ⟨found, inside⟩, same⟩
    exact ⟨t, client, found, inside, same⟩
  · rintro ⟨t, client, found, inside, same⟩
    exact ⟨t, latches.bounded t client found, client, ⟨found, inside⟩, same⟩

theorem commits_sorted {commits : List (Commit ρ α)} (inv : Chronicle rows s commits)
    {among : Client ρ α → Bool} (drawn : ∀ client, among client = true → client.drew = true) :
    (s.commits among).Pairwise (fun a b => a.endTs < b.endTs) := by
  let found := fun t => ((s.txns t).filter among).map Client.summary
  have apart : ((List.range s.begun).filterMap found).Pairwise (fun a b => a.endTs ≠ b.endTs) := by
    refine List.pairwise_filterMap.mpr (List.nodup_range.imp ?_)
    intro t u differ first firstFound second secondFound same
    obtain ⟨client, before, rfl⟩ := Option.map_eq_some_iff.mp firstFound
    obtain ⟨other, before', rfl⟩ := Option.map_eq_some_iff.mp secondFound
    obtain ⟨present, inside⟩ := Option.filter_eq_some_iff.mp before
    obtain ⟨present', inside'⟩ := Option.filter_eq_some_iff.mp before'
    exact differ (inv.unique t u client other present present' (drawn client inside)
      (drawn other inside') same)
  have order := List.pairwise_insertionSort (fun a b : Commit ρ α => a.endTs ≤ b.endTs)
    ((List.range s.begun).filterMap found)
  have apart' := ((List.perm_insertionSort (fun a b : Commit ρ α => a.endTs ≤ b.endTs)
    ((List.range s.begun).filterMap found)).pairwise_iff (fun differ same => differ same.symm)).mpr apart
  exact (order.and apart').imp (fun both => lt_of_le_of_ne both.1 both.2)

theorem commits_eq {commits : List (Commit ρ α)} (latches : Latches rows s)
    (inv : Chronicle rows s commits) : s.commits Client.drew = commits := by
  apply sorted_unique Commit.endTs (commits_sorted inv (fun _ drew => drew)) inv.sorted
  intro commit
  rw [mem_commits latches]
  constructor
  · rintro ⟨t, client, found, drew, rfl⟩
    exact inv.listed t client found drew
  · exact inv.drawn commit

theorem quiescent_commits {commits : List (Commit ρ α)} (latches : Latches rows s)
    (inv : Chronicle rows s commits) (quiescent : s.Quiescent) :
    s.commits Client.committed = commits := by
  rw [← commits_eq latches inv]
  apply sorted_unique Commit.endTs (commits_sorted inv (fun _ => drew_of_committed))
    (commits_sorted inv (fun _ drew => drew))
  intro commit
  rw [mem_commits latches, mem_commits latches]
  constructor
  · rintro ⟨t, client, found, committed, same⟩
    exact ⟨t, client, found, drew_of_committed committed, same⟩
  · rintro ⟨t, client, found, drew, same⟩
    exact ⟨t, client, found, quiescent t client found drew, same⟩

/-- How a state relates to an earlier one of the same run. -/
structure Later (first s : State ρ α) : Prop where
  grows : first.timestamp ≤ s.timestamp
  bounded : ∀ t client, s.txns t = some client → t < s.begun
  starts : ∀ t client, first.txns t = none → s.txns t = some client →
    first.timestamp ≤ client.man.startTs
  returned : ∀ t client rc, first.txns t = some client → client.phase = .ended rc →
    s.txns t = some client

omit [DecidableEq ρ] in
/-- A transaction that has not returned moves on and keeps its start timestamp. -/
theorem Later.move {first state : State ρ α} (later : Later first state) {t : Nat}
    {old client : Client ρ α} {rows' : ρ → Row α} {timestamp' : Nat}
    (found : state.txns t = some old) (running : ∀ rc, old.phase ≠ .ended rc)
    (same : client.man.startTs = old.man.startTs) (onward : state.timestamp ≤ timestamp') :
    Later first ⟨rows', timestamp', Function.update state.txns t (some client), state.begun⟩ := by
  refine ⟨later.grows.trans onward, ?_, ?_, ?_⟩
  · intro u other present
    rcases found_update present with ⟨rfl, rfl⟩ | ⟨_, before⟩
    · exact later.bounded u old found
    · exact later.bounded u other before
  · intro u other absent present
    rcases found_update present with ⟨rfl, rfl⟩ | ⟨_, before⟩
    · exact same ▸ later.starts u old absent found
    · exact later.starts u other absent before
  · intro u other rc present ended
    have still := later.returned u other rc present ended
    have apart : u ≠ t := by
      rintro rfl
      rw [found] at still
      exact running rc (Option.some.inj still ▸ ended)
    simpa [Function.update_of_ne apart] using still

theorem later_step {first state next : State ρ α} {action : Action ρ α} (later : Later first state)
    (taken : Step state action next) : Later first next := by
  cases step_cases taken with
  | begun =>
    refine ⟨later.grows.trans (Nat.le_succ _), ?_, ?_, ?_⟩
    · intro u other present
      rcases found_update present with ⟨rfl, rfl⟩ | ⟨_, before⟩
      · exact Nat.lt_succ_self _
      · exact (later.bounded u other before).trans (Nat.lt_succ_self _)
    · intro u other absent present
      rcases found_update present with ⟨rfl, rfl⟩ | ⟨_, before⟩
      · exact later.grows
      · exact later.starts u other absent before
    · intro u other rc present ended
      have still := later.returned u other rc present ended
      have apart : u ≠ state.begun := (later.bounded u other still).ne
      change Function.update state.txns state.begun _ u = _
      rwa [Function.update_of_ne apart]
  | reread client => exact later.move client (by simp) (by simp) le_rfl
  | refused client => exact later.move client (by simp) rfl le_rfl
  | copied client => exact later.move client (by simp) rfl le_rfl
  | changed client => exact later.move client (by simp) (by simp) le_rfl
  | sorted client => exact later.move client (by simp) rfl le_rfl
  | dropped client => exact later.move client (by simp) rfl le_rfl
  | latched client => exact later.move client (by simp) rfl le_rfl
  | failed client => exact later.move client (by simp) rfl le_rfl
  | drew client => exact later.move client (by simp) rfl (Nat.le_succ _)
  | wrote client => exact later.move client (by simp) rfl le_rfl
  | skipped client => exact later.move client (by simp) rfl le_rfl
  | returned client => exact later.move client (by simp) rfl le_rfl
  | released client => exact later.move client (by simp) rfl le_rfl
  | ended client => exact later.move client (by simp) rfl le_rfl

theorem later_reachable {first : State ρ α}
    (known : ∀ t client, first.txns t = some client → t < first.begun)
    (reach : LabelledRun.Reachable Step first s) : Later first s := by
  refine reach.invariant (Later first) ⟨le_rfl, known, ?_, fun _ _ _ found _ => found⟩
    (fun _ _ _ later taken => later_step later taken)
  intro t client absent found
  rw [absent] at found
  cases found

/-- Whatever the interleaving, the first successful `get_row` of each row returns what the
transactions with end timestamps below the reader's start timestamp left in it. -/
theorem reads_snapshot (fresh : Fresh rows)
    (distinct : Function.Injective (fun row => (rows row).primaryKey))
    (reach : LabelledRun.Reachable Step (initial rows) s) {t : Nat} {client : Client ρ α}
    (found : s.txns t = some client) {row : ρ} {copy : α} (copied : (row, copy) ∈ client.copied) :
    copy = replay Commit.write (contents rows)
      ((s.commits Client.drew).filter (fun commit => commit.endTs < client.man.startTs)) row := by
  obtain ⟨latches, commits, inv⟩ := chronicle_reachable fresh distinct reach
  rw [commits_eq latches inv]
  exact (inv.snapshot t client found (row, copy) copied).symm

/-- Rows of one table with distinct keys and contents 0. -/
def plainRows (row : Nat) : Row Nat := ⟨[84], row, 0, RowOcc.init, true⟩

theorem plainRows_fresh : Fresh plainRows := fun _ => ⟨rfl, rfl⟩

theorem plainRows_distinct : Function.Injective (fun row => (plainRows row).primaryKey) :=
  fun _ _ same => same

/-- A transaction adds its row and commits, until `finish` has returned. -/
def bump (t row value : Nat) : List (Action Nat Nat) :=
  [.begin, .getRow t row .WR, .setLocal t row value, .finish t .RCOK] ++ List.replicate 6 (.advance t)

/-- A reader that starts while row 4 is written back and row 5 is not sees both new values. -/
theorem reads_snapshot_midway :
    ∃ (s : State Nat Nat) (client : Client Nat Nat), s.txns 1 = some client ∧
      client.copied = [(4, 8), (5, 9)] ∧ ∀ entry ∈ client.copied,
        entry.2 = replay Commit.write (contents plainRows)
          ((s.commits Client.drew).filter (fun commit => commit.endTs < client.man.startTs)) entry.1 := by
  -- the reader begins after four of the writer's nine steps inside `finish`
  let actions : List (List (Action Nat Nat)) :=
    [[.begin, .getRow 0 5 .WR, .getRow 0 4 .WR, .setLocal 0 4 8, .setLocal 0 5 9, .finish 0 .RCOK],
      List.replicate 4 (.advance 0), [.begin], List.replicate 5 (.advance 0),
      [.getRow 1 4 .RD, .getRow 1 5 .RD]]
  obtain ⟨s, reach, checked⟩ := LabelledRun.reachable_of_play step (initial plainRows) actions.flatten
    (fun s => (s.txns 1).map Client.copied = some [(4, 8), (5, 9)]) (by decide +kernel)
  obtain ⟨client, found, copied⟩ := Option.map_eq_some_iff.mp (of_decide_eq_true checked)
  exact ⟨s, client, found, copied, fun entry member =>
    reads_snapshot plainRows_fresh plainRows_distinct reach found member⟩

/-- The committed transactions, run one after another in increasing end timestamp, read what
they read and leave the rows as they are; who returned before another began comes first. -/
theorem strictly_serializable (fresh : Fresh rows)
    (distinct : Function.Injective (fun row => (rows row).primaryKey))
    (reach : LabelledRun.Reachable Step (initial rows) s) :
    (s.Quiescent →
      Serial Commit.write Commit.Reads (contents rows) (s.commits Client.committed) ∧
      contents s.rows = replay Commit.write (contents rows) (s.commits Client.committed)) ∧
    ∀ last, LabelledRun.Reachable Step s last → ∀ t u client other,
      s.txns t = some client → client.committed = true → s.txns u = none →
      last.txns u = some other → other.drew = true →
      last.txns t = some client ∧ client.man.endTs < other.man.endTs := by
  obtain ⟨latches, commits, inv⟩ := chronicle_reachable fresh distinct reach
  refine ⟨?_, ?_⟩
  · intro quiescent
    rw [quiescent_commits latches inv quiescent]
    refine ⟨serial_of_snapshots Commit.write Commit.endTs Commit.Reads _ _ inv.sorted inv.valid, ?_⟩
    funext row
    refine (inv.settled row ?_).1
    intro t client found pending
    have returned := quiescent t client found
    obtain ⟨man, phase, copied, installs⟩ := client
    cases phase <;> simp_all [Client.pending, Client.drew, Client.committed]
  · intro last onward t u client other found committed absent found' drew
    have later := later_reachable latches.bounded onward
    obtain ⟨_, commits', inv'⟩ := chronicle_reachable fresh distinct (reach.trans onward)
    refine ⟨?_, ?_⟩
    · obtain ⟨man, phase, copied, installs⟩ := client
      cases phase <;> simp only [Client.committed, Bool.false_eq_true] at committed
      exact later.returned t _ _ found rfl
    · calc client.man.endTs
          _ < s.timestamp := inv.past _ (inv.listed t client found (drew_of_committed committed))
          _ ≤ other.man.startTs := later.starts u other absent found'
          _ < other.man.endTs := inv'.ordered _ (inv'.listed u other found' drew)

/-- Two increments of one row, the second begun after the first returned. -/
theorem strictly_serializable_bumps :
    ∃ s last : State Nat Nat,
      (Serial Commit.write Commit.Reads (contents plainRows) (s.commits Client.committed) ∧
        contents s.rows = replay Commit.write (contents plainRows) (s.commits Client.committed)) ∧
      ∃ client other, last.txns 0 = some client ∧ last.txns 1 = some other ∧
        other.copied = [(5, 7)] ∧ client.man.endTs < other.man.endTs := by
  obtain ⟨s, reach, checked⟩ := LabelledRun.reachable_of_play step (initial plainRows) (bump 0 5 7)
    (fun s => s.begun = 1 ∧ (s.txns 0).map Client.committed = some true ∧ (s.txns 1).isNone = true ∧
      (LabelledRun.play step s (bump 1 5 8)).map (fun last => (last.txns 1).map
        (fun client => (client.drew, client.copied))) = some (some (true, [(5, 7)]))) (by decide +kernel)
  obtain ⟨one, returned, absent, more⟩ := of_decide_eq_true checked
  obtain ⟨last, played, copies⟩ := Option.map_eq_some_iff.mp more
  obtain ⟨client, found, committed⟩ := Option.map_eq_some_iff.mp returned
  obtain ⟨other, found', known⟩ := Option.map_eq_some_iff.mp copies
  obtain ⟨drew, copied⟩ := Prod.mk.inj known
  obtain ⟨serial, order⟩ := strictly_serializable plainRows_fresh plainRows_distinct reach
  obtain ⟨kept, earlier⟩ := order last ⟨_, LabelledRun.run_of_play played⟩ 0 1 client other found
    committed (Option.isNone_iff_eq_none.mp absent) found' drew
  have quiescent : s.Quiescent := by
    intro t any present _
    have first : t = 0 := by
      have bound := (later_reachable (initial_ready plainRows_fresh).bounded reach).bounded t any present
      omega
    subst first
    rw [found] at present
    exact Option.some.inj present ▸ committed
  exact ⟨s, last, serial quiescent, client, other, kept, found', copied, earlier⟩

end DataAgentDB.Occ
