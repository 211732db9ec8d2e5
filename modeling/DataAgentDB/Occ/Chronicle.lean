import DataAgentDB.Occ.Latching

/-! The commits of a run in the order they drew their end timestamps, and what the rows and
the copies taken by `get_row` have to do with them. A row differs from the replay of all
commits only while its last writer, which holds its latch, has not written it back. -/

namespace DataAgentDB.Occ
open Storage CommitReplay

section Definitions
variable {ρ α : Type}

/-- What a transaction that drew its end timestamp leaves behind. -/
structure Commit (ρ α : Type) where
  startTs : Nat
  endTs : Nat
  copied : List (ρ × α)
  installs : List (ρ × α)

def Client.summary (client : Client ρ α) : Commit ρ α :=
  { startTs := client.man.startTs, endTs := client.man.endTs, copied := client.copied,
    installs := client.installs }

/-- The validation passed and the end timestamp is drawn. -/
def Client.drew (client : Client ρ α) : Bool :=
  match client.phase with
  | .running | .latching => false
  | .writing _ => true
  | .releasing _ rc | .ended rc => rc = .RCOK

/-- The rows a committing transaction has still to write back. -/
def Client.pending (client : Client ρ α) : List ρ :=
  match client.phase with
  | .writing todo => (todo.filter (fun acc => acc.type = .WR)).map Access.origRow
  | _ => []

def Commit.write [DecidableEq ρ] (commit : Commit ρ α) (row : ρ) : Option α :=
  (commit.installs.find? (fun entry => entry.1 = row)).map Prod.snd

def Commit.Reads (commit : Commit ρ α) (store : ρ → α) : Prop :=
  ∀ entry ∈ commit.copied, store entry.1 = entry.2

def contents (rows : ρ → Row α) : ρ → α := fun row => (rows row).data

/-- The transactions in a given place, as commits in increasing end timestamp. -/
def State.commits (s : State ρ α) (among : Client ρ α → Bool) : List (Commit ρ α) :=
  ((List.range s.begun).filterMap (fun t => ((s.txns t).filter among).map Client.summary)).insertionSort
    (fun a b => a.endTs ≤ b.endTs)

end Definitions

variable {ρ α : Type} [DecidableEq ρ]

/-- What the phase of a transaction says about its record: `start` has the rows' keys, `rows`
their versions. -/
def Client.Accounted (start rows : ρ → Row α) (client : Client ρ α) : Prop :=
  match client.phase with
  | .running =>
      (∀ entry ∈ client.copied, entry.1 ∈ client.man.accesses.map Access.origRow) ∧
      ∀ rid pos, client.man.recordPos rid = some pos →
        ∃ entry ∈ client.copied, (start entry.1).primaryKey = rid
  | .latching =>
      (∀ entry ∈ client.copied, entry.1 ∈ client.man.accesses.map Access.origRow) ∧
      ∀ row ∈ client.holds, (rows row).manager.wts ≤ client.man.startTs
  | .writing _ => client.installs = writeSet client.man.accesses
  | .releasing _ _ | .ended _ => True

/-- Who committed when, and which state every copy and every commit saw. -/
structure Roster (init : ρ → α) (s : State ρ α) (commits : List (Commit ρ α)) : Prop where
  sorted : commits.Pairwise (fun a b => a.endTs < b.endTs)
  past : ∀ commit ∈ commits, commit.endTs < s.timestamp
  ordered : ∀ commit ∈ commits, commit.startTs < commit.endTs
  listed : ∀ t client, s.txns t = some client → client.drew = true → client.summary ∈ commits
  drawn : ∀ commit ∈ commits, ∃ t client, s.txns t = some client ∧ client.drew = true ∧
    client.summary = commit
  unique : ∀ t u client other, s.txns t = some client → s.txns u = some other →
    client.drew = true → other.drew = true → client.man.endTs = other.man.endTs → t = u
  started : ∀ t client, s.txns t = some client → client.man.startTs < s.timestamp ∧
    ∀ commit ∈ commits, commit.endTs ≠ client.man.startTs
  snapshot : ∀ t client, s.txns t = some client → ∀ entry ∈ client.copied,
    replay Commit.write init (commits.filter (fun commit => commit.endTs < client.man.startTs)) entry.1 =
      entry.2
  valid : ∀ commit ∈ commits, commit.Reads
    (replay Commit.write init (commits.filter (fun other => other.endTs < commit.endTs)))

structure Chronicle (start : ρ → Row α) (s : State ρ α) (commits : List (Commit ρ α)) : Prop
    extends Roster (contents start) s commits where
  settled : ∀ row, (∀ t client, s.txns t = some client → row ∉ client.pending) →
    (s.rows row).data = replay Commit.write (contents start) commits row ∧
    ∀ commit ∈ commits, commit.write row ≠ none → commit.endTs ≤ (s.rows row).manager.wts
  last : ∀ t client, s.txns t = some client → ∀ row ∈ client.pending,
    ∀ commit ∈ commits, commit.write row ≠ none → commit.endTs ≤ client.man.endTs
  accounted : ∀ t client, s.txns t = some client → client.Accounted start s.rows

omit [DecidableEq ρ] in
theorem found_update {txns : Nat → Option (Client ρ α)} {t u : Nat} {client other : Client ρ α}
    (found : Function.update txns t (some client) u = some other) :
    (u = t ∧ other = client) ∨ (u ≠ t ∧ txns u = some other) := by
  by_cases same : u = t
  · subst same
    exact Or.inl ⟨rfl, by simpa using found.symm⟩
  · exact Or.inr ⟨same, by simpa [Function.update_of_ne same] using found⟩

theorem write_of_mem {commit : Commit ρ α} {row : ρ} {value : α}
    (nodup : (commit.installs.map Prod.fst).Nodup) (member : (row, value) ∈ commit.installs) :
    commit.write row = some value := by
  obtain ⟨startTs, endTs, copied, installs⟩ := commit
  simp only [Commit.write] at nodup member ⊢
  induction installs with
  | nil => simp at member
  | cons entry rest ih =>
    simp only [List.map_cons, List.nodup_cons] at nodup
    rcases List.mem_cons.mp member with rfl | later
    · simp
    · have apart : entry.1 ≠ row := by
        intro same
        exact nodup.1 (same ▸ List.mem_map_of_mem (f := Prod.fst) later)
      rw [List.find?_cons_of_neg (by simpa using apart)]
      exact ih nodup.2 later

theorem write_ne_none {commit : Commit ρ α} {row : ρ} :
    commit.write row ≠ none ↔ row ∈ commit.installs.map Prod.fst := by
  unfold Commit.write
  simp only [ne_eq, Option.map_eq_none_iff, List.find?_eq_none, decide_eq_true_eq, List.mem_map,
    not_forall, not_not]
  constructor
  · rintro ⟨entry, member, same⟩; exact ⟨entry, member, same⟩
  · rintro ⟨entry, member, same⟩; exact ⟨entry, member, same⟩

variable {init : ρ → α} {s : State ρ α} {commits : List (Commit ρ α)}

/-- A step that draws no timestamp leaves the roster as it is. -/
theorem Roster.move (inv : Roster init s commits) {t : Nat} {old client : Client ρ α}
    {rows' : ρ → Row α} (found : s.txns t = some old)
    (startTs : client.man.startTs = old.man.startTs) (drew : client.drew = old.drew)
    (summary : old.drew = true → client.summary = old.summary)
    (copies : ∀ entry ∈ client.copied, entry ∈ old.copied ∨ replay Commit.write init
      (commits.filter (fun commit => commit.endTs < old.man.startTs)) entry.1 = entry.2) :
    Roster init ⟨rows', s.timestamp, Function.update s.txns t (some client), s.begun⟩ commits := by
  refine ⟨inv.sorted, inv.past, inv.ordered, ?_, ?_, ?_, ?_, ?_, inv.valid⟩
  · intro u other present drawn
    rcases found_update present with ⟨rfl, rfl⟩ | ⟨_, before⟩
    · rw [summary (drew ▸ drawn)]
      exact inv.listed u old found (drew ▸ drawn)
    · exact inv.listed u other before drawn
  · intro commit member
    obtain ⟨u, other, before, drawn, equal⟩ := inv.drawn commit member
    by_cases here : u = t
    · subst here
      rw [found] at before
      cases before
      exact ⟨u, client, by simp, drew.trans drawn, (summary drawn).trans equal⟩
    · exact ⟨u, other, by simpa [Function.update_of_ne here] using before, drawn, equal⟩
  · have endTs : old.drew = true → client.man.endTs = old.man.endTs := fun drawn =>
      congrArg Commit.endTs (summary drawn)
    intro u v first second present present' drawn drawn' equal
    rcases found_update present with ⟨rfl, rfl⟩ | ⟨_, before⟩ <;>
      rcases found_update present' with ⟨rfl, rfl⟩ | ⟨_, before'⟩
    · rfl
    · rw [drew] at drawn
      exact inv.unique u v old second found before' drawn drawn' ((endTs drawn).symm.trans equal)
    · rw [drew] at drawn'
      exact inv.unique u v first old before found drawn drawn' (equal.trans (endTs drawn'))
    · exact inv.unique u v first second before before' drawn drawn' equal
  · intro u other present
    rcases found_update present with ⟨rfl, rfl⟩ | ⟨_, before⟩
    · rw [startTs]; exact inv.started u old found
    · exact inv.started u other before
  · intro u other present entry member
    rcases found_update present with ⟨rfl, rfl⟩ | ⟨_, before⟩
    · rw [startTs]
      rcases copies entry member with known | fresh
      · exact inv.snapshot u old found entry known
      · exact fresh
    · exact inv.snapshot u other before entry member

omit [DecidableEq ρ] in
/-- What a transaction's record says of the rows survives changes of rows it does not hold. -/
theorem accounted_of_same_versions {start rows rows' : ρ → Row α} {client : Client ρ α}
    (held : client.Accounted start rows)
    (same : ∀ row ∈ client.holds, (rows' row).manager.wts = (rows row).manager.wts) :
    client.Accounted start rows' := by
  obtain ⟨man, phase, copied, installs⟩ := client
  cases phase with
  | latching => exact ⟨held.1, fun row member => same row member ▸ held.2 row member⟩
  | running => exact held
  | writing todo => exact held
  | releasing rest rc => trivial
  | ended rc => trivial

variable {start : ρ → Row α}

/-- A step that draws no end timestamp and changes no row's contents or version. -/
theorem Chronicle.quiet (inv : Chronicle start s commits) {t : Nat} {old client : Client ρ α}
    {rows' : ρ → Row α} (found : s.txns t = some old)
    (same : ∀ row, (rows' row).data = (s.rows row).data ∧
      (rows' row).manager.wts = (s.rows row).manager.wts)
    (startTs : client.man.startTs = old.man.startTs) (drew : client.drew = old.drew)
    (summary : old.drew = true → client.summary = old.summary)
    (pending : client.pending = old.pending ∧ (client.pending ≠ [] → client.man.endTs = old.man.endTs))
    (copies : ∀ entry ∈ client.copied, entry ∈ old.copied ∨ replay Commit.write (contents start)
      (commits.filter (fun commit => commit.endTs < old.man.startTs)) entry.1 = entry.2)
    (accounted : client.Accounted start s.rows) :
    Chronicle start ⟨rows', s.timestamp, Function.update s.txns t (some client), s.begun⟩ commits := by
  refine ⟨inv.toRoster.move found startTs drew summary copies, ?_, ?_, ?_⟩
  · intro row free
    rw [(same row).1, (same row).2]
    apply inv.settled row
    intro u other before
    by_cases here : u = t
    · subst here
      rw [found] at before
      cases before
      rw [← pending.1]
      exact free u client (by simp)
    · exact free u other (by simpa [Function.update_of_ne here] using before)
  · intro u other present row member
    rcases found_update present with ⟨rfl, rfl⟩ | ⟨_, before⟩
    · rw [pending.2 (List.ne_nil_of_mem member)]
      exact inv.last u old found row (pending.1 ▸ member)
    · exact inv.last u other before row member
  · intro u other present
    rcases found_update present with ⟨rfl, rfl⟩ | ⟨_, before⟩
    · exact accounted_of_same_versions accounted (fun row _ => (same row).2)
    · exact accounted_of_same_versions (inv.accounted u other before) (fun row _ => (same row).2)

variable {next : State ρ α}

omit [DecidableEq ρ] in
theorem pending_held {client : Client ρ α} (tidy : client.Tidy start) {row : ρ}
    (member : row ∈ client.pending) : row ∈ client.holds := by
  obtain ⟨man, phase, copied, installs⟩ := client
  cases phase with
  | writing todo =>
    obtain ⟨_, _, front⟩ := tidy
    obtain ⟨acc, inTodo, rfl⟩ := List.mem_map.mp member
    have inTable : acc ∈ man.accesses :=
      front.subset (List.mem_reverse.mpr (List.mem_of_mem_filter inTodo))
    exact List.mem_map_of_mem inTable
  | running => simp [Client.pending] at member
  | latching => simp [Client.pending] at member
  | releasing held rc => simp [Client.pending] at member
  | ended rc => simp [Client.pending] at member

omit [DecidableEq ρ] in
/-- A row is written back only by the transaction that holds its latch. -/
theorem pending_latch (latches : Latches start s) {t : Nat} {client : Client ρ α}
    (found : s.txns t = some client) {row : ρ} (member : row ∈ client.pending) :
    (s.rows row).manager.latch = some t :=
  latches.latch_of_holds found (pending_held (latches.tidy t client found) member)

omit [DecidableEq ρ] in
theorem writeSet_rows (accesses : List (Access ρ α)) :
    (writeSet accesses).map Prod.fst =
      (accesses.filter (fun acc => acc.type = .WR)).map Access.origRow := by
  simp [writeSet]

omit [DecidableEq ρ] in
theorem writeSet_nodup {accesses : List (Access ρ α)} (nodup : (accesses.map Access.origRow).Nodup) :
    ((writeSet accesses).map Prod.fst).Nodup := by
  rw [writeSet_rows]
  exact nodup.sublist (List.filter_sublist.map _)

/-- A row nobody is writing back, no newer than a timestamp, is as the commits before it left it. -/
theorem replay_current (inv : Chronicle start s commits) {row : ρ} {bound : Nat}
    (free : ∀ t client, s.txns t = some client → row ∉ client.pending)
    (current : (s.rows row).manager.wts ≤ bound) (fresh : ∀ commit ∈ commits, commit.endTs ≠ bound) :
    replay Commit.write (contents start) (commits.filter (fun commit => commit.endTs < bound)) row =
      (s.rows row).data := by
  obtain ⟨data, newest⟩ := inv.settled row free
  rw [data]
  apply replay_filter
  intro commit member late
  by_contra written
  have below := lt_of_le_of_ne ((newest commit member written).trans current) (fresh commit member)
  simp [below] at late

theorem chronicle_begin (latches : Latches start s) (inv : Chronicle start s commits) :
    Chronicle start ⟨s.rows, s.timestamp + 1, Function.update s.txns s.begun
      (some ⟨TxnMan.init s.timestamp, .running, [], []⟩), s.begun + 1⟩ commits := by
  have unknown : ∀ client, s.txns s.begun ≠ some client := fun client found =>
    absurd (latches.bounded _ client found) (lt_irrefl _)
  refine ⟨⟨inv.sorted, fun commit member => (inv.past commit member).trans (Nat.lt_succ_self _),
    inv.ordered, ?_, ?_, ?_, ?_, ?_, inv.valid⟩, ?_, ?_, ?_⟩
  · intro u other present drawn
    rcases found_update present with ⟨rfl, rfl⟩ | ⟨_, before⟩
    · cases drawn
    · exact inv.listed u other before drawn
  · intro commit member
    obtain ⟨u, other, before, rest⟩ := inv.drawn commit member
    have apart : u ≠ s.begun := fun same => unknown other (same ▸ before)
    exact ⟨u, other, by simpa [Function.update_of_ne apart] using before, rest⟩
  · intro u v first second present present' drawn drawn' equal
    rcases found_update present with ⟨rfl, rfl⟩ | ⟨_, before⟩
    · cases drawn
    · rcases found_update present' with ⟨rfl, rfl⟩ | ⟨_, before'⟩
      · cases drawn'
      · exact inv.unique u v first second before before' drawn drawn' equal
  · intro u other present
    rcases found_update present with ⟨rfl, rfl⟩ | ⟨_, before⟩
    · exact ⟨Nat.lt_succ_self _, fun commit member => (inv.past commit member).ne⟩
    · exact ⟨(inv.started u other before).1.trans (Nat.lt_succ_self _), (inv.started u other before).2⟩
  · intro u other present entry member
    rcases found_update present with ⟨rfl, rfl⟩ | ⟨_, before⟩
    · simp at member
    · exact inv.snapshot u other before entry member
  · intro row free
    apply inv.settled row
    intro u other before
    have apart : u ≠ s.begun := fun same => unknown other (same ▸ before)
    exact free u other (by simpa [Function.update_of_ne apart] using before)
  · intro u other present row member
    rcases found_update present with ⟨rfl, rfl⟩ | ⟨_, before⟩
    · simp [Client.pending] at member
    · exact inv.last u other before row member
  · intro u other present
    rcases found_update present with ⟨rfl, rfl⟩ | ⟨_, before⟩
    · simp [Client.Accounted, TxnMan.init]
    · exact inv.accounted u other before

omit [DecidableEq ρ] in
/-- No one else writes back a row the transaction has latched in its latch loop. -/
theorem latched_not_pending (latches : Latches start s) {t : Nat} {man : TxnMan ρ α}
    {copied installs : List (ρ × α)}
    (found : s.txns t = some ⟨man, .latching, copied, installs⟩) {row : ρ}
    (member : row ∈ (⟨man, .latching, copied, installs⟩ : Client ρ α).holds) (u : Nat)
    (other : Client ρ α) (present : s.txns u = some other) : row ∉ other.pending := by
  intro pending
  have held := latches.latch_of_holds found member
  have same := held.symm.trans (pending_latch latches present pending)
  cases same
  rw [found] at present
  cases present
  simp [Client.pending] at pending

section Draw

variable {t : Nat} {man : TxnMan ρ α} {copied installs : List (ρ × α)}

/-- The commit a transaction makes when its latch loop has latched every row. -/
def drawnCommit (s : State ρ α) (man : TxnMan ρ α) (copied : List (ρ × α)) : Commit ρ α :=
  { startTs := man.startTs, endTs := s.timestamp, copied := copied, installs := writeSet man.accesses }

omit [DecidableEq ρ] in
theorem all_latched (installs : List (ρ × α)) (finished : man.accesses[man.lockCnt]? = none) :
    (⟨man, .latching, copied, installs⟩ : Client ρ α).holds = man.accesses.map Access.origRow := by
  simp [Client.holds, List.take_of_length_le (List.getElem?_eq_none_iff.mp finished)]

theorem drawn_write {row : ρ} (written : (drawnCommit s man copied).write row ≠ none) :
    row ∈ (man.accesses.filter (fun acc => acc.type = .WR)).map Access.origRow := by
  rw [write_ne_none] at written
  simpa only [drawnCommit, writeSet_rows] using written

/-- What the transaction copied at its start timestamp is still there at its end timestamp. -/
theorem drawn_reads (latches : Latches start s) (inv : Chronicle start s commits)
    (found : s.txns t = some ⟨man, .latching, copied, installs⟩)
    (finished : man.accesses[man.lockCnt]? = none) :
    (drawnCommit s man copied).Reads (replay Commit.write (contents start) commits) := by
  obtain ⟨covered, current⟩ := inv.accounted t _ found
  intro entry copy
  have held : entry.1 ∈ (⟨man, .latching, copied, installs⟩ : Client ρ α).holds :=
    all_latched installs finished ▸ covered entry copy
  have free := latched_not_pending latches found held
  calc replay Commit.write (contents start) commits entry.1
      _ = (s.rows entry.1).data := (inv.settled entry.1 free).1.symm
      _ = replay Commit.write (contents start)
          (commits.filter (fun commit => commit.endTs < man.startTs)) entry.1 :=
        (replay_current inv free (current entry.1 held) (inv.started t _ found).2).symm
      _ = entry.2 := inv.snapshot t _ found entry copy

theorem roster_draw (latches : Latches start s) (inv : Chronicle start s commits)
    (found : s.txns t = some ⟨man, .latching, copied, installs⟩)
    (finished : man.accesses[man.lockCnt]? = none) :
    Roster (contents start) ⟨s.rows, s.timestamp + 1, Function.update s.txns t (some
        ⟨{ man with endTs := s.timestamp }, .writing man.accesses.reverse, copied,
          writeSet man.accesses⟩), s.begun⟩ (commits ++ [drawnCommit s man copied]) := by
  have below : ∀ u other, s.txns u = some other → other.drew = true →
      other.man.endTs < s.timestamp := fun u other before drawn =>
    inv.past _ (inv.listed u other before drawn)
  constructor
  case sorted =>
    refine List.pairwise_append.mpr ⟨inv.sorted, by simp, ?_⟩
    intro commit member other last
    rw [List.mem_singleton.mp last]
    exact inv.past commit member
  case past =>
    intro commit member
    rcases List.mem_append.mp member with old | new
    · exact (inv.past commit old).trans (Nat.lt_succ_self _)
    · rw [List.mem_singleton.mp new]; exact Nat.lt_succ_self _
  case ordered =>
    intro commit member
    rcases List.mem_append.mp member with old | new
    · exact inv.ordered commit old
    · rw [List.mem_singleton.mp new]; exact (inv.started t _ found).1
  case listed =>
    intro u other present drawn
    rcases found_update present with ⟨rfl, rfl⟩ | ⟨_, before⟩
    · exact List.mem_append_right _ (List.mem_singleton.mpr rfl)
    · exact List.mem_append_left _ (inv.listed u other before drawn)
  case drawn =>
    intro commit member
    rcases List.mem_append.mp member with old | new
    · obtain ⟨u, other, before, drawn, equal⟩ := inv.drawn commit old
      have apart : u ≠ t := by
        rintro rfl
        rw [found] at before
        cases before
        cases drawn
      exact ⟨u, other, by simpa [Function.update_of_ne apart] using before, drawn, equal⟩
    · rw [List.mem_singleton.mp new]
      exact ⟨t, _, Function.update_self .., rfl, rfl⟩
  case unique =>
    intro u v first second present present' drawn drawn' equal
    rcases found_update present with ⟨rfl, rfl⟩ | ⟨_, before⟩ <;>
      rcases found_update present' with ⟨rfl, rfl⟩ | ⟨_, before'⟩
    · rfl
    · exact absurd equal (below v second before' drawn').ne'
    · exact absurd equal (below u first before drawn).ne
    · exact inv.unique u v first second before before' drawn drawn' equal
  case started =>
    have later : ∀ u other, s.txns u = some other → other.man.startTs < s.timestamp + 1 ∧
        ∀ commit ∈ commits ++ [drawnCommit s man copied], commit.endTs ≠ other.man.startTs := by
      intro u other before
      obtain ⟨past, fresh⟩ := inv.started u other before
      refine ⟨past.trans (Nat.lt_succ_self _), fun commit member => ?_⟩
      rcases List.mem_append.mp member with old | new
      · exact fresh commit old
      · rw [List.mem_singleton.mp new]; exact past.ne'
    intro u other present
    rcases found_update present with ⟨rfl, rfl⟩ | ⟨_, before⟩
    · have held := later u _ found
      exact held
    · exact later u other before
  case snapshot =>
    have kept : ∀ u other, s.txns u = some other → ∀ entry ∈ other.copied,
        replay Commit.write (contents start) ((commits ++ [drawnCommit s man copied]).filter
          (fun commit => commit.endTs < other.man.startTs)) entry.1 = entry.2 := by
      intro u other before entry member
      rw [filter_snoc_late Commit.endTs (inv.started u other before).1.le]
      exact inv.snapshot u other before entry member
    intro u other present
    rcases found_update present with ⟨rfl, rfl⟩ | ⟨_, before⟩
    · have held := kept u _ found
      exact held
    · exact kept u other before
  case valid =>
    intro commit member
    rcases List.mem_append.mp member with old | new
    · rw [filter_snoc_late Commit.endTs (inv.past commit old).le]
      exact inv.valid commit old
    · have everyone : commits.filter (fun other => other.endTs < (drawnCommit s man copied).endTs) =
          commits := List.filter_eq_self.mpr (fun other inside => decide_eq_true (inv.past other inside))
      rw [List.mem_singleton.mp new, filter_snoc_late Commit.endTs le_rfl, everyone]
      exact drawn_reads latches inv found finished

/-- The end timestamp is drawn with every accessed row latched and no newer than the start. -/
theorem chronicle_draw (latches : Latches start s) (inv : Chronicle start s commits)
    (found : s.txns t = some ⟨man, .latching, copied, installs⟩)
    (finished : man.accesses[man.lockCnt]? = none) :
    Chronicle start ⟨s.rows, s.timestamp + 1, Function.update s.txns t (some
        ⟨{ man with endTs := s.timestamp }, .writing man.accesses.reverse, copied,
          writeSet man.accesses⟩), s.begun⟩ (commits ++ [drawnCommit s man copied]) := by
  refine ⟨roster_draw latches inv found finished, ?_, ?_, ?_⟩
  · intro row free
    have idle := free t _ (Function.update_self ..)
    have untouched : (drawnCommit s man copied).write row = none := by
      by_contra written
      have inside := drawn_write written
      apply idle
      simpa [Client.pending, List.filter_reverse] using inside
    have before : ∀ u other, s.txns u = some other → row ∉ other.pending := by
      intro u other present
      by_cases here : u = t
      · subst here
        rw [found] at present
        cases present
        simp [Client.pending]
      · exact free u other (by simpa [Function.update_of_ne here] using present)
    obtain ⟨data, newest⟩ := inv.settled row before
    rw [replay_snoc, install_untouched Commit.write untouched]
    refine ⟨data, fun commit member written => ?_⟩
    rcases List.mem_append.mp member with old | new
    · exact newest commit old written
    · rw [List.mem_singleton.mp new] at written
      exact absurd untouched written
  · intro u other present row pending commit member written
    rcases found_update present with ⟨rfl, rfl⟩ | ⟨_, before⟩ <;>
      rcases List.mem_append.mp member with old | new
    · exact (inv.past commit old).le
    · rw [List.mem_singleton.mp new]; exact le_rfl
    · exact inv.last u other before row pending commit old written
    · rw [List.mem_singleton.mp new] at written
      have held : row ∈ (⟨man, .latching, copied, installs⟩ : Client ρ α).holds :=
        all_latched installs finished ▸
          (List.filter_sublist.map _).subset (drawn_write written)
      exact absurd pending (latched_not_pending latches found held u other before)
  · intro u other present
    rcases found_update present with ⟨rfl, rfl⟩ | ⟨_, before⟩
    · rfl
    · exact inv.accounted u other before

end Draw

/-- Writing back installs the row's newest commit. -/
theorem chronicle_write (latches : Latches start s) (inv : Chronicle start s commits) {t : Nat}
    {man : TxnMan ρ α} {acc : Access ρ α} {todo : List (Access ρ α)} {copied installs : List (ρ × α)}
    (found : s.txns t = some ⟨man, .writing (acc :: todo), copied, installs⟩)
    (written : acc.type = .WR) :
    Chronicle start ⟨Function.update s.rows acc.origRow ((s.rows acc.origRow).write acc.data man.endTs),
      s.timestamp, Function.update s.txns t (some ⟨man, .writing todo, copied, installs⟩),
      s.begun⟩ commits := by
  obtain ⟨nodup, _, front⟩ := latches.tidy t _ found
  have accounted : installs = writeSet man.accesses := inv.accounted t _ found
  have inTable : acc ∈ man.accesses := front.subset (by simp)
  have mine : (s.rows acc.origRow).manager.latch = some t :=
    latches.latch_of_holds found (List.mem_map_of_mem inTable)
  have pendingNow : acc.origRow ∈
      (⟨man, .writing (acc :: todo), copied, installs⟩ : Client ρ α).pending := by
    simp [Client.pending, written]
  have summary := inv.listed t _ found rfl
  have installed : (⟨man.startTs, man.endTs, copied, installs⟩ : Commit ρ α).write acc.origRow =
      some acc.data := by
    apply write_of_mem
    · simpa only [accounted] using writeSet_nodup nodup
    · simp only [accounted, writeSet, List.mem_map, List.mem_filter, decide_eq_true_eq]
      exact ⟨acc, ⟨inTable, written⟩, rfl⟩
  have newest : replay Commit.write (contents start) commits acc.origRow = acc.data := by
    obtain ⟨before, after, split⟩ := List.append_of_mem summary
    have later := (List.pairwise_append.mp (split ▸ inv.sorted)).2.1
    rw [split]
    apply replay_last Commit.write (contents start) before after _ _ _ installed
    intro other member
    by_contra touched
    have above := (List.pairwise_cons.mp later).1 other member
    have below := inv.last t _ found acc.origRow pendingNow other (by simp [split, member]) touched
    exact absurd above (not_lt.mpr below)
  have others : ∀ u other, s.txns u = some other → u ≠ t → acc.origRow ∉ other.holds := by
    intro u other present apart member
    have held := latches.latch_of_holds present member
    rw [mine] at held
    exact apart (Option.some.inj held).symm
  refine ⟨inv.toRoster.move found rfl rfl (fun _ => rfl) (fun _ member => Or.inl member), ?_, ?_, ?_⟩
  · intro row free
    change (Function.update s.rows acc.origRow _ row).data = _ ∧ _
    by_cases here : row = acc.origRow
    · subst here
      simp only [Function.update_self, Row.write]
      refine ⟨newest.symm, fun commit member touched => ?_⟩
      exact inv.last t _ found acc.origRow pendingNow commit member touched
    · simp only [Function.update_of_ne here]
      apply inv.settled row
      intro u other before
      by_cases same : u = t
      · subst same
        rw [found] at before
        cases before
        have idle := free u _ (Function.update_self ..)
        simpa [Client.pending, written, here] using idle
      · exact free u other (by simpa [Function.update_of_ne same] using before)
  · intro u other present row member
    rcases found_update present with ⟨rfl, rfl⟩ | ⟨_, before⟩
    · have wider : row ∈ (⟨man, .writing (acc :: todo), copied, installs⟩ : Client ρ α).pending := by
        simp only [Client.pending, written, decide_true, List.filter_cons_of_pos, List.map_cons,
          List.mem_cons]
        exact Or.inr member
      exact inv.last u _ found row wider
    · exact inv.last u other before row member
  · intro u other present
    rcases found_update present with ⟨rfl, rfl⟩ | ⟨apart, before⟩
    · exact accounted
    · apply accounted_of_same_versions (inv.accounted u other before)
      intro row member
      have elsewhere : row ≠ acc.origRow := fun same => others u other before apart (same ▸ member)
      change (Function.update s.rows acc.origRow _ row).manager.wts = _
      rw [Function.update_of_ne elsewhere]

omit [DecidableEq ρ] in
/-- A row read again is in the record already. -/
theorem accounted_reread (distinct : Function.Injective (fun row => (start row).primaryKey))
    {client : Client ρ α} (running : client.phase = .running) (accounted : client.Accounted start s.rows)
    {row : ρ} {pos : Nat} (found : client.man.recordPos (start row).primaryKey = some pos) :
    row ∈ client.copied.map Prod.fst := by
  obtain ⟨man, phase, copied, installs⟩ := client
  cases running
  obtain ⟨seen, member, same⟩ := accounted.2 _ pos found
  exact distinct same ▸ List.mem_map_of_mem member

omit [DecidableEq ρ] in
/-- The record of a transaction that copied a row for the first time. -/
theorem accounted_copied (latches : Latches start s) {man : TxnMan ρ α} {copied installs : List (ρ × α)}
    (accounted : (⟨man, .running, copied, installs⟩ : Client ρ α).Accounted start s.rows) (row : ρ)
    (type : AccessT) :
    (⟨man.record (s.rows row).primaryKey row type (s.rows row).data, .running,
      copied ++ [(row, (s.rows row).data)], installs⟩ : Client ρ α).Accounted start s.rows := by
  obtain ⟨covered, mapped⟩ := accounted
  simp only [Client.Accounted, TxnMan.record_accesses, TxnMan.record_recordPos, List.map_append,
    latches.primaryKey row]
  constructor
  · intro entry member
    rcases List.mem_append.mp member with known | last
    · exact List.mem_append_left _ (covered entry known)
    · exact List.mem_append_right _ (by simp [List.mem_singleton.mp last])
  · intro rid pos found
    by_cases here : rid = (start row).primaryKey
    · exact ⟨(row, (s.rows row).data), by simp, here.symm⟩
    · rw [Function.update_of_ne here] at found
      obtain ⟨seen, member, same⟩ := mapped rid pos found
      exact ⟨seen, List.mem_append_left _ member, same⟩

/-- Setting a latch changes no row's contents or version. -/
theorem same_setRow {row : ρ} {content : Row α} (data : content.data = (s.rows row).data)
    (wts : content.manager.wts = (s.rows row).manager.wts) (other : ρ) :
    ((s.setRow row content).rows other).data = (s.rows other).data ∧
      ((s.setRow row content).rows other).manager.wts = (s.rows other).manager.wts :=
  ⟨kept_setRow Row.data data other, kept_setRow (fun row => row.manager.wts) wts other⟩

/-- One step keeps the account, adding at most the commit it draws a timestamp for. -/
theorem chronicle_step (distinct : Function.Injective (fun row => (start row).primaryKey))
    (latches : Latches start s) (inv : Chronicle start s commits)
    {action : Action ρ α} (taken : Step s action next) :
    ∃ commits', Chronicle start next commits' := by
  cases step_cases taken with
  | begun => exact ⟨commits, chronicle_begin latches inv⟩
  | @reread t row type man copied installs pos acc client found entry =>
    have accounted := inv.accounted t _ client
    rw [latches.primaryKey row] at found
    have known : row ∈ copied.map Prod.fst := accounted_reread distinct rfl accounted found
    have unchanged : noteFirst copied row (some acc.data) = copied := if_pos known
    refine ⟨commits, inv.quiet client (fun _ => ⟨rfl, rfl⟩) (by simp) rfl (by simp [Client.drew])
      ⟨rfl, by simp [Client.pending]⟩ (fun _ member => Or.inl (unchanged ▸ member)) ?_⟩
    simp only [Client.Accounted, unchanged, man.upgrade_rows entry type, TxnMan.upgrade_recordPos]
    exact accounted
  | refused client =>
    exact ⟨commits, inv.quiet client (fun _ => ⟨rfl, rfl⟩) rfl rfl (fun _ => rfl)
      ⟨rfl, fun _ => rfl⟩ (fun _ member => Or.inl member) (inv.accounted _ _ client)⟩
  | @copied t row type man copied installs client missing free current =>
    have accounted := inv.accounted t _ client
    rw [latches.primaryKey row] at missing
    have fresh : row ∉ copied.map Prod.fst := by
      intro known
      obtain ⟨seen, member, rfl⟩ := List.mem_map.mp known
      obtain ⟨acc, inTable, same⟩ := List.mem_map.mp (accounted.1 seen member)
      exact (latches.tidy t _ client).1.1 acc inTable (same ▸ missing)
    have extended : noteFirst copied row (some (s.rows row).data) =
        copied ++ [(row, (s.rows row).data)] := if_neg fresh
    refine ⟨commits, inv.quiet client (fun _ => ⟨rfl, rfl⟩) rfl rfl (by simp [Client.drew])
      ⟨rfl, by simp [Client.pending]⟩ ?_ ?_⟩
    · intro entry member
      rcases List.mem_append.mp (extended ▸ member) with known | last
      · exact Or.inl known
      · rw [List.mem_singleton.mp last]
        refine Or.inr (replay_current inv ?_ current (inv.started t _ client).2)
        intro u other present pending
        rw [pending_latch latches present pending] at free
        cases free
    · rw [extended]
      exact accounted_copied latches accounted row type
  | @changed t row value man copied installs client =>
    refine ⟨commits, inv.quiet client (fun _ => ⟨rfl, rfl⟩) (by simp) rfl (by simp [Client.drew])
      ⟨rfl, by simp [Client.pending]⟩ (fun _ member => Or.inl member) ?_⟩
    simpa only [Client.Accounted, man.setLocal_rows, TxnMan.setLocal_recordPos] using
      inv.accounted t _ client
  | @sorted t man copied installs client =>
    refine ⟨commits, inv.quiet client (fun _ => ⟨rfl, rfl⟩) rfl rfl (by simp [Client.drew])
      ⟨rfl, by simp [Client.pending]⟩ (fun _ member => Or.inl member) ⟨?_, by simp [Client.holds]⟩⟩
    intro entry member
    have covered := (inv.accounted t _ client).1 entry member
    exact (((man.sortAccesses_perm s.rows).map Access.origRow).mem_iff).mpr covered
  | dropped client =>
    exact ⟨commits, inv.quiet client (fun _ => ⟨rfl, rfl⟩) rfl rfl (by simp [Client.drew])
      ⟨rfl, by simp [Client.pending]⟩ (fun _ member => Or.inl member) trivial⟩
  | @latched t man copied installs acc client entry free current =>
    obtain ⟨covered, valid⟩ := inv.accounted t _ client
    refine ⟨commits, inv.quiet client (same_setRow rfl rfl) rfl rfl (by simp [Client.drew])
      ⟨rfl, by simp [Client.pending]⟩ (fun _ member => Or.inl member) ⟨covered, ?_⟩⟩
    intro row member
    simp only [Client.holds, List.take_add_one, entry, Option.toList_some, List.map_append,
      List.mem_append] at member
    rcases member with before | last
    · exact valid row before
    · simp only [List.map_cons, List.map_nil, List.mem_singleton] at last
      exact last ▸ current
  | @failed t man copied installs acc client entry free =>
    exact ⟨commits, inv.quiet client (same_setRow rfl rfl) rfl rfl (by simp [Client.drew])
      ⟨rfl, by simp [Client.pending]⟩ (fun _ member => Or.inl member) trivial⟩
  | drew client finished => exact ⟨_, chronicle_draw latches inv client finished⟩
  | wrote client written => exact ⟨commits, chronicle_write latches inv client written⟩
  | @skipped t man copied installs acc todo client read =>
    have accounted : installs = writeSet man.accesses := inv.accounted t _ client
    exact ⟨commits, inv.quiet client (fun _ => ⟨rfl, rfl⟩) rfl rfl (fun _ => rfl)
      ⟨by simp [Client.pending, read], fun _ => rfl⟩ (fun _ member => Or.inl member) accounted⟩
  | returned client =>
    exact ⟨commits, inv.quiet client (fun _ => ⟨rfl, rfl⟩) rfl rfl (fun _ => rfl)
      ⟨rfl, by simp [Client.pending]⟩ (fun _ member => Or.inl member) trivial⟩
  | @released t man copied installs row held rc client =>
    exact ⟨commits, inv.quiet client (same_setRow rfl rfl) rfl rfl (fun _ => rfl)
      ⟨rfl, fun _ => rfl⟩ (fun _ member => Or.inl member) trivial⟩
  | ended client =>
    exact ⟨commits, inv.quiet client (fun _ => ⟨rfl, rfl⟩) rfl rfl (fun _ => rfl)
      ⟨rfl, fun _ => rfl⟩ (fun _ member => Or.inl member) trivial⟩

end DataAgentDB.Occ
