import DataAgentDB.Kv.Conflict

/-! The access tables of open transactions against the trace: the last value put for a key is in
the copy that will be written back, and a copy without a put is what the row still holds as
long as its check in `OptCC::validate` would pass. -/

namespace DataAgentDB.Kv
open Storage Server TxnMan LabelledRun

/-- Keys and values put fit their columns. -/
def StringsFit (event : Event) : Prop :=
  match event.call with
  | .put _ key value => Fits 127 key ∧ Fits 1023 value
  | _ => True

instance : (event : Event) → Decidable (StringsFit event)
  | ⟨.put _ key value, _⟩ => inferInstanceAs (Decidable (Fits 127 key ∧ Fits 1023 value))
  | ⟨.begin_txn, _⟩ | ⟨.get .., _⟩ | ⟨.commit _, _⟩ | ⟨.abort_txn _, _⟩ => .isTrue trivial

/-- The copy is of a key's head, and the transaction put that key. -/
def OwnPut (hash : Bytes → Nat) (trace : List Event) (s : Store) (t : Nat) (acc : Access Nat Columns) : Prop :=
  s.indexRead (hash acc.data.key) = some acc.origRow ∧ lastPut trace t acc.data.key ≠ none

/-- The access table of an open transaction. -/
structure Tracked (hash : Bytes → Nat) (trace : List Event) (s : Store) (t : Nat) (txn : Txn) : Prop where
  put : ∀ key value, lastPut trace t key = some value →
    ∃ row, s.indexRead (hash key) = some row ∧ ⟨.WR, row, ⟨key, value⟩⟩ ∈ txn.accesses
  unput : ∀ acc ∈ txn.accesses, ¬ OwnPut hash trace s t acc →
    (s.rows acc.origRow).manager.wts ≤ txn.startTs → acc.data = (s.rows acc.origRow).data

structure Recorded (hash : Bytes → Nat) (trace : List Event) (db : Db) : Prop where
  fresh : ∀ t, db.nextId ≤ t → ∀ key, lastPut trace t key = none
  tracked : ∀ t txn, db.txns t = some txn → Tracked hash trace db.store t txn

section Puts
variable {trace : List Event} {event : Event}

theorem lastPut_silent (trace : List Event) {t : Nat} {key : Bytes} (silent : event.puts t key = none) :
    lastPut (trace ++ [event]) t key = lastPut trace t key := by
  rw [lastPut_snoc, silent, Option.none_or]

theorem lastPut_put (trace : List Event) (t u : Nat) (key key' value : Bytes) :
    lastPut (trace ++ [⟨.put t key value, .code .OK⟩]) u key' =
      if u = t ∧ key' = key then some value else lastPut trace u key' := by
  rw [lastPut_snoc]
  by_cases same : t = u ∧ key = key'
  · obtain ⟨rfl, rfl⟩ := same
    simp [Event.puts]
  · have same' : ¬ (u = t ∧ key' = key) := fun both => same ⟨both.1.symm, both.2.symm⟩
    simp [Event.puts, same, same']

theorem lastPut_put_other (trace : List Event) {t u : Nat} (apart : u ≠ t) (key key' value : Bytes) :
    lastPut (trace ++ [⟨.put t key value, .code .OK⟩]) u key' = lastPut trace u key' := by
  rw [lastPut_put, if_neg (fun both => apart both.1)]

theorem mem_of_lastPut {t : Nat} {key value : Bytes} (last : lastPut trace t key = some value) :
    ⟨.put t key value, .code .OK⟩ ∈ trace := by
  obtain ⟨event, member, puts⟩ := List.mem_filterMap.mp (List.mem_of_getLast? last)
  unfold Event.puts at puts
  split at puts
  next =>
    split at puts
    next same =>
      obtain ⟨rfl, rfl⟩ := same
      cases puts
      exact member
    next => cases puts
  next => cases puts

end Puts

section Steps
variable {hash : Bytes → Nat} {db next : Db} {trace : List Event} {event : Event}

/-- Steps of others: the rows of the table stay, or get a version too new to commit on. -/
theorem Tracked.mono {s s' : Store} {trace' : List Event} {t : Nat} {txn : Txn}
    (tracked : Tracked hash trace s t txn) (same : ∀ key, lastPut trace' t key = lastPut trace t key)
    (kept : ∀ p row, s.indexRead p = some row → s'.indexRead p = some row)
    (rows : ∀ acc ∈ txn.accesses, (s'.rows acc.origRow).manager.wts ≤ txn.startTs →
      (s'.rows acc.origRow).manager.wts = (s.rows acc.origRow).manager.wts ∧
      (s'.rows acc.origRow).data = (s.rows acc.origRow).data) : Tracked hash trace' s' t txn where
  put := by
    intro key value last
    obtain ⟨row, head, member⟩ := tracked.put key value (same key ▸ last)
    exact ⟨row, kept _ _ head, member⟩
  unput := by
    intro acc member own current
    obtain ⟨version, data⟩ := rows acc member current
    rw [data]
    refine tracked.unput acc member (fun before => own ⟨kept _ _ before.1, ?_⟩) (version ▸ current)
    rw [same]
    exact before.2

theorem Tracked.put_at {s : Store} {t row : Nat} {txn : Txn} {key value : Bytes}
    (tracked : Tracked hash trace s t txn) (found : s.indexRead (hash key) = some row)
    (last : lastPut trace t key = some value) : ⟨.WR, row, ⟨key, value⟩⟩ ∈ txn.accesses := by
  obtain ⟨row', head, member⟩ := tracked.put key value last
  rw [found] at head
  cases head
  exact member

theorem Tracked.unput_of_absent {s : Store} {t : Nat} {txn : Txn} {key : Bytes}
    (tracked : Tracked hash trace s t txn) (absent : s.indexRead (hash key) = none) : lastPut trace t key = none := by
  by_contra present
  obtain ⟨value, last⟩ := Option.ne_none_iff_exists'.mp present
  obtain ⟨_, head, _⟩ := tracked.put key value last
  rw [absent] at head
  cases head

/-- A row fetched and not written to. -/
theorem Tracked.fetched {s : Store} {t row : Nat} {txn txn' : Txn} {type kind : AccessT} {copy : Columns}
    (tracked : Tracked hash trace s t txn) (fetched : Fetched s txn row type kind copy txn') :
    Tracked hash trace s t txn' where
  put := by
    intro key value last
    obtain ⟨row', head, member⟩ := tracked.put key value last
    refine ⟨row', head, (fetched.replaces _).mpr ?_⟩
    by_cases here : row' = row
    · subst here
      obtain ⟨rfl, raised, _⟩ := fetched.again _ member rfl
      rw [raised rfl]
      exact .inl rfl
    · exact .inr ⟨member, here⟩
  unput := by
    intro acc member own current
    rw [fetched.start] at current
    rcases (fetched.replaces acc).mp member with rfl | ⟨before, _⟩
    · by_cases known : ∃ old ∈ txn.accesses, old.origRow = row
      · obtain ⟨old, member', rfl⟩ := known
        obtain ⟨rfl, -⟩ := fetched.again old member' rfl
        exact tracked.unput old member' own current
      · exact (fetched.first (fun old member' here => known ⟨old, member', here⟩)).1
    · exact tracked.unput acc before own current

/-- A put of a key whose row is there. -/
theorem Tracked.updated {s : Store} {t row : Nat} {txn txn' txn'' : Txn} {kind : AccessT} {copy : Columns}
    {value : Bytes} (tracked : Tracked hash trace s t txn)
    (found : s.indexRead (hash copy.key) = some row)
    (fetched : Fetched s txn row .WR kind copy txn')
    (entered : Entered s txn row kind ⟨copy.key, value⟩ txn'') :
    Tracked hash (trace ++ [⟨.put t copy.key value, .code .OK⟩]) s t txn'' where
  put := by
    intro key last value'
    rw [lastPut_put] at value'
    split at value'
    next here =>
      obtain ⟨_, rfl⟩ := here
      cases value'
      refine ⟨row, found, (entered.replaces _).mpr (.inl ?_)⟩
      rw [fetched.written rfl]
    next other =>
      obtain ⟨row', head, member⟩ := tracked.put key last value'
      refine ⟨row', head, (entered.replaces _).mpr (.inr ⟨member, fun here => ?_⟩)⟩
      obtain ⟨rfl, -⟩ := fetched.again _ member here
      exact other ⟨rfl, rfl⟩
  unput := by
    intro acc member own current
    rw [entered.start] at current
    rcases (entered.replaces acc).mp member with rfl | ⟨before, _⟩
    · refine absurd ⟨found, ?_⟩ own
      simp [lastPut_put]
    · refine tracked.unput acc before (fun put => own ⟨put.1, ?_⟩) current
      rw [lastPut_put]
      split
      · simp
      · exact put.2

/-- A put of an absent key. -/
theorem Tracked.grown {s : Store} {t : Nat} {txn : Txn} {key value : Bytes}
    (tracked : Tracked hash trace s t txn) (absent : s.indexRead (hash key) = none)
    (bounded : ∀ row ∈ txn.accesses.map Access.origRow, row < s.curTabSize) :
    Tracked hash (trace ++ [⟨.put t key value, .code .OK⟩]) (s.load (hash key) ⟨key, value⟩) t
      { txn.record (hash key) s.curTabSize .WR ⟨key, value⟩ with
        insertRows := txn.insertRows ++ [s.curTabSize] } where
  put := by
    intro key' value' last
    rw [lastPut_put] at last
    split at last
    next here =>
      obtain ⟨_, rfl⟩ := here
      cases last
      exact ⟨s.curTabSize, (load_indexRead _ _ _ _).trans (if_pos rfl), by simp⟩
    next =>
      obtain ⟨row, head, member⟩ := tracked.put key' value' last
      exact ⟨row, (extends_load _ absent).kept _ _ head, List.mem_append_left _ member⟩
  unput := by
    intro acc member own current
    rcases List.mem_append.mp member with before | last
    · have old := bounded _ (List.mem_map_of_mem before)
      rw [load_rows_old _ _ old] at current ⊢
      refine tracked.unput acc before (fun put => own ⟨(extends_load _ absent).kept _ _ put.1, ?_⟩) current
      rw [lastPut_put]
      split
      · simp
      · exact put.2
    · cases List.mem_singleton.mp last
      exact absurd ⟨(load_indexRead _ _ _ _).trans (if_pos rfl), by simp [lastPut_put]⟩ own

theorem silent_of_call (quiet : ∀ t key value, event.call ≠ .put t key value) (t : Nat) (key : Bytes) :
    event.puts t key = none := by
  unfold Event.puts
  split
  next t' key' value => exact absurd rfl (quiet t' key' value)
  next => rfl

theorem silent_of_answer (refused : event.answer ≠ .code .OK) (t : Nat) (key : Bytes) :
    event.puts t key = none := by
  unfold Event.puts
  split
  next => exact absurd rfl refused
  next => rfl

/-- A call without a put that leaves the store as it was. -/
theorem Recorded.idle (recorded : Recorded hash trace db) (silent : ∀ t key, event.puts t key = none) :
    Recorded hash (trace ++ [event]) db where
  fresh := by
    intro t unused key
    rw [lastPut_silent trace (silent t key)]
    exact recorded.fresh t unused key
  tracked := fun t txn opened => (recorded.tracked t txn opened).mono
    (fun key => lastPut_silent trace (silent t key)) (fun _ _ found => found) (fun _ _ _ => ⟨rfl, rfl⟩)

/-- A call of one transaction that changes its table only. -/
theorem Recorded.setTxn (recorded : Recorded hash trace db) {t : Nat} {txn txn' : Txn}
    (opened : db.txns t = some txn) (used : t < db.nextId)
    (others : ∀ u, u ≠ t → ∀ key, lastPut (trace ++ [event]) u key = lastPut trace u key)
    (tracked : Tracked hash (trace ++ [event]) db.store t txn') :
    Recorded hash (trace ++ [event]) (db.setTxn t (some txn')) where
  fresh := by
    intro u unused key
    have apart : u ≠ t := fun same => absurd used (Nat.not_lt.mpr (same ▸ unused))
    rw [others u apart]
    exact recorded.fresh u unused key
  tracked := by
    intro u other found
    rcases found_txn found with ⟨rfl, same⟩ | ⟨apart, before⟩
    · cases same
      exact tracked
    · exact (recorded.tracked u other before).mono (others u apart) (fun _ _ head => head)
        (fun _ _ _ => ⟨rfl, rfl⟩)

theorem Recorded.fetched (recorded : Recorded hash trace db) {t row : Nat} {txn txn' : Txn}
    {type kind : AccessT} {copy : Columns} (sound : Sound db) (silent : ∀ t key, event.puts t key = none)
    (opened : db.txns t = some txn) (fetched : Fetched db.store txn row type kind copy txn') :
    Recorded hash (trace ++ [event]) (db.setTxn t (some txn')) :=
  recorded.setTxn opened (sound.opened t txn opened).1 (fun u _ key => lastPut_silent trace (silent u key))
    (((recorded.idle silent).tracked t txn opened).fetched fetched)

theorem Recorded.grown (recorded : Recorded hash trace db) (sound : Sound db) {t : Nat} {txn : Txn}
    {key value : Bytes} (opened : db.txns t = some txn) (absent : db.store.indexRead (hash key) = none) :
    Recorded hash (trace ++ [⟨.put t key value, .code .OK⟩])
      (db.grown t txn (hash key) ⟨key, value⟩) where
  fresh := by
    intro u unused key'
    have apart : u ≠ t := fun same => absurd (sound.opened t txn opened).1 (Nat.not_lt.mpr (same ▸ unused))
    rw [lastPut_put_other trace apart]
    exact recorded.fresh u unused key'
  tracked := by
    intro u other found
    rcases found_txn found with ⟨rfl, same⟩ | ⟨apart, before⟩
    · cases same
      exact (recorded.tracked u txn opened).grown absent (sound.bounded opened)
    · refine (recorded.tracked u other before).mono (fun key' => lastPut_put_other trace apart key key' value)
        (extends_load _ absent).kept (fun acc member _ => ?_)
      have old := sound.bounded before _ (List.mem_map_of_mem member)
      exact ⟨congrArg (fun row => row.manager.wts) (load_rows_old _ _ old),
        congrArg Row.data (load_rows_old _ _ old)⟩

/-- A transaction ends, and the rows it wrote back are too new for the others. -/
theorem Recorded.ended (recorded : Recorded hash trace db) (t : Nat)
    (silent : ∀ t key, event.puts t key = none) {rows : Nat → Row Columns} {ts : Nat}
    (versions : ∀ u txn row, db.txns u = some txn → (rows row).manager.wts ≤ txn.startTs →
      (rows row).manager.wts = (db.store.rows row).manager.wts ∧ (rows row).data = (db.store.rows row).data) :
    Recorded hash (trace ++ [event])
      ({ db with store := { db.store with rows := rows, timestamp := ts } }.setTxn t none) where
  fresh := (recorded.idle silent).fresh
  tracked := by
    intro u txn found
    rcases found_txn found with ⟨_, gone⟩ | ⟨_, before⟩
    · cases gone
    · exact (recorded.tracked u txn before).mono (fun key => lastPut_silent trace (silent u key))
        (fun _ _ head => head) (fun acc _ current => versions u txn acc.origRow before current)

theorem Recorded.dropped (recorded : Recorded hash trace db) (t : Nat) (txn : Txn)
    (silent : ∀ t key, event.puts t key = none) : Recorded hash (trace ++ [event]) (db.dropped t txn) := by
  refine recorded.ended t silent (fun u other row _ _ => ?_)
  obtain ⟨_, data, manager, _⟩ := freed_frame txn.insertRows db.store.rows row
  exact ⟨congrArg RowOcc.wts manager, data⟩

theorem Recorded.installed (recorded : Recorded hash trace db) (sound : Sound db) {t : Nat} {txn : Txn}
    (opened : db.txns t = some txn) (silent : ∀ t key, event.puts t key = none) :
    Recorded hash (trace ++ [event]) (db.installed t txn) := by
  refine recorded.ended t silent (fun u other row found current => ?_)
  have nodup := (sound.opened t txn opened).2.nodup
  rcases wroteBack_cases nodup db.store.rows db.store.timestamp row with ⟨acc, _, rfl, _, same⟩ | ⟨_, same⟩
  · rw [same] at current
    exact absurd (sound.opened u other found).2.started (Nat.not_lt.mpr current)
  · rw [same]
    exact ⟨rfl, rfl⟩

theorem Recorded.begun (recorded : Recorded hash trace db) (silent : ∀ t key, event.puts t key = none) :
    Recorded hash (trace ++ [event])
      { db.setTxn db.nextId (some (TxnMan.init db.store.timestamp)) with
        store := { db.store with timestamp := db.store.timestamp + 1 }, nextId := db.nextId + 1 } where
  fresh := fun t unused => (recorded.idle silent).fresh t (Nat.le_of_succ_le unused)
  tracked := by
    intro u txn found
    have quiet := fun key => lastPut_silent trace (silent u key)
    rcases found_txn found with ⟨rfl, same⟩ | ⟨_, before⟩
    · cases same
      refine ⟨fun key value last => ?_, fun acc member => (nomatch member)⟩
      rw [quiet, recorded.fresh _ le_rfl] at last
      cases last
    · exact (recorded.tracked u txn before).mono quiet (fun _ _ head => head) (fun _ _ _ => ⟨rfl, rfl⟩)

theorem recorded_did (recorded : Recorded hash trace db) (sound : Sound db) (fits : StringsFit event)
    (did : Did hash db event next) : Recorded hash (trace ++ [event]) next := by
  cases did with
  | begun => exact recorded.begun (silent_of_call (by simp))
  | closed => exact recorded.idle (silent_of_answer (by simp))
  | missing => exact recorded.idle (silent_of_answer (by simp))
  | getConflict => exact recorded.idle (silent_of_answer (by simp))
  | putConflict => exact recorded.idle (silent_of_answer (by simp))
  | getMismatch opened _ _ fetched | got opened _ _ fetched | putMismatch opened _ _ fetched =>
    exact recorded.fetched sound (silent_of_answer (by simp)) opened fetched
  | @updated t key value txn txn' _ row kind copy opened found _ fetched same entered =>
    obtain ⟨short, short'⟩ := fits
    rw [cStr_of_no_nul short.2] at same
    subst same
    rw [strncpy_of_fits short'] at entered
    refine recorded.setTxn opened (sound.opened _ _ opened).1
      (fun u apart key => lastPut_put_other trace apart _ key value) ?_
    exact (recorded.tracked t txn opened).updated found fetched entered
  | inserted opened absent =>
    obtain ⟨short, short'⟩ := fits
    rw [strncpy_of_fits short, strncpy_of_fits short']
    exact recorded.grown sound opened absent
  | committed opened => exact recorded.installed sound opened (silent_of_call (by simp))
  | failed => exact recorded.dropped _ _ (silent_of_call (by simp))
  | aborted => exact recorded.dropped _ _ (silent_of_call (by simp))

end Steps

theorem recorded_run {hash : Bytes → Nat} {file : List (Bytes × Bytes)} {trace : List Event} {db : Db}
    {allowed : List Event → Db → Event → Prop}
    (fit : ∀ trace db event, allowed trace db event → StringsFit event)
    (run : Run (Step hash) allowed (initial hash file) trace db) : Sound db ∧ Recorded hash trace db := by
  refine run.invariant (fun trace db => Sound db ∧ Recorded hash trace db)
    ⟨initial_sound hash file, fun _ _ _ => rfl, fun _ _ found => (nomatch found)⟩ ?_
  rintro trace db event next ⟨sound, recorded⟩ fits taken
  have did := did_of_step sound taken
  exact ⟨sound_did sound did, recorded_did recorded sound (fit trace db event fits) did⟩

end DataAgentDB.Kv
