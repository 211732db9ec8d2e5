import DataAgentDB.Kv.Sound

/-! The bounds of a transaction's access table. `insert_row` asserts that there is room; `get_row`
takes the next entry of `accesses` without a check. -/

namespace DataAgentDB.Storage.TxnMan
variable {ρ α : Type}

/-- The entry of `accesses` that `get_row` uses for a row of that primary key. -/
def slot (txn : TxnMan ρ α) (rid : Nat) : Nat := (txn.recordPos rid).getD txn.rowCnt

/-- The counters of a table that has not overflown. -/
structure Bounded (txn : TxnMan ρ α) : Prop where
  rows : txn.rowCnt ≤ MAX_ROW_PER_TXN
  inserts : txn.insertRows.length ≤ txn.rowCnt
  places : ∀ rid pos, txn.recordPos rid = some pos → pos < txn.rowCnt

theorem bounded_init (startTs : Nat) : (init startTs : TxnMan ρ α).Bounded where
  rows := Nat.zero_le _
  inserts := le_rfl
  places := fun _ _ found => (nomatch found)

theorem Bounded.of_same {txn txn' : TxnMan ρ α} (bounds : txn.Bounded) (rows : txn'.rowCnt = txn.rowCnt)
    (inserts : txn'.insertRows = txn.insertRows) (places : txn'.recordPos = txn.recordPos) :
    txn'.Bounded where
  rows := by
    rw [rows]
    exact bounds.rows
  inserts := by
    rw [rows, inserts]
    exact bounds.inserts
  places := by
    rw [rows, places]
    exact bounds.places

theorem upgrade_rowCnt (txn : TxnMan ρ α) {pos : Nat} {acc : Access ρ α}
    (entry : txn.accesses[pos]? = some acc) (type : AccessT) :
    (txn.upgrade pos acc type).rowCnt = txn.rowCnt := by
  have same := congrArg List.length (txn.upgrade_rows entry type)
  simpa only [rowCnt, List.length_map] using same

theorem setLocal_rowCnt (txn : TxnMan ρ α) (rid : Nat) (value : α → α) :
    (txn.setLocal rid value).rowCnt = txn.rowCnt := by
  have same := congrArg List.length (txn.setLocal_rows rid value)
  simpa only [rowCnt, List.length_map] using same

theorem Bounded.setLocal {txn : TxnMan ρ α} (bounds : txn.Bounded) (rid : Nat) (value : α → α) :
    (txn.setLocal rid value).Bounded :=
  bounds.of_same (setLocal_rowCnt txn rid value) (by simp) (by simp)

theorem record_rowCnt (txn : TxnMan ρ α) (rid : Nat) (row : ρ) (type : AccessT) (copy : α) :
    (txn.record rid row type copy).rowCnt = txn.rowCnt + 1 := by
  simp [rowCnt]

theorem Bounded.record {txn : TxnMan ρ α} (bounds : txn.Bounded) (room : txn.rowCnt < MAX_ROW_PER_TXN) (rid : Nat)
    (row : ρ) (type : AccessT) (copy : α) : (txn.record rid row type copy).Bounded where
  rows := by
    rw [record_rowCnt]
    exact room
  inserts := by
    rw [record_rowCnt]
    exact Nat.le_succ_of_le bounds.inserts
  places := by
    intro other pos found
    rw [record_rowCnt]
    rw [record_recordPos] at found
    by_cases here : other = rid
    · subst here
      rw [Function.update_self] at found
      cases found
      exact Nat.lt_succ_self _
    · rw [Function.update_of_ne here] at found
      exact Nat.lt_succ_of_lt (bounds.places other pos found)

/-- What `get_row` does to the table: an entry below the bound was used, and it still fits. -/
theorem Bounded.getRow {txn next : TxnMan ρ α} {rows : ρ → Row α} {row : ρ} {type : AccessT}
    {result : Option α}
    (bounds : txn.Bounded) (taken : txn.getRow rows row type = some (result, next)) :
    next.Bounded ∧ txn.slot (rows row).primaryKey < MAX_ROW_PER_TXN := by
  obtain ⟨-, kind⟩ := getRow_cases taken
  cases kind with
  | hit found entry =>
    refine ⟨bounds.of_same (upgrade_rowCnt txn entry type) (by simp) (by simp), ?_⟩
    rw [slot, found]
    exact (bounds.places _ _ found).trans_le bounds.rows
  | abort missing room =>
    rw [slot, missing]
    exact ⟨bounds, room⟩
  | copied missing room =>
    rw [slot, missing]
    exact ⟨bounds.record room _ row type _, room⟩

/-- `get_row` completes on a live row whose mutex is free, when its entry is below the bound. -/
theorem Bounded.getRow_completes {txn : TxnMan ρ α} {rows : ρ → Row α} {row : ρ} (bounds : txn.Bounded)
    (type : AccessT) (live : (rows row).live = true) (free : (rows row).manager.latch = none)
    (room : txn.recordPos (rows row).primaryKey = none → txn.rowCnt < MAX_ROW_PER_TXN) :
    ∃ result next, txn.getRow rows row type = some (result, next) := by
  unfold TxnMan.getRow
  rw [if_pos live]
  dsimp only
  cases place : txn.recordPos (rows row).primaryKey with
  | some pos =>
    have entry : txn.accesses[pos]? = some _ := List.getElem?_eq_getElem (bounds.places _ pos place)
    simp only [entry]
    exact ⟨_, _, rfl⟩
  | none =>
    have outcome : ∃ result, (rows row).access txn.startTs = some result := ⟨_, by rw [Row.access, free]⟩
    obtain ⟨result, outcome⟩ := outcome
    simp only [room place, ↓reduceIte, outcome]
    cases result <;> exact ⟨_, _, rfl⟩

/-- `insert_row` after a new entry in the table: its assertion holds, and the table still fits. -/
theorem Bounded.insertRow {txn next : TxnMan ρ α} {row : ρ} (bounds : txn.Bounded)
    (entered : txn.insertRows.length < txn.rowCnt) (added : txn.insertRow row = some next) : next.Bounded := by
  unfold TxnMan.insertRow at added
  split at added
  next =>
    cases added
    refine ⟨bounds.rows, ?_, bounds.places⟩
    show (txn.insertRows ++ [row]).length ≤ txn.rowCnt
    rw [List.length_append]
    exact entered
  next => cases added

end DataAgentDB.Storage.TxnMan

namespace DataAgentDB.Kv
open Storage Server TxnMan LabelledRun

/-- The primary key of the row that a call passes to `get_row`. -/
def Store.accessed (hash : Bytes → Nat) (s : Store) : Call → Option Nat
  | .get _ key => (s.indexRead (hash key)).map (fun row => (s.rows row).primaryKey)
  | .put _ key _ =>
      some (match s.indexRead (hash key) with
        | none => hash key
        | some row => (s.rows row).primaryKey)
  | _ => none

/-- Whether a call reaches `insert_row`. -/
def Store.inserts (hash : Bytes → Nat) (s : Store) : Call → Bool
  | .put _ key _ => (s.indexRead (hash key)).isNone
  | _ => false

def Call.accesses : Call → Bool
  | .get _ _ | .put _ _ _ => true
  | _ => false

/-- An answer of a call that did not do what it was asked. -/
def Answer.refuses : Answer → Bool
  | .code .OK | .value _ | .begun _ => false
  | .code _ => true

/-- The call refuses, and leaves the counters and the map of the transaction and the index. -/
def RefusedUnchanged (hash : Bytes → Nat) (db : Db) (t : Nat) (txn : Txn) (call : Call) : Prop :=
  ∃ answer next txn', db.perform hash call = some (answer, next) ∧ answer.refuses = true ∧
    next.store.index = db.store.index ∧ next.txns t = some txn' ∧ txn'.rowCnt = txn.rowCnt ∧
    txn'.wrCnt = txn.wrCnt ∧ txn'.insertRows.length = txn.insertRows.length ∧ txn'.recordPos = txn.recordPos

/-- A call of an open transaction stays within the arrays, and is refused when they are full. -/
structure WithinTable (hash : Bytes → Nat) (db : Db) (t : Nat) (txn : Txn) (call : Call) : Prop where
  accesses : ∀ p ∈ db.store.accessed hash call, txn.slot p < MAX_ROW_PER_TXN
  insertRows : db.store.inserts hash call = true → txn.insertRows.length < MAX_ROW_PER_TXN
  full : txn.rowCnt = MAX_ROW_PER_TXN → (∀ p ∈ db.store.accessed hash call, txn.recordPos p = none) →
    RefusedUnchanged hash db t txn call

/-- A row not in the table yet is accessed while the table has room. -/
def HasRoom (hash : Bytes → Nat) (s : Store) (txn : Txn) (call : Call) : Prop :=
  ∀ p ∈ s.accessed hash call, txn.recordPos p = none → txn.rowCnt < MAX_ROW_PER_TXN

section Steps
variable {hash : Bytes → Nat} {db next : Db} {t : Nat} {txn : Txn}

/-- A key without a head in the index is not in the table. -/
theorem Opened.absent {s : Store} (opened : Opened s txn) {p : Nat} (absent : s.indexRead p = none) :
    txn.recordPos p = none := by
  cases place : txn.recordPos p with
  | none => rfl
  | some pos =>
    obtain ⟨_, _, head⟩ := opened.entry place
    rw [absent] at head
    cases head

theorem bounded_read {s : Store} {p : Nat} {key value : Bytes} {rc : RC} {txn' : Txn} (bounds : txn.Bounded)
    (taken : s.read txn p key = some (rc, value, txn')) : txn'.Bounded := by
  unfold Store.read at taken
  split at taken
  next => cases taken; exact bounds
  next row found =>
    split at taken
    next => cases taken
    next outcome => cases taken; exact (bounds.getRow outcome).1
    next outcome =>
      have kept := (bounds.getRow outcome).1
      split at taken <;> (cases taken; exact kept)

theorem bounded_write {s s' : Store} {p : Nat} {key value : Bytes} {rc : RC} {txn' : Txn}
    (opened : Opened s txn) (bounds : txn.Bounded) (taken : s.write txn p key value = some (rc, s', txn')) :
    txn'.Bounded := by
  unfold Store.write Store.writeAt at taken
  cases found : s.indexRead p with
  | none =>
    rw [found] at taken
    dsimp only at taken
    split at taken
    next => cases taken
    next outcome => cases taken; exact (bounds.getRow outcome).1
    next copy txn₁ outcome =>
      have kept := (bounds.getRow outcome).1
      obtain ⟨-, rfl⟩ := getRow_new opened found (getRow_cases outcome).2
      split at taken
      next => cases taken
      next txn₂ added =>
        cases taken
        rw [setLocal_record] at added
        exact kept.insertRow (Nat.lt_of_le_of_lt bounds.inserts (record_rowCnt ..).ge) added
  | some row =>
    rw [found] at taken
    dsimp only at taken
    split at taken
    next => cases taken
    next outcome => cases taken; exact (bounds.getRow outcome).1
    next copy txn₁ outcome =>
      have kept := (bounds.getRow outcome).1
      split at taken
      next => cases taken; exact kept
      next => cases taken; exact kept.setLocal _ _

/-- A get or put that completes used entries below the bound. -/
theorem hasRoom_of_perform (opened : db.txns t = some txn) (bounds : txn.Bounded)
    {call : Call} {answer : Answer} (target : call.target = some t)
    (performed : db.perform hash call = some (answer, next)) : HasRoom hash db.store txn call := by
  have first : ∀ p, txn.slot p < MAX_ROW_PER_TXN → txn.recordPos p = none →
      txn.rowCnt < MAX_ROW_PER_TXN := by
    intro p below missing
    rw [slot, missing] at below
    exact below
  intro p accessed
  cases call with
  | get t' key =>
    cases target
    obtain ⟨row, found, rfl⟩ := Option.map_eq_some_iff.mp accessed
    simp only [Db.perform, Db.get, opened, Store.read, found] at performed
    apply first
    split at performed
    next => cases performed
    next outcome =>
      split at outcome
      next => cases outcome
      next access => exact (bounds.getRow access).2
      next access => exact (bounds.getRow access).2
  | put t' key value =>
    cases target
    cases accessed
    simp only [Db.perform, Db.put, opened, Store.write, Store.writeAt] at performed
    apply first
    split at performed
    next => cases performed
    next outcome =>
      cases found : db.store.indexRead (hash key) with
      | none =>
        rw [found] at outcome
        dsimp only at outcome ⊢
        have fresh : (db.store.newRow (hash key) ⟨strncpy key 127, strncpy value 1023⟩).rows
            db.store.curTabSize = ⟨bytes "Data_TABLE", hash key, _, RowOcc.init, true⟩ :=
          Function.update_self _ _ _
        split at outcome
        next => cases outcome
        next access =>
          have below := (bounds.getRow access).2
          rwa [fresh] at below
        next access =>
          have below := (bounds.getRow access).2
          rwa [fresh] at below
      | some row =>
        rw [found] at outcome
        dsimp only at outcome ⊢
        split at outcome
        next => cases outcome
        next access => exact (bounds.getRow access).2
        next access => exact (bounds.getRow access).2
  | _ => cases accessed

theorem bounded_setTxn {given : Option Txn} (bounds : ∀ u txn, db.txns u = some txn → txn.Bounded)
    (held : ∀ txn, given = some txn → txn.Bounded) :
    ∀ u txn, Function.update db.txns t given u = some txn → txn.Bounded := by
  intro u txn found
  rcases found_txn found with ⟨-, same⟩ | ⟨-, before⟩
  · exact held txn same
  · exact bounds u txn before

theorem bounded_finish {rc rc' : RC} (bounds : ∀ u txn, db.txns u = some txn → txn.Bounded)
    (finished : db.finish t txn rc = some (rc', next)) : ∀ u txn, next.txns u = some txn → txn.Bounded := by
  unfold Db.finish at finished
  split at finished
  next => cases finished
  next =>
    cases finished
    exact bounded_setTxn bounds (fun _ gone => (nomatch gone))

/-- A call keeps every table within its bounds. -/
theorem bounded_perform (sound : Sound db) (bounds : ∀ u txn, db.txns u = some txn → txn.Bounded) {call : Call}
    {answer : Answer} (performed : db.perform hash call = some (answer, next)) :
    ∀ u txn, next.txns u = some txn → txn.Bounded := by
  cases call with
  | begin_txn =>
    cases performed
    refine bounded_setTxn bounds (fun txn same => ?_)
    cases same
    exact bounded_init _
  | get t key =>
    unfold Db.perform Db.get at performed
    dsimp only at performed
    split at performed
    next => cases performed; exact bounds
    next txn opened =>
      split at performed
      next => cases performed
      next rc value txn' outcome =>
        cases performed
        refine bounded_setTxn bounds (fun txn same => ?_)
        cases same
        exact bounded_read (bounds t _ opened) outcome
  | put t key value =>
    unfold Db.perform Db.put at performed
    dsimp only at performed
    split at performed
    next => cases performed; exact bounds
    next txn opened =>
      split at performed
      next => cases performed
      next rc store txn' outcome =>
        cases performed
        refine bounded_setTxn bounds (fun txn same => ?_)
        cases same
        exact bounded_write (sound.opened t _ opened).2 (bounds t _ opened) outcome
  | commit t =>
    unfold Db.perform Db.commit at performed
    dsimp only at performed
    split at performed
    next => cases performed; exact bounds
    next txn opened =>
      split at performed
      next => cases performed
      next finished => cases performed; exact bounded_finish bounds finished
  | abort_txn t =>
    unfold Db.perform Db.abort_txn at performed
    dsimp only at performed
    split at performed
    next => cases performed; exact bounds
    next txn opened =>
      split at performed
      next => cases performed
      next finished => cases performed; exact bounded_finish bounds finished

theorem bounded_run {file : List (Bytes × Bytes)} {trace : List Event}
    (run : Run (Step hash) Always (initial hash file) trace db) :
    ∀ t txn, db.txns t = some txn → txn.Bounded := by
  have both := run.invariant (fun _ db => Sound db ∧ ∀ t txn, db.txns t = some txn → txn.Bounded)
    ⟨initial_sound hash file, fun _ _ found => (nomatch found)⟩
    (fun _ _ _ _ held _ taken => ⟨sound_did held.1 (did_of_step held.1 taken),
      bounded_perform held.1 held.2 (perform_of_step taken)⟩)
  exact both.2

/-- A get of an absent key is refused whatever the table holds. -/
theorem refused_missing (opened : db.txns t = some txn) {key : Bytes}
    (absent : db.store.indexRead (hash key) = none) : RefusedUnchanged hash db t txn (.get t key) := by
  have performed : db.perform hash (.get t key) = some (.code .NOT_FOUND, db.setTxn t (some txn)) := by
    simp [Db.perform, Db.get, opened, Store.read, absent, Rc.ofRead]
  exact ⟨_, _, txn, performed, rfl, rfl, Function.update_self _ _ _, rfl, rfl, rfl, rfl⟩

theorem withinTable_iff (sound : Sound db) (opened : db.txns t = some txn) (bounds : txn.Bounded) {call : Call}
    (target : call.target = some t) (accesses : call.accesses = true) :
    WithinTable hash db t txn call ↔ HasRoom hash db.store txn call := by
  constructor
  · intro within p accessed missing
    have below := within.accesses p accessed
    rwa [slot, missing] at below
  · intro room
    have below : ∀ p ∈ db.store.accessed hash call, txn.slot p < MAX_ROW_PER_TXN := by
      intro p accessed
      cases place : txn.recordPos p with
      | none =>
        rw [slot, place]
        exact room p accessed place
      | some pos =>
        rw [slot, place]
        exact (bounds.places p pos place).trans_le bounds.rows
    have unfilled : ∀ p ∈ db.store.accessed hash call, (∀ p ∈ db.store.accessed hash call,
        txn.recordPos p = none) → txn.rowCnt < MAX_ROW_PER_TXN :=
      fun p accessed new => room p accessed (new p accessed)
    refine ⟨below, fun inserts => ?_, fun full new => ?_⟩
    · cases call with
      | put t' key value =>
        have absent := Option.isNone_iff_eq_none.mp inserts
        have missing := (sound.opened t txn opened).2.absent absent
        have accessed : hash key ∈ db.store.accessed hash (.put t' key value) := by
          simp [Store.accessed, absent]
        exact bounds.inserts.trans_lt (room _ accessed missing)
      | _ => cases inserts
    · cases accessed : db.store.accessed hash call with
      | some p =>
        exact absurd full (unfilled p accessed new).ne
      | none =>
        cases call with
        | get t' key =>
          cases target
          exact refused_missing opened (Option.map_eq_none_iff.mp accessed)
        | put t' key value => cases accessed
        | _ => cases accesses

theorem read_completes {s : Store} {p : Nat} (key : Bytes)
    (copies : ∀ row, s.indexRead p = some row → ∃ result, txn.getRow s.rows row .RD = some result) :
    ∃ result, s.read txn p key = some result := by
  unfold Store.read
  cases found : s.indexRead p with
  | none => exact ⟨_, rfl⟩
  | some row =>
    obtain ⟨⟨result, next⟩, taken⟩ := copies row found
    simp only [taken]
    cases result with
    | none => exact ⟨_, rfl⟩
    | some copy =>
      by_cases differs : strcmp copy.key (cStr key) ≠ 0
      · simp only [if_pos differs]
        exact ⟨_, rfl⟩
      · simp only [if_neg differs]
        exact ⟨_, rfl⟩

theorem update_completes {s : Store} {row : Nat} (p : Nat) (key value : Bytes)
    (copies : ∃ result, txn.getRow s.rows row .WR = some result) :
    ∃ result, s.writeAt txn (some row) p key value = some result := by
  obtain ⟨⟨result, next⟩, taken⟩ := copies
  simp only [Store.writeAt, taken]
  cases result with
  | none => exact ⟨_, rfl⟩
  | some copy =>
    by_cases differs : strcmp copy.key (cStr key) ≠ 0
    · simp only [if_pos differs]
      exact ⟨_, rfl⟩
    · simp only [if_neg differs]
      exact ⟨_, rfl⟩

theorem insert_completes {s : Store} {p : Nat} (opened : Opened s txn) (bounds : txn.Bounded)
    (absent : s.indexRead p = none) (room : txn.rowCnt < MAX_ROW_PER_TXN) (key value : Bytes) :
    ∃ result, s.writeAt txn none p key value = some result := by
  have fresh : (s.newRow p ⟨strncpy key 127, strncpy value 1023⟩).rows s.curTabSize =
      ⟨bytes "Data_TABLE", p, _, RowOcc.init, true⟩ :=
    Function.update_self _ _ _
  have copies : ∃ result next, txn.getRow (s.newRow p ⟨strncpy key 127, strncpy value 1023⟩).rows
      s.curTabSize .WR = some (result, next) :=
    bounds.getRow_completes .WR (by rw [fresh]) (by rw [fresh]; rfl) (fun _ => room)
  obtain ⟨result, next, taken⟩ := copies
  obtain ⟨rfl, rfl⟩ := getRow_new opened absent (getRow_cases taken).2
  have asserted : txn.insertRows.length < MAX_ROW_PER_TXN := bounds.inserts.trans_lt room
  simp only [Store.writeAt, taken, setLocal_record, insertRow, record_insertRows, asserted, ↓reduceIte]
  exact ⟨_, rfl⟩

/-- A get or a put completes when its row is live and its entry is below the bound. -/
theorem completes_of_hasRoom (sound : Sound db) (opened : db.txns t = some txn) (bounds : txn.Bounded)
    {call : Call} (target : call.target = some t) (accesses : call.accesses = true)
    (live : ∀ p ∈ db.store.accessed hash call, ∀ row, db.store.indexRead p = some row →
      (db.store.rows row).live = true) (room : HasRoom hash db.store txn call) :
    ∃ answer next, Step hash db ⟨call, answer⟩ next := by
  have here := (sound.opened t txn opened).2
  have copies : ∀ (type : AccessT) p row, p ∈ db.store.accessed hash call →
      db.store.indexRead p = some row → ∃ result, txn.getRow db.store.rows row type = some result := by
    intro type p row accessed found
    obtain ⟨result, next, taken⟩ := bounds.getRow_completes type (live p accessed row found)
      (sound.free row) (by rw [sound.key_of_indexRead found]; exact room p accessed)
    exact ⟨_, taken⟩
  have completes : ∃ result, db.perform hash call = some result := by
    cases call with
    | get t' key =>
      cases target
      have done : ∃ result, db.store.read txn (hash key) key = some result := by
        refine read_completes key (fun row found => copies .RD _ row ?_ found)
        simp [Store.accessed, found, sound.key_of_indexRead found]
      obtain ⟨⟨rc, value, next⟩, done⟩ := done
      simp only [Db.perform, Db.get, opened, done]
      exact ⟨_, rfl⟩
    | put t' key value =>
      cases target
      have done : ∃ result, db.store.write txn (hash key) key value = some result := by
        unfold Store.write
        cases found : db.store.indexRead (hash key) with
        | none =>
          have accessed : hash key ∈ db.store.accessed hash (.put t key value) := by
            simp [Store.accessed, found]
          exact insert_completes here bounds found (room _ accessed (here.absent found)) key value
        | some row =>
          refine update_completes _ key value (copies .WR _ row ?_ found)
          simp [Store.accessed, found, sound.key_of_indexRead found]
      obtain ⟨⟨rc, store, next⟩, done⟩ := done
      simp only [Db.perform, Db.put, opened, done]
      exact ⟨_, rfl⟩
    | _ => cases accesses
  obtain ⟨⟨answer, next⟩, performed⟩ := completes
  exact ⟨answer, next, step_of_perform performed⟩

/-- A new transaction that gets a row copies it. -/
theorem getRow_first (sound : Sound db) {row : Nat} {type : AccessT} {result : Option Columns} {txn : Txn}
    (taken : (TxnMan.init db.store.timestamp : Txn).getRow db.store.rows row type = some (result, txn)) :
    result = some (db.store.rows row).data ∧ (db.store.rows row).live = true ∧
      txn.accesses.map Access.origRow = [row] := by
  obtain ⟨live, kind⟩ := getRow_cases taken
  cases kind with
  | hit place => cases place
  | abort _ _ _ newer => exact absurd (sound.past row) (Nat.not_lt.mpr (Nat.le_of_lt newer))
  | copied => exact ⟨rfl, live, rfl⟩

end Steps

/-- In any reachable state every table is within its bounds, and a get or a put of an open
transaction stays within them exactly when it accesses a row that is not in the table yet only
while there is room. The calls of a run have all done so, and such a call completes unless it
meets a freed row. -/
theorem within_table_iff (hash : Bytes → Nat) (file : List (Bytes × Bytes)) (trace : List Event) (db : Db)
    (run : Run (Step hash) Always (initial hash file) trace db) (t : Nat) (txn : Txn)
    (opened : db.txns t = some txn) :
    txn.Bounded ∧
    ∀ call, call.target = some t → call.accesses = true →
      (WithinTable hash db t txn call ↔ HasRoom hash db.store txn call) ∧
      (∀ answer next, Step hash db ⟨call, answer⟩ next → HasRoom hash db.store txn call) ∧
      (HasRoom hash db.store txn call →
        (∀ p ∈ db.store.accessed hash call, ∀ row, db.store.indexRead p = some row →
          (db.store.rows row).live = true) →
        ∃ answer next, Step hash db ⟨call, answer⟩ next) := by
  have sound := sound_run run
  have bounds := bounded_run run t txn opened
  refine ⟨bounds, fun call target accesses => ⟨withinTable_iff sound opened bounds target accesses, ?_, ?_⟩⟩
  · intro answer next taken
    exact hasRoom_of_perform opened bounds target (perform_of_step taken)
  · intro room live
    exact completes_of_hasRoom sound opened bounds target accesses live room

/-- The client that fills its table. -/
def fillTable : List Event :=
  ⟨.begin_txn, .begun 1⟩ :: (List.range 64).map (fun i => ⟨.put 1 [i.toUInt8 + 33] (bytes "x"), .code .OK⟩)

/-- The put of a new key is within the table up to the last entry. -/
theorem within_table_last :
    ∃ db txn, (play (Db.next numeral) (initial numeral []) (fillTable.take 64)) = some db ∧
      db.txns 1 = some txn ∧ txn.rowCnt = 63 ∧
      WithinTable numeral db 1 txn (.put 1 (bytes "key") (bytes "x")) := by
  have played : ((play (Db.next numeral) (initial numeral []) (fillTable.take 64)).map (fun db =>
      (db.txns 1).any (fun txn => txn.rowCnt = 63))) = some true := by decide +kernel
  obtain ⟨db, ran, checked⟩ := Option.map_eq_some_iff.mp played
  obtain ⟨txn, opened, count⟩ := (Option.any_eq_true _ _).mp checked
  have count := of_decide_eq_true count
  have iff := ((within_table_iff numeral [] _ db (run_of_play ran) 1 txn opened).2
    (.put 1 (bytes "key") (bytes "x")) rfl rfl).1
  refine ⟨db, txn, ran, opened, count, iff.mpr (fun p _ _ => ?_)⟩
  rw [count]
  decide

/-- With 64 rows in the table the put of a new key uses the entry after the last. -/
theorem overflows_table :
    ∃ db txn, Run (Step numeral) Always (initial numeral []) fillTable db ∧ db.txns 1 = some txn ∧
      ¬ WithinTable numeral db 1 txn (.put 1 (bytes "key") (bytes "x")) := by
  have played : ((play (Db.next numeral) (initial numeral []) fillTable).map (fun db =>
      (db.txns 1).any (fun txn => txn.rowCnt = 64 ∧ txn.recordPos (numeral (bytes "key")) = none) &&
      (db.store.indexRead (numeral (bytes "key"))).isNone)) = some true := by decide +kernel
  obtain ⟨db, ran, checked⟩ := Option.map_eq_some_iff.mp played
  obtain ⟨table, absent⟩ := (Bool.and_eq_true _ _).mp checked
  obtain ⟨txn, opened, counts⟩ := (Option.any_eq_true _ _).mp table
  obtain ⟨count, missing⟩ := of_decide_eq_true counts
  refine ⟨db, txn, run_of_play ran, opened, fun within => ?_⟩
  have accessed : numeral (bytes "key") ∈ db.store.accessed numeral (.put 1 (bytes "key") (bytes "x")) := by
    simp [Store.accessed, Option.isNone_iff_eq_none.mp absent]
  have below := within.accesses _ accessed
  rw [slot, missing, Option.getD_none, count] at below
  exact absurd below (by decide)

end DataAgentDB.Kv
