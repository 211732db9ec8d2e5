import DataAgentDB.Kv.Workspace

/-! What one call can do to a store that has the invariant. -/

namespace DataAgentDB.Kv
open Storage Server TxnMan

/-- The transaction a call is about. -/
def Call.target : Call → Option Nat
  | .begin_txn => none
  | .get t _ | .put t _ _ | .commit t | .abort_txn t => some t

/-- The store after a transaction ends without a commit. -/
def Db.dropped (db : Db) (t : Nat) (txn : Txn) : Db :=
  { db with store := { db.store with rows := freed txn.insertRows db.store.rows } }.setTxn t none

/-- The store after a commit. -/
def Db.installed (db : Db) (t : Nat) (txn : Txn) : Db :=
  { db with store := { db.store with
      rows := wroteBack txn.accesses db.store.rows db.store.timestamp
      timestamp := db.store.timestamp + 1 } }.setTxn t none

/-- The store after a put of an absent key. -/
def Db.grown (db : Db) (t : Nat) (txn : Txn) (primaryKey : Nat) (columns : Columns) : Db :=
  { db with store := db.store.load primaryKey columns }.setTxn t (some
    { txn.record primaryKey db.store.curTabSize .WR columns with
      insertRows := txn.insertRows ++ [db.store.curTabSize] })

/-- Every kind of call with its guards, its answer and its result. -/
inductive Did (hash : Bytes → Nat) (db : Db) : Event → Db → Prop
  | begun : Did hash db ⟨.begin_txn, .begun db.nextId⟩
      { db.setTxn db.nextId (some (TxnMan.init db.store.timestamp)) with
        store := { db.store with timestamp := db.store.timestamp + 1 }, nextId := db.nextId + 1 }
  | closed {call : Call} {t : Nat} (target : call.target = some t) (closed : db.txns t = none) :
      Did hash db ⟨call, .code .ERROR⟩ db
  | missing {t : Nat} {key : Bytes} {txn : Txn} (opened : db.txns t = some txn)
      (absent : db.store.indexRead (hash key) = none) : Did hash db ⟨.get t key, .code .NOT_FOUND⟩ db
  | getConflict {t : Nat} {key : Bytes} {txn : Txn} {row : Nat} (opened : db.txns t = some txn)
      (found : db.store.indexRead (hash key) = some row) (first : txn.recordPos (hash key) = none)
      (newer : txn.startTs < (db.store.rows row).manager.wts) :
      Did hash db ⟨.get t key, .code .NOT_FOUND⟩ db
  | getMismatch {t : Nat} {key : Bytes} {txn txn' : Txn} {row : Nat} {kind : AccessT} {copy : Columns}
      (opened : db.txns t = some txn) (found : db.store.indexRead (hash key) = some row)
      (live : (db.store.rows row).live = true)
      (fetched : Fetched db.store txn row .RD kind copy txn') (differs : copy.key ≠ cStr key) :
      Did hash db ⟨.get t key, .code .NOT_FOUND⟩ (db.setTxn t (some txn'))
  | got {t : Nat} {key : Bytes} {txn txn' : Txn} {row : Nat} {kind : AccessT} {copy : Columns}
      (opened : db.txns t = some txn) (found : db.store.indexRead (hash key) = some row)
      (live : (db.store.rows row).live = true)
      (fetched : Fetched db.store txn row .RD kind copy txn') (same : copy.key = cStr key) :
      Did hash db ⟨.get t key, .value copy.value⟩ (db.setTxn t (some txn'))
  | putConflict {t : Nat} {key value : Bytes} {txn : Txn} {row : Nat} (opened : db.txns t = some txn)
      (found : db.store.indexRead (hash key) = some row) (first : txn.recordPos (hash key) = none)
      (newer : txn.startTs < (db.store.rows row).manager.wts) :
      Did hash db ⟨.put t key value, .code .ERROR⟩ db
  | putMismatch {t : Nat} {key value : Bytes} {txn txn' : Txn} {row : Nat} {kind : AccessT} {copy : Columns}
      (opened : db.txns t = some txn) (found : db.store.indexRead (hash key) = some row)
      (live : (db.store.rows row).live = true)
      (fetched : Fetched db.store txn row .WR kind copy txn') (differs : copy.key ≠ cStr key) :
      Did hash db ⟨.put t key value, .code .ERROR⟩ (db.setTxn t (some txn'))
  | updated {t : Nat} {key value : Bytes} {txn txn' txn'' : Txn} {row : Nat} {kind : AccessT} {copy : Columns}
      (opened : db.txns t = some txn) (found : db.store.indexRead (hash key) = some row)
      (live : (db.store.rows row).live = true)
      (fetched : Fetched db.store txn row .WR kind copy txn') (same : copy.key = cStr key)
      (entered : Entered db.store txn row kind { copy with value := strncpy value 1023 } txn'') :
      Did hash db ⟨.put t key value, .code .OK⟩ (db.setTxn t (some txn''))
  | inserted {t : Nat} {key value : Bytes} {txn : Txn} (opened : db.txns t = some txn)
      (absent : db.store.indexRead (hash key) = none) :
      Did hash db ⟨.put t key value, .code .OK⟩
        (db.grown t txn (hash key) { key := strncpy key 127, value := strncpy value 1023 })
  | committed {t : Nat} {txn : Txn} (opened : db.txns t = some txn)
      (live : ∀ acc ∈ txn.accesses, (db.store.rows acc.origRow).live = true)
      (current : ∀ acc ∈ txn.accesses, (db.store.rows acc.origRow).manager.wts ≤ txn.startTs) :
      Did hash db ⟨.commit t, .code .OK⟩ (db.installed t txn)
  | failed {t : Nat} {txn : Txn} {acc : Access Nat Columns} (opened : db.txns t = some txn)
      (member : acc ∈ txn.accesses) (newer : txn.startTs < (db.store.rows acc.origRow).manager.wts) :
      Did hash db ⟨.commit t, .code .ABORT⟩ (db.dropped t txn)
  | aborted {t : Nat} {txn : Txn} (opened : db.txns t = some txn) :
      Did hash db ⟨.abort_txn t, .code .OK⟩ (db.dropped t txn)

theorem Db.setTxn_self {db : Db} {t : Nat} {txn : Txn} (opened : db.txns t = some txn) :
    db.setTxn t (some txn) = db := by
  unfold Db.setTxn
  rw [← opened, Function.update_eq_self]

/-- A call on an open transaction is not refused. -/
theorem not_refused {db : Db} {t u : Nat} {txn : Txn} (opened : db.txns t = some txn) (target : some t = some u) :
    db.txns u ≠ none := by
  cases target
  rw [opened]
  exact nofun

section Steps
variable {hash : Bytes → Nat} {db next : Db}

theorem step_of_perform {call : Call} {answer : Answer}
    (performed : db.perform hash call = some (answer, next)) : Step hash db ⟨call, answer⟩ next := by
  simp [Step, Db.next, performed]

theorem perform_of_step {event : Event} (taken : Step hash db event next) :
    db.perform hash event.call = some (event.answer, next) := by
  unfold Step Db.next at taken
  split at taken
  next => cases taken
  next answer' db' performed =>
    split at taken
    next same =>
      cases taken
      rw [performed, same]
    next => cases taken

private theorem did_get (sound : Sound db) {t : Nat} {key : Bytes} {answer : Answer}
    (taken : db.get hash t key = some (answer, next)) : Did hash db ⟨.get t key, answer⟩ next := by
  unfold Db.get at taken
  split at taken
  next closed => cases taken; exact .closed rfl closed
  next txn opened =>
    split at taken
    next => cases taken
    next rc value txn₁ outcome =>
      cases taken
      unfold Store.read at outcome
      cases found : db.store.indexRead (hash key) with
      | none =>
        rw [found] at outcome
        cases outcome
        rw [Db.setTxn_self opened]
        exact .missing opened found
      | some row =>
        have rowKey := sound.key_of_indexRead found
        rw [found] at outcome
        dsimp only at outcome
        split at outcome
        next => cases outcome
        next txn' access =>
          obtain ⟨-, kind⟩ := getRow_cases access
          cases outcome
          cases kind with
          | abort first room free newer =>
            rw [Db.setTxn_self opened]
            exact .getConflict opened found (rowKey ▸ first) newer
        next copy txn' access =>
          obtain ⟨live, kind⟩ := getRow_cases access
          obtain ⟨_, fetched⟩ := (sound.opened t txn opened).2.fetch found rowKey kind (.inl rfl)
          split at outcome
          next differs =>
            cases outcome
            exact .getMismatch opened found live fetched (fun same => differs ((strcmp_eq_zero _ _).mpr same))
          next same =>
            cases outcome
            exact .got opened found live fetched ((strcmp_eq_zero _ _).mp (not_not.mp same))

/-- A new row of an absent key is not in the access table yet, and no version of it is newer. -/
theorem getRow_new {s : Store} {txn txn' : Txn} {primaryKey : Nat} {columns : Columns}
    {result : Option Columns} (opened : Opened s txn) (absent : s.indexRead primaryKey = none)
    (got : GetRow txn (s.newRow primaryKey columns).rows s.curTabSize .WR result txn') :
    result = some columns ∧ txn' = txn.record primaryKey s.curTabSize .WR columns := by
  have fresh : (s.newRow primaryKey columns).rows s.curTabSize =
      ⟨bytes "Data_TABLE", primaryKey, columns, RowOcc.init, true⟩ := Function.update_self _ _ _
  cases got with
  | hit found entry =>
    rw [fresh] at found
    obtain ⟨acc, _, head⟩ := opened.entry found
    rw [absent] at head
    cases head
  | abort first room free newer =>
    rw [fresh] at newer
    exact absurd newer (Nat.not_lt_zero _)
  | copied first room free current =>
    rw [fresh]
    exact ⟨rfl, rfl⟩

private theorem did_put (sound : Sound db) {t : Nat} {key value : Bytes} {answer : Answer}
    (taken : db.put hash t key value = some (answer, next)) :
    Did hash db ⟨.put t key value, answer⟩ next := by
  unfold Db.put at taken
  split at taken
  next closed => cases taken; exact .closed rfl closed
  next txn opened =>
    unfold Store.write Store.writeAt at taken
    split at taken
    next => cases taken
    next rc store txn₁ written =>
      cases taken
      cases found : db.store.indexRead (hash key) with
      | none =>
        rw [found] at written
        dsimp only at written
        split at written
        next => cases written
        next txn' outcome =>
          obtain ⟨-, kind⟩ := getRow_cases outcome
          exact absurd (getRow_new (sound.opened t txn opened).2 found kind).1 (by simp)
        next copy txn' outcome =>
          obtain ⟨-, kind⟩ := getRow_cases outcome
          obtain ⟨-, rfl⟩ := getRow_new (sound.opened t txn opened).2 found kind
          split at written
          next => cases written
          next txn₂ added =>
            cases written
            unfold insertRow at added
            split at added
            next =>
              cases added
              rw [setLocal_record]
              exact .inserted opened found
            next => cases added
      | some row =>
        have rowKey := sound.key_of_indexRead found
        rw [found] at written
        dsimp only at written
        split at written
        next => cases written
        next txn' outcome =>
          obtain ⟨-, kind⟩ := getRow_cases outcome
          cases written
          cases kind with
          | abort first room free newer =>
            have same : { db with store := db.store }.setTxn t (some txn) = db := Db.setTxn_self opened
            rw [same]
            exact .putConflict opened found (rowKey ▸ first) newer
        next copy txn' outcome =>
          obtain ⟨live, kind⟩ := getRow_cases outcome
          obtain ⟨_, fetched⟩ := (sound.opened t txn opened).2.fetch found rowKey kind (.inr rfl)
          split at written
          next differs =>
            cases written
            exact .putMismatch opened found live fetched (fun same => differs ((strcmp_eq_zero _ _).mpr same))
          next same =>
            cases written
            rw [rowKey]
            have entered := fetched.update rowKey
              (fun columns => { columns with value := strncpy value 1023 }) rfl
            exact .updated opened found live fetched ((strcmp_eq_zero _ _).mp (not_not.mp same)) entered

private theorem did_finish (sound : Sound db) {t : Nat} {txn : Txn} {rc rc' : RC}
    (opened : db.txns t = some txn) (ends : rc = .RCOK ∨ rc = .Abort)
    (taken : db.finish t txn rc = some (rc', next)) :
    ∃ rows ts, next = { db with store := { db.store with rows := rows, timestamp := ts } }.setTxn t none ∧
      Finished txn db.store.rows db.store.timestamp rc rc' rows ts := by
  unfold Db.finish at taken
  split at taken
  next => cases taken
  next rc₁ rows ts _ outcome =>
    cases taken
    exact ⟨rows, ts, rfl, finish_cases ends (fun _ _ => sound.free _) (sound.opened t txn opened).2.nodup outcome⟩

private theorem did_commit (sound : Sound db) {t : Nat} {answer : Answer}
    (taken : db.commit t = some (answer, next)) : Did hash db ⟨.commit t, answer⟩ next := by
  unfold Db.commit at taken
  split at taken
  next closed => cases taken; exact .closed rfl closed
  next txn opened =>
    split at taken
    next => cases taken
    next rc db₁ finished =>
      cases taken
      obtain ⟨rows, ts, rfl, done⟩ := did_finish sound opened (.inl rfl) finished
      cases done with
      | committed live current => exact .committed opened live current
      | failed member newer => exact .failed opened member newer

private theorem did_abort_txn (sound : Sound db) {t : Nat} {answer : Answer}
    (taken : db.abort_txn t = some (answer, next)) : Did hash db ⟨.abort_txn t, answer⟩ next := by
  unfold Db.abort_txn at taken
  split at taken
  next closed => cases taken; exact .closed rfl closed
  next txn opened =>
    split at taken
    next => cases taken
    next rc db₁ finished =>
      cases taken
      obtain ⟨rows, ts, rfl, done⟩ := did_finish sound opened (.inr rfl) finished
      cases done with
      | aborted => exact .aborted opened

theorem did_of_step (sound : Sound db) {event : Event} (taken : Step hash db event next) :
    Did hash db event next := by
  have performed := perform_of_step taken
  obtain ⟨call, answer⟩ := event
  cases call with
  | begin_txn => cases performed; exact .begun
  | get t key => exact did_get sound performed
  | put t key value => exact did_put sound performed
  | commit t => exact did_commit sound performed
  | abort_txn t => exact did_abort_txn sound performed

/-- A transaction whose rows are live and no newer than it commits. -/
theorem commit_installs (hash : Bytes → Nat) (sound : Sound db) {t : Nat} {txn : Txn} (opened : db.txns t = some txn)
    (live : ∀ acc ∈ txn.accesses, (db.store.rows acc.origRow).live = true)
    (current : ∀ acc ∈ txn.accesses, (db.store.rows acc.origRow).manager.wts ≤ txn.startTs) :
    db.perform hash (.commit t) = some (.code .OK, db.installed t txn) := by
  obtain ⟨ended, finished⟩ := finish_commits t (fun _ _ => sound.free _) (fun _ _ => sound.past _)
    (sound.opened t txn opened).2.nodup live current
  simp only [Db.perform, Db.commit, opened, Db.finish, finished]
  rfl

end Steps

end DataAgentDB.Kv
