import DataAgentDB.Kv.RowBytes
import DataAgentDB.Storage.Mapped
import DataAgentDB.Storage.SchemaBuilt

/-! The store over bytes and the store over strings are two views of one store of rows whose columns hold
strings, and every call keeps both. -/

namespace DataAgentDB.Kv
open Storage Server LabelledRun

abbrev StringTxn := TxnMan Nat StringRow

structure StringStore where
  rows : Nat → Row StringRow
  curTabSize : Nat
  index : IndexHash Nat
  timestamp : Nat

namespace StringStore

def bytes (s : StringStore) : ByteStore where
  rows := mapRows StringRow.bytes s.rows
  curTabSize := s.curTabSize
  index := s.index
  timestamp := s.timestamp

def strings (s : StringStore) : Store where
  rows := mapRows StringRow.strings s.rows
  curTabSize := s.curTabSize
  index := s.index
  timestamp := s.timestamp

@[simp] theorem bytes_rows (s : StringStore) : s.bytes.rows = mapRows StringRow.bytes s.rows := rfl
@[simp] theorem strings_rows (s : StringStore) : s.strings.rows = mapRows StringRow.strings s.rows := rfl

def newRow (s : StringStore) (primaryKey : Nat) (data : StringRow) : StringStore :=
  let row : Row StringRow := { tableName := Storage.bytes "Data_TABLE", primaryKey := primaryKey, data := data,
                               manager := RowOcc.init, live := true }
  { s with rows := Function.update s.rows s.curTabSize row, curTabSize := s.curTabSize + 1 }

def indexInsert (s : StringStore) (primaryKey row : Nat) : StringStore :=
  { s with index := s.index.indexInsert primaryKey row 0 }

variable (m : Memory) (s : StringStore) (primaryKey : Nat)

theorem bytes_newRow {keyPtr valPtr : Bytes} (key : EndsIn 128 keyPtr) (value : EndsIn 1024 valPtr) :
    s.bytes.newRow m primaryKey keyPtr valPtr = some (s.newRow primaryKey (.of keyPtr valPtr key value)).bytes := by
  obtain ⟨middle, first, second⟩ := setValue_of (m.malloc s.curTabSize) key value
  have place : s.bytes.curTabSize = s.curTabSize := rfl
  simp only [ByteStore.newRow, place, first, second, Option.bind_eq_bind, Option.bind_some]
  simp only [bytes, newRow, mapRows_update]
  rfl

theorem strings_newRow (data : StringRow) :
    (s.newRow primaryKey data).strings = s.strings.newRow primaryKey data.strings := by
  simp only [strings, newRow, mapRows_update]
  rfl

end StringStore

/-- A row that `get_row` handed out has its copy in the table. -/
theorem getRow_entry {txn next : StringTxn} {rows : Nat → Row StringRow} {row : Nat} {type : AccessT} {copy : StringRow}
    (taken : txn.getRow rows row type = some (some copy, next)) :
    ∃ pos, next.recordPos (rows row).primaryKey = some pos ∧ pos < next.accesses.length := by
  obtain ⟨-, kind⟩ := TxnMan.getRow_cases taken
  cases kind with
  | @hit pos acc found entry =>
    refine ⟨pos, (TxnMan.upgrade_recordPos _ _ _ _).symm ▸ found, ?_⟩
    have rows := congrArg List.length (TxnMan.upgrade_rows txn entry type)
    rw [List.length_map, List.length_map] at rows
    rw [rows]
    exact (List.getElem?_eq_some_iff.mp entry).1
  | copied missing room free current =>
    refine ⟨txn.rowCnt, ?_, ?_⟩
    · rw [TxnMan.record_recordPos, Function.update_self]
    · rw [TxnMan.record_accesses, List.length_append, List.length_singleton]
      exact Nat.lt_succ_self _

theorem setLocal_length (txn : StringTxn) (rid : Nat) (value : StringRow → StringRow) :
    (txn.setLocal rid value).accesses.length = txn.accesses.length := by
  have rows := congrArg List.length (TxnMan.setLocal_rows txn rid value)
  rwa [List.length_map, List.length_map] at rows

/-- A `set_value` on a copy in the table. -/
theorem storeLocal_eq {txn : StringTxn} {rid pos id : Nat} {ptr : Bytes} {value : StringRow → StringRow}
    (found : txn.recordPos rid = some pos) (inside : pos < txn.accesses.length)
    (writes : ∀ row : StringRow, row.bytes.setValue id ptr = some (value row).bytes) :
    storeLocal (txn.map StringRow.bytes) rid id ptr = some ((txn.setLocal rid value).map StringRow.bytes) := by
  have entry := List.getElem?_eq_getElem inside
  have data : (txn.accesses[pos].map StringRow.bytes).data.setValue id ptr = some (value txn.accesses[pos].data).bytes :=
    writes _
  have changed : txn.accesses.modify pos (fun acc => { acc with data := value acc.data }) =
      txn.accesses.set pos { txn.accesses[pos] with data := value txn.accesses[pos].data } := by
    rw [List.modify_eq_set_getElem?, entry]
    rfl
  simp only [storeLocal, TxnMan.map_recordPos, TxnMan.map_accesses, found, List.getElem?_map, entry, Option.map_some,
    Option.bind_eq_bind, Option.bind_some, data, TxnMan.setLocal, changed]
  simp only [TxnMan.map, List.map_set]
  rfl

theorem setLocal_setLocal (txn : StringTxn) (rid : Nat) (first second : StringRow → StringRow) :
    (txn.setLocal rid first).setLocal rid second = txn.setLocal rid (fun row => second (first row)) := by
  unfold TxnMan.setLocal
  cases found : txn.recordPos rid with
  | none => simp only [found]
  | some pos =>
    simp only [found]
    congr 1
    apply List.ext_getElem?
    intro i
    simp only [List.getElem?_modify]
    cases txn.accesses[i]? with
    | none => rfl
    | some acc => by_cases here : pos = i <;> simp [here]

section Calls
variable (m : Memory) (s : StringStore) (txn : StringTxn) (primaryKey : Nat) (key value : Bytes)

/-- What a read of a store of readable rows answers. -/
theorem read_both : ∃ done : Option (RC × Bytes × StringTxn),
    s.bytes.read (txn.map StringRow.bytes) primaryKey key =
        done.map (fun out => (out.1, out.2.1, out.2.2.map StringRow.bytes)) ∧
      s.strings.read (txn.map StringRow.strings) primaryKey key =
        done.map (fun out => (out.1, out.2.1, out.2.2.map StringRow.strings)) := by
  have index : s.bytes.indexRead primaryKey = s.index.indexRead primaryKey 0 := rfl
  have index' : s.strings.indexRead primaryKey = s.index.indexRead primaryKey 0 := rfl
  unfold ByteStore.read Store.read
  rw [index, index']
  cases s.index.indexRead primaryKey 0 with
  | none => exact ⟨some (.Abort, [], txn), rfl, rfl⟩
  | some row =>
    have taken := TxnMan.map_getRow StringRow.bytes txn s.rows row .RD
    have taken' := TxnMan.map_getRow StringRow.strings txn s.rows row .RD
    dsimp only [StringStore.bytes, StringStore.strings]
    rw [taken, taken']
    cases txn.getRow s.rows row .RD with
    | none => exact ⟨none, rfl, rfl⟩
    | some result =>
      obtain ⟨copy, next⟩ := result
      cases copy with
      | none => exact ⟨some (.Abort, [], next), rfl, rfl⟩
      | some copy =>
        simp only [Option.map_some, TxnMan.mapTaken, getValue_key, getValue_value, Option.bind_eq_bind, Option.bind_some,
          cString_key, cString_value]
        by_cases differs : strcmp copy.strings.key (cStr key) ≠ 0
        · rw [if_pos differs, if_pos differs]
          exact ⟨some (.Abort, [], next), rfl, rfl⟩
        · rw [if_neg differs, if_neg differs]
          exact ⟨some (.RCOK, copy.strings.value, next), rfl, rfl⟩

/-- What a write does, in a store of readable rows. -/
def Written (done : Option (RC × StringStore × StringTxn)) : Prop :=
  s.bytes.write m (txn.map StringRow.bytes) primaryKey key value =
      done.map (fun out => (out.1, out.2.1.bytes, out.2.2.map StringRow.bytes)) ∧
    s.strings.write (txn.map StringRow.strings) primaryKey key value =
      done.map (fun out => (out.1, out.2.1.strings, out.2.2.map StringRow.strings))

/-- The row that a write inserts. -/
def inserted : StringRow :=
  .of (buffer key 128) (buffer value 1024) (endsIn_buffer key (by decide)).1 (endsIn_buffer value (by decide)).1

theorem strings_inserted : (inserted key value).strings = { key := strncpy key 127, value := strncpy value 1023 } := by
  rw [inserted, StringRow.of, StringRow.strings_join, (endsIn_buffer key (by decide)).2,
    (endsIn_buffer value (by decide)).2]

/-- The two `set_value`s on the copy of a new row. -/
theorem filled_both {next : StringTxn} {rid pos : Nat} (found : next.recordPos rid = some pos)
    (inside : pos < next.accesses.length) :
    ∃ keyed filled : StringTxn,
      storeLocal (next.map StringRow.bytes) rid 0 (buffer key 128) = some (keyed.map StringRow.bytes) ∧
      storeLocal (keyed.map StringRow.bytes) rid 1 (buffer value 1024) = some (filled.map StringRow.bytes) ∧
      (next.map StringRow.strings).setLocal rid (fun _ => { key := strncpy key 127, value := strncpy value 1023 }) =
        filled.map StringRow.strings := by
  obtain ⟨keyEnded, keyText⟩ := endsIn_buffer key (by decide : 0 < 128)
  obtain ⟨valueEnded, valueText⟩ := endsIn_buffer value (by decide : 0 < 1024)
  let keyed := next.setLocal rid (fun row => row.withKey (buffer key 128) keyEnded)
  have found' : keyed.recordPos rid = some pos :=
    (congrFun (TxnMan.setLocal_recordPos next rid _) rid).trans found
  have inside' : pos < keyed.accesses.length := (setLocal_length next rid _).symm ▸ inside
  have first := storeLocal_eq found inside (fun row => setValue_withKey row keyEnded)
  have second := storeLocal_eq found' inside' (fun row => setValue_withValue row valueEnded)
  refine ⟨keyed, _, first, second, ?_⟩
  rw [setLocal_setLocal]
  refine TxnMan.map_setLocal StringRow.strings next rid (fun copy => ?_)
  rw [StringRow.strings_withValue, StringRow.strings_withKey, keyText, valueText]

theorem written_insert (absent : s.index.indexRead primaryKey 0 = none) :
    ∃ done, Written m s txn primaryKey key value done := by
  have keyEnded := (endsIn_buffer key (by decide : 0 < 128))
  have valueEnded := (endsIn_buffer value (by decide : 0 < 1024))
  have index : s.bytes.indexRead primaryKey = none := absent
  have index' : s.strings.indexRead primaryKey = none := absent
  have made : s.bytes.newRow m primaryKey (buffer key 128) (buffer value 1024) =
      some (s.newRow primaryKey (inserted key value)).bytes := s.bytes_newRow m primaryKey keyEnded.1 valueEnded.1
  have made' := s.strings_newRow primaryKey (inserted key value)
  rw [strings_inserted] at made'
  have place : s.bytes.curTabSize = s.curTabSize := rfl
  have place' : s.strings.curTabSize = s.curTabSize := rfl
  unfold Written ByteStore.write Store.write Store.writeAt
  rw [index, index']
  dsimp only
  rw [made, ← made', place, place']
  simp only [Option.bind_eq_bind, Option.bind_some, StringStore.bytes_rows, StringStore.strings_rows, TxnMan.map_getRow]
  cases taken : txn.getRow (s.newRow primaryKey (inserted key value)).rows s.curTabSize .WR with
  | none => exact ⟨none, rfl, rfl⟩
  | some result =>
    obtain ⟨copy, next⟩ := result
    cases copy with
    | none => exact ⟨some (.Abort, s.newRow primaryKey (inserted key value), next), rfl, rfl⟩
    | some copy =>
      have own : ((s.newRow primaryKey (inserted key value)).rows s.curTabSize).primaryKey = primaryKey := by
        simp only [StringStore.newRow, Function.update_self]
      obtain ⟨pos, found, inside⟩ := getRow_entry taken
      rw [own] at found
      obtain ⟨keyed, filled, first, second, both⟩ := filled_both key value found inside
      refine ⟨(filled.insertRow s.curTabSize).map
        (fun txn => (.RCOK, (s.newRow primaryKey (inserted key value)).indexInsert primaryKey s.curTabSize, txn)), ?_, ?_⟩
      · simp only [Option.map_some, TxnMan.mapTaken, first, Option.bind_some]
        rw [second, Option.bind_some, TxnMan.map_insertRow]
        cases filled.insertRow s.curTabSize <;> rfl
      · simp only [Option.map_some, TxnMan.mapTaken, both, TxnMan.map_insertRow]
        cases filled.insertRow s.curTabSize <;> rfl

theorem written_update {row : Nat} (present : s.index.indexRead primaryKey 0 = some row) :
    ∃ done, Written m s txn primaryKey key value done := by
  have valueEnded := (endsIn_buffer value (by decide : 0 < 1024))
  have index : s.bytes.indexRead primaryKey = some row := present
  have index' : s.strings.indexRead primaryKey = some row := present
  unfold Written ByteStore.write Store.write Store.writeAt
  rw [index, index']
  simp only [StringStore.bytes_rows, StringStore.strings_rows, TxnMan.map_getRow]
  cases taken : txn.getRow s.rows row .WR with
  | none => exact ⟨none, rfl, rfl⟩
  | some result =>
    obtain ⟨copy, next⟩ := result
    cases copy with
    | none => exact ⟨some (.Abort, s, next), rfl, rfl⟩
    | some copy =>
      obtain ⟨pos, found, inside⟩ := getRow_entry taken
      have stored := storeLocal_eq found inside (fun row => setValue_withValue row valueEnded.1)
      have changed : (next.map StringRow.strings).setLocal (s.rows row).primaryKey
          (fun columns => { columns with value := strncpy value 1023 }) =
            (next.setLocal (s.rows row).primaryKey
              (fun row => row.withValue (buffer value 1024) valueEnded.1)).map StringRow.strings := by
        refine TxnMan.map_setLocal StringRow.strings next _ (fun copy => ?_)
        rw [StringRow.strings_withValue, valueEnded.2]
      simp only [Option.map_some, TxnMan.mapTaken, getValue_key, Option.bind_eq_bind, Option.bind_some, cString_key,
        mapRows, Row.map_primaryKey, stored, changed]
      by_cases differs : strcmp copy.strings.key (cStr key) ≠ 0
      · rw [if_pos differs, if_pos differs]
        exact ⟨some (.Abort, s, next), rfl, rfl⟩
      · rw [if_neg differs, if_neg differs]
        exact ⟨some (.RCOK, s, _), rfl, rfl⟩

theorem written_both : ∃ done, Written m s txn primaryKey key value done := by
  cases found : s.index.indexRead primaryKey 0 with
  | none => exact written_insert m s txn primaryKey key value found
  | some row => exact written_update m s txn primaryKey key value found

end Calls

structure StringDb where
  store : StringStore
  txns : Nat → Option StringTxn
  nextId : Nat

namespace StringDb

def bytes (db : StringDb) : ByteDb where
  store := db.store.bytes
  txns := fun t => (db.txns t).map (TxnMan.map StringRow.bytes)
  nextId := db.nextId

def strings (db : StringDb) : Db where
  store := db.store.strings
  txns := fun t => (db.txns t).map (TxnMan.map StringRow.strings)
  nextId := db.nextId

def setTxn (db : StringDb) (t : Nat) (txn : Option StringTxn) : StringDb :=
  { db with txns := Function.update db.txns t txn }

theorem bytes_setTxn (db : StringDb) (t : Nat) (txn : Option StringTxn) :
    (db.setTxn t txn).bytes = db.bytes.setTxn t (txn.map (TxnMan.map StringRow.bytes)) := by
  have txns := Function.comp_update (Option.map (TxnMan.map StringRow.bytes)) db.txns t txn
  exact congrArg (ByteDb.mk db.store.bytes · db.nextId) txns

theorem strings_setTxn (db : StringDb) (t : Nat) (txn : Option StringTxn) :
    (db.setTxn t txn).strings = db.strings.setTxn t (txn.map (TxnMan.map StringRow.strings)) := by
  have txns := Function.comp_update (Option.map (TxnMan.map StringRow.strings)) db.txns t txn
  exact congrArg (Db.mk db.store.strings · db.nextId) txns

end StringDb

section Performed
variable (m : Memory) (hash : Bytes → Nat) (db : StringDb)

/-- What a call leaves, seen as bytes and as strings. -/
def Performed (call : Call) (done : Option (Answer × StringDb)) : Prop :=
  db.bytes.perform m hash call = done.map (Prod.map id StringDb.bytes) ∧
    db.strings.perform hash call = done.map (Prod.map id StringDb.strings)

theorem txns_bytes (t : Nat) : db.bytes.txns t = (db.txns t).map (TxnMan.map StringRow.bytes) := rfl

theorem txns_strings (t : Nat) : db.strings.txns t = (db.txns t).map (TxnMan.map StringRow.strings) := rfl

theorem performed_begin : ∃ done, Performed m hash db .begin_txn done := by
  let begun : StringDb := { db.setTxn db.nextId (some (TxnMan.init db.store.timestamp)) with
    store := { db.store with timestamp := db.store.timestamp + 1 }, nextId := db.nextId + 1 }
  have bytes := db.bytes_setTxn db.nextId (some (TxnMan.init db.store.timestamp))
  have strings := db.strings_setTxn db.nextId (some (TxnMan.init db.store.timestamp))
  refine ⟨some (.begun db.nextId, begun), ?_, ?_⟩
  · have txns := congrArg ByteDb.txns bytes
    exact congrArg some (congrArg (Prod.mk _) (congrArg (ByteDb.mk begun.store.bytes · (db.nextId + 1)) txns.symm))
  · have txns := congrArg Db.txns strings
    exact congrArg some (congrArg (Prod.mk _) (congrArg (Db.mk begun.store.strings · (db.nextId + 1)) txns.symm))

theorem performed_get (t : Nat) (key : Bytes) : ∃ done, Performed m hash db (.get t key) done := by
  unfold Performed ByteDb.perform Db.perform ByteDb.get Db.get
  dsimp only
  rw [txns_bytes, txns_strings]
  cases db.txns t with
  | none => exact ⟨some (.code .ERROR, db), rfl, rfl⟩
  | some txn =>
    obtain ⟨done, bytes, strings⟩ := read_both db.store txn (hash key) key
    have store : db.bytes.store = db.store.bytes := rfl
    have store' : db.strings.store = db.store.strings := rfl
    simp only [Option.map_some, store, store', bytes, strings]
    cases done with
    | none => exact ⟨none, rfl, rfl⟩
    | some out =>
      obtain ⟨rc, value, next⟩ := out
      refine ⟨some (if Rc.ofRead rc = .OK then .value value else .code (Rc.ofRead rc), db.setTxn t (some next)), ?_, ?_⟩
      · simp only [Option.map_some, Prod.map_apply, id, StringDb.bytes_setTxn]
      · simp only [Option.map_some, Prod.map_apply, id, StringDb.strings_setTxn]

theorem performed_put (t : Nat) (key value : Bytes) : ∃ done, Performed m hash db (.put t key value) done := by
  unfold Performed ByteDb.perform Db.perform ByteDb.put Db.put
  dsimp only
  rw [txns_bytes, txns_strings]
  cases db.txns t with
  | none => exact ⟨some (.code .ERROR, db), rfl, rfl⟩
  | some txn =>
    obtain ⟨done, bytes, strings⟩ := written_both m db.store txn (hash key) key value
    have store : db.bytes.store = db.store.bytes := rfl
    have store' : db.strings.store = db.store.strings := rfl
    simp only [Option.map_some, store, store', bytes, strings]
    cases done with
    | none => exact ⟨none, rfl, rfl⟩
    | some out =>
      obtain ⟨rc, after, next⟩ := out
      refine ⟨some (.code (Rc.ofWrite rc), { db with store := after }.setTxn t (some next)), ?_, ?_⟩
      · simp only [Option.map_some, Prod.map_apply, id, StringDb.bytes_setTxn]
        rfl
      · simp only [Option.map_some, Prod.map_apply, id, StringDb.strings_setTxn]
        rfl

/-- What the end of a transaction leaves. -/
theorem finished_both (t : Nat) (txn : StringTxn) (rc : RC) : ∃ done : Option (RC × StringDb),
    db.bytes.finish t (txn.map StringRow.bytes) rc = done.map (Prod.map id StringDb.bytes) ∧
      db.strings.finish t (txn.map StringRow.strings) rc = done.map (Prod.map id StringDb.strings) := by
  have bytes := TxnMan.map_finish StringRow.bytes txn db.store.rows db.store.timestamp t rc
  have strings := TxnMan.map_finish StringRow.strings txn db.store.rows db.store.timestamp t rc
  unfold ByteDb.finish Db.finish
  have rows : db.bytes.store.rows = mapRows StringRow.bytes db.store.rows := rfl
  have rows' : db.strings.store.rows = mapRows StringRow.strings db.store.rows := rfl
  have clock : db.bytes.store.timestamp = db.store.timestamp := rfl
  have clock' : db.strings.store.timestamp = db.store.timestamp := rfl
  rw [rows, rows', clock, clock', bytes, strings]
  cases txn.finish db.store.rows db.store.timestamp t rc with
  | none => exact ⟨none, rfl, rfl⟩
  | some ended =>
    obtain ⟨rc', rows, timestamp, next⟩ := ended
    let after : StringDb := { db with store := { db.store with rows := rows, timestamp := timestamp } }
    refine ⟨some (rc', after.setTxn t none), ?_, ?_⟩
    · simp only [Option.map_some, Prod.map_apply, id, StringDb.bytes_setTxn]
      rfl
    · simp only [Option.map_some, Prod.map_apply, id, StringDb.strings_setTxn]
      rfl

theorem performed_commit (t : Nat) : ∃ done, Performed m hash db (.commit t) done := by
  unfold Performed ByteDb.perform Db.perform ByteDb.commit Db.commit
  dsimp only
  rw [txns_bytes, txns_strings]
  cases db.txns t with
  | none => exact ⟨some (.code .ERROR, db), rfl, rfl⟩
  | some txn =>
    obtain ⟨done, bytes, strings⟩ := finished_both db t txn .RCOK
    simp only [Option.map_some, bytes, strings]
    cases done with
    | none => exact ⟨none, rfl, rfl⟩
    | some out => exact ⟨some (.code (Rc.ofFinish out.1), out.2), rfl, rfl⟩

theorem performed_abort (t : Nat) : ∃ done, Performed m hash db (.abort_txn t) done := by
  unfold Performed ByteDb.perform Db.perform ByteDb.abort_txn Db.abort_txn
  dsimp only
  rw [txns_bytes, txns_strings]
  cases db.txns t with
  | none => exact ⟨some (.code .ERROR, db), rfl, rfl⟩
  | some txn =>
    obtain ⟨done, bytes, strings⟩ := finished_both db t txn .Abort
    simp only [Option.map_some, bytes, strings]
    cases done with
    | none => exact ⟨none, rfl, rfl⟩
    | some out => exact ⟨some (.code .OK, out.2), rfl, rfl⟩

theorem performed (call : Call) : ∃ done, Performed m hash db call done := by
  cases call with
  | begin_txn => exact performed_begin m hash db
  | get t key => exact performed_get m hash db t key
  | put t key value => exact performed_put m hash db t key value
  | commit t => exact performed_commit m hash db t
  | abort_txn t => exact performed_abort m hash db t

end Performed

theorem readable_empty : Readable (ByteStore.empty.rows 0).data := by
  constructor
  · show 0 ∈ (List.replicate 1152 0).take 128
    rw [List.take_replicate]
    exact List.mem_replicate.mpr ⟨by decide, rfl⟩
  · show 0 ∈ (List.replicate 1152 0).drop 128
    rw [List.drop_replicate]
    exact List.mem_replicate.mpr ⟨by decide, rfl⟩

/-- A row that no call has handed out yet. -/
def blank : StringRow := ⟨(ByteStore.empty.rows 0).data, readable_empty⟩

theorem strings_blank : blank.strings = { key := [], value := [] } := by
  have empty : ∀ n, cStr (List.replicate n 0) = [] := by
    intro n
    rw [cStr, List.takeWhile_replicate]
    rfl
  change ({ key := cStr (List.replicate 1152 0), value := cStr ((List.replicate 1152 0).drop 128) } : Columns) = _
  rw [List.drop_replicate, empty, empty]

namespace StringStore

def empty : StringStore where
  rows := fun _ => { tableName := Storage.bytes "Data_TABLE", primaryKey := 0, data := blank,
                     manager := RowOcc.init, live := false }
  curTabSize := 0
  index := IndexHash.initTable
  timestamp := 1

theorem bytes_empty : empty.bytes = ByteStore.empty := rfl

theorem strings_empty : empty.strings = Store.empty := by
  have rows : mapRows StringRow.strings empty.rows = Store.empty.rows := by
    funext row
    change ({ tableName := _, primaryKey := _, data := blank.strings, manager := _, live := _ } : Row Columns) = _
    rw [strings_blank]
    rfl
  exact congrArg (fun rows => Store.mk rows 0 IndexHash.initTable 1) rows

def load (s : StringStore) (primaryKey : Nat) (data : StringRow) : StringStore :=
  (s.newRow primaryKey data).indexInsert primaryKey s.curTabSize

/-- A load of strings that end within their columns. -/
theorem load_both (m : Memory) (s : StringStore) (primaryKey : Nat) {keyPtr valPtr key value : Bytes}
    (keyEnded : EndsIn 128 keyPtr ∧ cStr (keyPtr.take 128) = key)
    (valueEnded : EndsIn 1024 valPtr ∧ cStr (valPtr.take 1024) = value) :
    ∃ next : StringStore, s.bytes.load m primaryKey keyPtr valPtr = some next.bytes ∧
      s.strings.load primaryKey { key := key, value := value } = next.strings := by
  obtain ⟨keyEnded, rfl⟩ := keyEnded
  obtain ⟨valueEnded, rfl⟩ := valueEnded
  have made := s.bytes_newRow m primaryKey keyEnded valueEnded
  have made' := s.strings_newRow primaryKey (.of keyPtr valPtr keyEnded valueEnded)
  rw [StringRow.of, StringRow.strings_join] at made'
  refine ⟨s.load primaryKey (.of keyPtr valPtr keyEnded valueEnded), ?_, ?_⟩
  · rw [ByteStore.load, made]
    rfl
  · rw [Store.load, ← made']
    rfl

end StringStore

/-- A loop that keeps the rows readable. -/
theorem fold_both {α : Type} {load : ByteStore → α → Option ByteStore} {load' : Store → α → Store} (items : List α)
    (each : ∀ item ∈ items, ∀ s : StringStore, ∃ next : StringStore,
      load s.bytes item = some next.bytes ∧ load' s.strings item = next.strings) (s : StringStore) :
    ∃ next : StringStore, items.foldlM load s.bytes = some next.bytes ∧ items.foldl load' s.strings = next.strings := by
  induction items generalizing s with
  | nil => exact ⟨s, rfl, rfl⟩
  | cons item items ih =>
    obtain ⟨here, later⟩ := List.forall_mem_cons.mp each
    obtain ⟨middle, first, first'⟩ := here s
    obtain ⟨next, rest, rest'⟩ := ih later middle
    refine ⟨next, ?_, ?_⟩
    · rw [List.foldlM_cons, first]
      exact rest
    · rw [List.foldl_cons, first', rest']

/-- The strings of `init_table` are short, so that what the stack holds behind them is not seen. -/
theorem table_both (m : Memory) :
    ∃ s : StringStore, ByteStore.initTable m = some s.bytes ∧ Store.initTable = s.strings := by
  have short : ∀ rid ∈ List.range 10, 0 ∉ bytes (toString rid) ∧ (bytes (toString rid)).length < 128 := by decide
  rw [ByteStore.initTable, Store.initTable, ← StringStore.bytes_empty, ← StringStore.strings_empty]
  refine fold_both (List.range 10) (fun rid member s => ?_) StringStore.empty
  obtain ⟨clean, fits⟩ := short rid member
  have deep := m.deep rid
  refine s.load_both m rid (endsIn_text clean fits ?_) (endsIn_text clean (by omega) ?_)
  · rw [List.length_append, List.length_cons]
    have room := deep 0
    omega
  · rw [List.length_append, List.length_cons]
    have room := deep 1
    omega

theorem initial_both (m : Memory) (hash : Bytes → Nat) (pairs : List (Bytes × Bytes)) :
    ∃ db : StringDb, ByteDb.initial m hash pairs = some db.bytes ∧ initial hash pairs = db.strings := by
  obtain ⟨table, made, made'⟩ := table_both m
  have each : ∀ pair ∈ pairs, ∀ s : StringStore, ∃ next : StringStore,
      ByteStore.loadPair m hash s.bytes pair = some next.bytes ∧ Store.loadPair hash s.strings pair = next.strings := by
    intro pair _ s
    obtain ⟨next, loaded, loaded'⟩ := s.load_both m (hash pair.1) (endsIn_buffer pair.1 (by decide : 0 < 128))
      (endsIn_buffer pair.2 (by decide : 0 < 1024))
    refine ⟨{ next with timestamp := next.timestamp + 1 }, ?_, ?_⟩
    · rw [ByteStore.loadPair, loaded]
      rfl
    · exact congrArg (fun s : Store => { s with timestamp := s.timestamp + 1 }) loaded'
  obtain ⟨store, loaded, loaded'⟩ := fold_both pairs each table
  refine ⟨{ store := store, txns := fun _ => none, nextId := 1 }, ?_, ?_⟩
  · rw [ByteDb.initial, ByteStore.initEngine, made]
    change (List.foldlM (ByteStore.loadPair m hash) table.bytes pairs).map _ = _
    rw [loaded]
    rfl
  · rw [initial, Store.initEngine, made', loaded']
    rfl

/-- The database over bytes holds the database over strings: every column of a row and of a local copy
ends within itself and reads as the string there. -/
structure Shows (db : ByteDb) (above : Db) : Prop where
  readable : ∀ row, Readable (db.store.rows row).data
  copies : ∀ t txn, db.txns t = some txn → ∀ acc ∈ txn.accesses, Readable acc.data
  rows : above.store.rows = mapRows shown db.store.rows
  txns : ∀ t, above.txns t = (db.txns t).map (TxnMan.map shown)
  curTabSize : above.store.curTabSize = db.store.curTabSize
  index : above.store.index = db.store.index
  timestamp : above.store.timestamp = db.store.timestamp
  nextId : above.nextId = db.nextId

theorem shows_both (db : StringDb) : Shows db.bytes db.strings where
  readable := fun row => (db.store.rows row).data.property
  copies := by
    intro t txn opened acc member
    obtain ⟨txn', -, rfl⟩ := Option.map_eq_some_iff.mp opened
    obtain ⟨acc', -, rfl⟩ := List.mem_map.mp member
    exact acc'.data.property
  rows := rfl
  txns := by
    intro t
    rw [txns_strings, txns_bytes, Option.map_map]
    apply congrArg (fun see => Option.map see (db.txns t))
    funext txn
    simp only [Function.comp_apply, TxnMan.map, List.map_map]
    rfl
  curTabSize := rfl
  index := rfl
  timestamp := rfl
  nextId := rfl

theorem next_both (m : Memory) (hash : Bytes → Nat) (db : StringDb) (event : Event) : ∃ done : Option StringDb,
    db.bytes.next m hash event = done.map StringDb.bytes ∧ db.strings.next hash event = done.map StringDb.strings := by
  obtain ⟨done, bytes, strings⟩ := performed m hash db event.call
  rw [ByteDb.next, Db.next, bytes, strings]
  cases done with
  | none => exact ⟨none, rfl, rfl⟩
  | some out =>
    by_cases same : out.1 = event.answer
    · exact ⟨some out.2, if_pos same, if_pos same⟩
    · exact ⟨none, if_neg same, if_neg same⟩

section Runs
variable {m : Memory} {hash : Bytes → Nat} {start : StringDb} {trace : List Event}

theorem run_of_bytes {db : ByteDb} (run : Run (ByteStep m hash) Always start.bytes trace db) :
    ∃ both : StringDb, both.bytes = db ∧ Run (Step hash) Always start.strings trace both.strings := by
  refine run.invariant (fun trace db => ∃ both : StringDb, both.bytes = db ∧
    Run (Step hash) Always start.strings trace both.strings) ⟨start, rfl, .nil⟩ ?_
  rintro trace db event next ⟨both, rfl, earlier⟩ - taken
  obtain ⟨done, bytes, strings⟩ := next_both m hash both event
  obtain ⟨after, rfl, same⟩ := Option.map_eq_some_iff.mp (bytes.symm.trans taken)
  exact ⟨after, same, .snoc earlier trivial strings⟩

theorem run_of_strings {above : Db} (run : Run (Step hash) Always start.strings trace above) :
    ∃ both : StringDb, both.strings = above ∧ Run (ByteStep m hash) Always start.bytes trace both.bytes := by
  refine run.invariant (fun trace above => ∃ both : StringDb, both.strings = above ∧
    Run (ByteStep m hash) Always start.bytes trace both.bytes) ⟨start, rfl, .nil⟩ ?_
  rintro trace above event next ⟨both, rfl, earlier⟩ - taken
  obtain ⟨done, bytes, strings⟩ := next_both m hash both event
  obtain ⟨after, rfl, same⟩ := Option.map_eq_some_iff.mp (strings.symm.trans taken)
  exact ⟨after, same, .snoc earlier trivial bytes⟩

end Runs

/-- The catalog is the one that `init_schema` makes of data_schema.txt. -/
theorem schema_read : ∃ w, Ends (initSchema (file false (tableAndIndex dataTable dataIndex))) (.returned w) ∧
    w.tables (bytes "Data_TABLE") = some 0 ∧ w.catalogs = [schema] := by
  have built : ((tableAndIndex dataTable dataIndex).foldlM (fun w (part : Part) => part.entry.add w) Workload.empty).map
      (fun w => (w.tables (bytes "Data_TABLE"), w.catalogs)) = some (some 0, [schema]) := by decide +kernel
  obtain ⟨w, added, same⟩ := Option.map_eq_some_iff.mp built
  obtain ⟨table, catalogs⟩ := Prod.mk.inj same
  exact ⟨w, (ends_file dataSchema_formed.fine false []).mpr added, table, catalogs⟩

/-- The store over the bytes of its rows, with the catalog that is read from data_schema.txt, starts, and
it and the store of strings have the same runs, whatever `malloc` and the stack held: a call completes
over bytes exactly when it does over strings, and answers the same. -/
theorem byte_rows_refine (m : Memory) (hash : Bytes → Nat) (pairs : List (Bytes × Bytes)) :
    (∃ w, Ends (initSchema (file false (tableAndIndex dataTable dataIndex))) (.returned w) ∧
      w.tables (bytes "Data_TABLE") = some 0 ∧ w.catalogs = [schema]) ∧
    ∃ start, ByteDb.initial m hash pairs = some start ∧
      (∀ trace db, Run (ByteStep m hash) Always start trace db → ∃ above,
        Run (Step hash) Always (initial hash pairs) trace above ∧ Shows db above ∧
          ∀ call, (db.perform m hash call).map Prod.fst = (above.perform hash call).map Prod.fst) ∧
      ∀ trace above, Run (Step hash) Always (initial hash pairs) trace above → ∃ db,
        Run (ByteStep m hash) Always start trace db ∧ Shows db above := by
  obtain ⟨start, made, made'⟩ := initial_both m hash pairs
  rw [made']
  refine ⟨schema_read, start.bytes, made, fun trace db run => ?_, fun trace above run => ?_⟩
  · obtain ⟨both, rfl, above⟩ := run_of_bytes run
    refine ⟨both.strings, above, shows_both both, fun call => ?_⟩
    obtain ⟨done, bytes, strings⟩ := performed m hash both call
    rw [bytes, strings, Option.map_map, Option.map_map]
    rfl
  · obtain ⟨both, rfl, below⟩ := run_of_strings run
    exact ⟨both.bytes, below, shows_both both⟩

end DataAgentDB.Kv
