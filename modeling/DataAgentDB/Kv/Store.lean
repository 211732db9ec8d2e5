import DataAgentDB.Lib.LabelledRun
import DataAgentDB.Server.KvApi
import DataAgentDB.Storage.Finish
import DataAgentDB.Storage.IndexHash

/-! The key-value store: `Data_TABLE` with its index, `txn_man::Read` and `Write`, the calls of
kv_api.cpp and the engine's start. A call runs as a whole; `none` is a call that does not
complete (it touches freed memory or memory past an array, or an assertion fails). -/

namespace DataAgentDB.Kv
open Storage Server

/-- The KEY and VALUE columns, as the C strings in them. -/
structure Columns where
  key : Bytes
  value : Bytes
  deriving DecidableEq, Repr

/-- What a `char *` to the bytes shows of them. -/
def cStr (s : Bytes) : Bytes := s.takeWhile (fun c => c ≠ 0)

/-- The C string after `strncpy` of at most `count` bytes into a longer, zeroed buffer. -/
def strncpy (s : Bytes) (count : Nat) : Bytes := (cStr s).take count

abbrev Txn := TxnMan Nat Columns

/-- Rows are numbered as `get_new_row` hands them out; `Data_INDEX` has one partition. -/
structure Store where
  rows : Nat → Row Columns
  curTabSize : Nat
  index : IndexHash Nat
  timestamp : Nat

namespace Store

def indexRead (s : Store) (primaryKey : Nat) : Option Nat := s.index.indexRead primaryKey 0

/-- All rows in the index under a key, the newest first. -/
def entries (s : Store) (primaryKey : Nat) : List Nat := s.index.items primaryKey 0

/-- `get_new_row` with the key and the columns its callers set at once. -/
def newRow (s : Store) (primaryKey : Nat) (columns : Columns) : Store :=
  let row : Row Columns := { tableName := bytes "Data_TABLE", primaryKey := primaryKey,
                             data := columns, manager := RowOcc.init, live := true }
  { s with rows := Function.update s.rows s.curTabSize row, curTabSize := s.curTabSize + 1 }

def indexInsert (s : Store) (primaryKey row : Nat) : Store :=
  { s with index := s.index.indexInsert primaryKey row 0 }

/-- `txn_man::Read`: the code, `value_out` and the transaction after it. -/
def read (s : Store) (txn : Txn) (primaryKey : Nat) (key : Bytes) : Option (RC × Bytes × Txn) :=
  match s.indexRead primaryKey with
  | none => some (.Abort, [], txn)
  | some row =>
      match txn.getRow s.rows row .RD with
      | none => none
      | some (none, txn) => some (.Abort, [], txn)
      | some (some copy, txn) =>
          if strcmp copy.key (cStr key) ≠ 0 then some (.Abort, [], txn)
          else some (.RCOK, copy.value, txn)

/-- What `txn_man::Write` does once `index_read` has answered. -/
def writeAt (s : Store) (txn : Txn) (item : Option Nat) (primaryKey : Nat) (key value : Bytes) :
    Option (RC × Store × Txn) :=
  match item with
  | none =>
      let columns : Columns := { key := strncpy key 127, value := strncpy value 1023 }
      let row := s.curTabSize
      let s := s.newRow primaryKey columns
      match txn.getRow s.rows row .WR with
      | none => none
      | some (none, txn) => some (.Abort, s, txn)
      | some (some _, txn) =>
          match (txn.setLocal primaryKey (fun _ => columns)).insertRow row with
          | none => none
          | some txn => some (.RCOK, s.indexInsert primaryKey row, txn)
  | some row =>
      match txn.getRow s.rows row .WR with
      | none => none
      | some (none, txn) => some (.Abort, s, txn)
      | some (some copy, txn) =>
          if strcmp copy.key (cStr key) ≠ 0 then some (.Abort, s, txn)
          else some (.RCOK, s, txn.setLocal (s.rows row).primaryKey
            (fun columns => { columns with value := strncpy value 1023 }))

/-- `txn_man::Write`. -/
def write (s : Store) (txn : Txn) (primaryKey : Nat) (key value : Bytes) :
    Option (RC × Store × Txn) :=
  s.writeAt txn (s.indexRead primaryKey) primaryKey key value

end Store

/-- The store and the open transactions, by the id `begin_txn` gave their handle; the `impl`
of any other handle is null. -/
structure Db where
  store : Store
  txns : Nat → Option Txn
  nextId : Nat

inductive Call where
  | begin_txn
  | get (t : Nat) (key : Bytes)
  | put (t : Nat) (key value : Bytes)
  | commit (t : Nat)
  | abort_txn (t : Nat)
  deriving DecidableEq, Repr

inductive Answer where
  | begun (id : Nat)
  | value (value : Bytes)
  | code (rc : Rc)
  deriving DecidableEq, Repr

structure Event where
  call : Call
  answer : Answer
  deriving DecidableEq, Repr

namespace Db

def setTxn (db : Db) (t : Nat) (txn : Option Txn) : Db :=
  { db with txns := Function.update db.txns t txn }

def begin_txn (db : Db) : Answer × Db :=
  let ts := db.store.timestamp
  let db' := db.setTxn db.nextId (some (TxnMan.init ts))
  (.begun db.nextId, { db' with store := { db.store with timestamp := ts + 1 }, nextId := db.nextId + 1 })

def get (hash : Bytes → Nat) (db : Db) (t : Nat) (key : Bytes) : Option (Answer × Db) :=
  match db.txns t with
  | none => some (.code .ERROR, db)
  | some txn =>
      match db.store.read txn (hash key) key with
      | none => none
      | some (rc, value, txn) =>
          let answer := if Rc.ofRead rc = .OK then .value value else .code (Rc.ofRead rc)
          some (answer, db.setTxn t (some txn))

def put (hash : Bytes → Nat) (db : Db) (t : Nat) (key value : Bytes) : Option (Answer × Db) :=
  match db.txns t with
  | none => some (.code .ERROR, db)
  | some txn =>
      match db.store.write txn (hash key) key value with
      | none => none
      | some (rc, store, txn) =>
          some (.code (Rc.ofWrite rc), { db with store := store }.setTxn t (some txn))

/-- `txn_man::finish` and the end of the handle. -/
def finish (db : Db) (t : Nat) (txn : Txn) (rc : RC) : Option (RC × Db) :=
  match txn.finish db.store.rows db.store.timestamp t rc with
  | none => none
  | some (rc, rows, timestamp, _) =>
      some (rc, { db with store := { db.store with rows := rows, timestamp := timestamp } }.setTxn t none)

def commit (db : Db) (t : Nat) : Option (Answer × Db) :=
  match db.txns t with
  | none => some (.code .ERROR, db)
  | some txn =>
      match db.finish t txn .RCOK with
      | none => none
      | some (rc, db) => some (.code (Rc.ofFinish rc), db)

def abort_txn (db : Db) (t : Nat) : Option (Answer × Db) :=
  match db.txns t with
  | none => some (.code .ERROR, db)
  | some txn =>
      match db.finish t txn .Abort with
      | none => none
      | some (_, db) => some (.code .OK, db)

def perform (hash : Bytes → Nat) (db : Db) : Call → Option (Answer × Db)
  | .begin_txn => some db.begin_txn
  | .get t key => db.get hash t key
  | .put t key value => db.put hash t key value
  | .commit t => db.commit t
  | .abort_txn t => db.abort_txn t

/-- The state after a call with its answer. -/
def next (hash : Bytes → Nat) (db : Db) (event : Event) : Option Db :=
  match db.perform hash event.call with
  | none => none
  | some (answer, db) => if answer = event.answer then some db else none

end Db

/-- One call of one client. -/
def Step (hash : Bytes → Nat) (db : Db) (event : Event) (next : Db) : Prop :=
  db.next hash event = some next

namespace Store

/-- The table and the index of the schema, without rows. -/
def empty : Store :=
  { rows := fun _ => { tableName := bytes "Data_TABLE", primaryKey := 0, data := ⟨[], []⟩,
                       manager := RowOcc.init, live := false }
    curTabSize := 0
    index := IndexHash.initTable
    timestamp := 1 }

def load (s : Store) (primaryKey : Nat) (columns : Columns) : Store :=
  (s.newRow primaryKey columns).indexInsert primaryKey s.curTabSize

/-- `TestWorkload::init_table`. -/
def initTable : Store :=
  (List.range 10).foldl
    (fun s rid => s.load rid { key := bytes (toString rid), value := bytes (toString rid) }) empty

/-- One pair of the data file. The `finish(RCOK)` of the loader's transaction, which has
accessed no row, draws an end timestamp. -/
def loadPair (hash : Bytes → Nat) (s : Store) (pair : Bytes × Bytes) : Store :=
  let s := s.load (hash pair.1) { key := strncpy pair.1 127, value := strncpy pair.2 1023 }
  { s with timestamp := s.timestamp + 1 }

/-- The store after `init_engine` read the pairs of the data file. -/
def initEngine (hash : Bytes → Nat) (file : List (Bytes × Bytes)) : Store :=
  file.foldl (loadPair hash) initTable

end Store

/-- The server before its first client. -/
def initial (hash : Bytes → Nat) (file : List (Bytes × Bytes)) : Db :=
  { store := Store.initEngine hash file, txns := fun _ => none, nextId := 1 }

/-- A hash for concrete runs: a key as a numeral, above the keys of `init_table`. -/
def numeral (key : Bytes) : Nat := key.foldl (fun number c => 257 * number + c.toNat + 1) 10

end DataAgentDB.Kv
