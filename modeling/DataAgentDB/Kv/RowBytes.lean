import DataAgentDB.Kv.Sound
import DataAgentDB.Storage.Fields

/-! The store over the bytes of its rows. `Data_TABLE` has the catalog that data_schema.txt describes; a
call reads and writes a row through the ranges of its columns, as C strings that end at a NUL. What
`malloc` and the stack held before is arbitrary. -/

namespace DataAgentDB.Kv
open Storage Server Slices LabelledRun

/-- The catalog of `Data_TABLE`. -/
def schema : Catalog where
  capacity := 2
  columns := [{ id := 0, size := 128, index := 0, type := bytes "string", name := bytes "KEY" },
    { id := 1, size := 1024, index := 128, type := bytes "string", name := bytes "VALUE" }]
  tupleSize := 1152

abbrev ByteRow := RowT schema

abbrev ByteTxn := TxnMan Nat ByteRow

/-- The string that a `char *` to these bytes of a row reads as; `none` if it is not ended in the row. -/
def cString (s : Bytes) : Option Bytes := if 0 ∈ s then some (cStr s) else none

/-- A zeroed buffer of this size after `strncpy` of all of it but one byte. -/
def buffer (s : Bytes) (size : Nat) : Bytes := splice 0 (strncpy s (size - 1)) (List.replicate size 0)

/-- The bytes of a new row's memory, and the bytes on the stack behind the string of `to_string(rid)`,
which `init_table` hands to `set_value` for a column. -/
structure Memory where
  malloc : Nat → ByteRow
  stack : Nat → Nat → Bytes
  deep : ∀ rid id, 1024 ≤ (stack rid id).length

/-- `Store` with the bytes of its rows. -/
structure ByteStore where
  rows : Nat → Row ByteRow
  curTabSize : Nat
  index : IndexHash Nat
  timestamp : Nat

/-- `set_value(id, ptr)` on the local copy that `get_row` handed out. -/
def storeLocal (txn : ByteTxn) (rid id : Nat) (ptr : Bytes) : Option ByteTxn := do
  let pos ← txn.recordPos rid
  let acc ← txn.accesses[pos]?
  let data ← acc.data.setValue id ptr
  return { txn with accesses := txn.accesses.set pos { acc with data := data } }

namespace ByteStore

def indexRead (s : ByteStore) (primaryKey : Nat) : Option Nat := s.index.indexRead primaryKey 0

def indexInsert (s : ByteStore) (primaryKey row : Nat) : ByteStore :=
  { s with index := s.index.indexInsert primaryKey row 0 }

/-- `get_new_row` with the key and the two columns its callers set at once. -/
def newRow (m : Memory) (s : ByteStore) (primaryKey : Nat) (keyPtr valPtr : Bytes) : Option ByteStore := do
  let data ← (m.malloc s.curTabSize).setValue 0 keyPtr
  let data ← data.setValue 1 valPtr
  let row : Row ByteRow := { tableName := bytes "Data_TABLE", primaryKey := primaryKey, data := data,
                             manager := RowOcc.init, live := true }
  return { s with rows := Function.update s.rows s.curTabSize row, curTabSize := s.curTabSize + 1 }

/-- `txn_man::Read`. The local copy is the whole row, whatever its memory held (`copy_eq`). -/
def read (s : ByteStore) (txn : ByteTxn) (primaryKey : Nat) (key : Bytes) : Option (RC × Bytes × ByteTxn) :=
  match s.indexRead primaryKey with
  | none => some (.Abort, [], txn)
  | some row =>
      match txn.getRow s.rows row .RD with
      | none => none
      | some (none, txn) => some (.Abort, [], txn)
      | some (some copy, txn) => do
          let readKey ← cString (← copy.getValue 0)
          if strcmp readKey (cStr key) ≠ 0 then return (.Abort, [], txn)
          let readVal ← cString (← copy.getValue 1)
          return (.RCOK, readVal, txn)

/-- `txn_man::Write`. -/
def write (m : Memory) (s : ByteStore) (txn : ByteTxn) (primaryKey : Nat) (key value : Bytes) :
    Option (RC × ByteStore × ByteTxn) :=
  match s.indexRead primaryKey with
  | none => do
      let row := s.curTabSize
      let s ← s.newRow m primaryKey (buffer key 128) (buffer value 1024)
      match txn.getRow s.rows row .WR with
      | none => none
      | some (none, txn) => some (.Abort, s, txn)
      | some (some _, txn) => do
          let txn ← storeLocal txn primaryKey 0 (buffer key 128)
          let txn ← storeLocal txn primaryKey 1 (buffer value 1024)
          let txn ← txn.insertRow row
          return (.RCOK, s.indexInsert primaryKey row, txn)
  | some row =>
      match txn.getRow s.rows row .WR with
      | none => none
      | some (none, txn) => some (.Abort, s, txn)
      | some (some copy, txn) => do
          let existKey ← cString (← copy.getValue 0)
          if strcmp existKey (cStr key) ≠ 0 then return (.Abort, s, txn)
          let txn ← storeLocal txn (s.rows row).primaryKey 1 (buffer value 1024)
          return (.RCOK, s, txn)

/-- A row that is not handed out yet has no memory; its contents stand for nothing. -/
def empty : ByteStore :=
  { rows := fun _ => { tableName := bytes "Data_TABLE", primaryKey := 0,
                       data := { data := List.replicate 1152 0, full := List.length_replicate },
                       manager := RowOcc.init, live := false }
    curTabSize := 0
    index := IndexHash.initTable
    timestamp := 1 }

def load (m : Memory) (s : ByteStore) (primaryKey : Nat) (keyPtr valPtr : Bytes) : Option ByteStore :=
  (s.newRow m primaryKey keyPtr valPtr).map (fun next => next.indexInsert primaryKey s.curTabSize)

/-- `TestWorkload::init_table`: `set_value` copies the whole column from the short string. -/
def initTable (m : Memory) : Option ByteStore :=
  (List.range 10).foldlM (fun s rid => s.load m rid (bytes (toString rid) ++ 0 :: m.stack rid 0)
    (bytes (toString rid) ++ 0 :: m.stack rid 1)) empty

/-- One pair of the data file, with the timestamp its transaction draws. -/
def loadPair (m : Memory) (hash : Bytes → Nat) (s : ByteStore) (pair : Bytes × Bytes) : Option ByteStore :=
  (s.load m (hash pair.1) (buffer pair.1 128) (buffer pair.2 1024)).map
    (fun s => { s with timestamp := s.timestamp + 1 })

def initEngine (m : Memory) (hash : Bytes → Nat) (file : List (Bytes × Bytes)) : Option ByteStore := do
  file.foldlM (loadPair m hash) (← initTable m)

end ByteStore

/-- `Db` with the bytes of its rows. -/
structure ByteDb where
  store : ByteStore
  txns : Nat → Option ByteTxn
  nextId : Nat

namespace ByteDb

def setTxn (db : ByteDb) (t : Nat) (txn : Option ByteTxn) : ByteDb :=
  { db with txns := Function.update db.txns t txn }

def begin_txn (db : ByteDb) : Answer × ByteDb :=
  let ts := db.store.timestamp
  let db' := db.setTxn db.nextId (some (TxnMan.init ts))
  (.begun db.nextId, { db' with store := { db.store with timestamp := ts + 1 }, nextId := db.nextId + 1 })

def get (hash : Bytes → Nat) (db : ByteDb) (t : Nat) (key : Bytes) : Option (Answer × ByteDb) :=
  match db.txns t with
  | none => some (.code .ERROR, db)
  | some txn =>
      match db.store.read txn (hash key) key with
      | none => none
      | some (rc, value, txn) =>
          let answer := if Rc.ofRead rc = .OK then .value value else .code (Rc.ofRead rc)
          some (answer, db.setTxn t (some txn))

def put (m : Memory) (hash : Bytes → Nat) (db : ByteDb) (t : Nat) (key value : Bytes) : Option (Answer × ByteDb) :=
  match db.txns t with
  | none => some (.code .ERROR, db)
  | some txn =>
      match db.store.write m txn (hash key) key value with
      | none => none
      | some (rc, store, txn) =>
          some (.code (Rc.ofWrite rc), { db with store := store }.setTxn t (some txn))

def finish (db : ByteDb) (t : Nat) (txn : ByteTxn) (rc : RC) : Option (RC × ByteDb) :=
  match txn.finish db.store.rows db.store.timestamp t rc with
  | none => none
  | some (rc, rows, timestamp, _) =>
      some (rc, { db with store := { db.store with rows := rows, timestamp := timestamp } }.setTxn t none)

def commit (db : ByteDb) (t : Nat) : Option (Answer × ByteDb) :=
  match db.txns t with
  | none => some (.code .ERROR, db)
  | some txn =>
      match db.finish t txn .RCOK with
      | none => none
      | some (rc, db) => some (.code (Rc.ofFinish rc), db)

def abort_txn (db : ByteDb) (t : Nat) : Option (Answer × ByteDb) :=
  match db.txns t with
  | none => some (.code .ERROR, db)
  | some txn =>
      match db.finish t txn .Abort with
      | none => none
      | some (_, db) => some (.code .OK, db)

def perform (m : Memory) (hash : Bytes → Nat) (db : ByteDb) : Call → Option (Answer × ByteDb)
  | .begin_txn => some db.begin_txn
  | .get t key => db.get hash t key
  | .put t key value => db.put m hash t key value
  | .commit t => db.commit t
  | .abort_txn t => db.abort_txn t

/-- The state after a call with its answer. -/
def next (m : Memory) (hash : Bytes → Nat) (db : ByteDb) (event : Event) : Option ByteDb :=
  match db.perform m hash event.call with
  | none => none
  | some (answer, db) => if answer = event.answer then some db else none

/-- The server before its first client. -/
def initial (m : Memory) (hash : Bytes → Nat) (file : List (Bytes × Bytes)) : Option ByteDb :=
  (ByteStore.initEngine m hash file).map (fun store => { store := store, txns := fun _ => none, nextId := 1 })

end ByteDb

/-- One call of one client. -/
def ByteStep (m : Memory) (hash : Bytes → Nat) (db : ByteDb) (event : Event) (next : ByteDb) : Prop :=
  db.next m hash event = some next

/-- A pointer to a string that ends within so many bytes, which can all be read. -/
structure EndsIn (size : Nat) (ptr : Bytes) : Prop where
  long : size ≤ ptr.length
  ended : 0 ∈ ptr.take size

theorem cStr_text {text : Bytes} (clean : 0 ∉ text) (rest : Bytes) : cStr (text ++ 0 :: rest) = text := by
  have all : ∀ c ∈ text, decide (c ≠ 0) = true :=
    fun _ member => decide_eq_true (ne_of_mem_of_not_mem member clean)
  rw [cStr, List.takeWhile_append_of_pos all]
  simp

theorem cStr_append {front : Bytes} (ended : 0 ∈ front) (back : Bytes) : cStr (front ++ back) = cStr front := by
  obtain ⟨text, rest, rfl, clean⟩ := List.eq_append_cons_of_mem ended
  rw [List.append_assoc, List.cons_append, cStr_text clean, cStr_text clean]

/-- A text that fits before its NUL. -/
theorem endsIn_text {text rest : Bytes} {size : Nat} (clean : 0 ∉ text) (short : text.length < size)
    (long : size ≤ (text ++ 0 :: rest).length) :
    EndsIn size (text ++ 0 :: rest) ∧ cStr ((text ++ 0 :: rest).take size) = text := by
  have cut : (text ++ 0 :: rest).take size = text ++ 0 :: rest.take (size - text.length - 1) := by
    rw [List.take_append, List.take_of_length_le (Nat.le_of_lt short)]
    obtain ⟨n, count⟩ := Nat.exists_eq_succ_of_ne_zero (Nat.sub_ne_zero_of_lt short)
    rw [count, List.take_succ_cons, Nat.succ_sub_one]
  refine ⟨⟨long, ?_⟩, ?_⟩
  · rw [cut]
    exact List.mem_append_right _ List.mem_cons_self
  · rw [cut, cStr_text clean]

theorem endsIn_buffer (s : Bytes) {size : Nat} (positive : 0 < size) :
    EndsIn size (buffer s size) ∧ cStr ((buffer s size).take size) = strncpy s (size - 1) := by
  have short : (strncpy s (size - 1)).length < size := by
    rw [strncpy, List.length_take]
    omega
  have shape : buffer s size =
      strncpy s (size - 1) ++ 0 :: List.replicate (size - (strncpy s (size - 1)).length - 1) 0 := by
    rw [buffer, splice, List.take_zero, List.nil_append, Nat.zero_add, List.drop_replicate, ← List.replicate_succ]
    congr 2
    omega
  rw [shape]
  refine endsIn_text (strncpy_no_nul _ _) short ?_
  rw [List.length_append, List.length_cons, List.length_replicate]
  omega

/-- Both columns of a row hold strings. -/
structure Readable (row : ByteRow) : Prop where
  key : 0 ∈ row.data.take 128
  value : 0 ∈ row.data.drop 128

/-- What the pointers to the two columns read as. -/
def shown (row : ByteRow) : Columns where
  key := cStr row.data
  value := cStr (row.data.drop 128)

def StringRow : Type := { row : ByteRow // Readable row }

namespace StringRow

def bytes (row : StringRow) : ByteRow := row.val

def strings (row : StringRow) : Columns := shown row.bytes

/-- The row of these two columns. -/
def join (key value : Bytes) (sized : key.length = 128 ∧ value.length = 1024) (ended : 0 ∈ key ∧ 0 ∈ value) :
    StringRow where
  val := { data := key ++ value, full := by rw [List.length_append, sized.1, sized.2]; rfl }
  property := by
    constructor
    · show 0 ∈ (key ++ value).take 128
      rw [List.take_left' sized.1]
      exact ended.1
    · show 0 ∈ (key ++ value).drop 128
      rw [List.drop_left' sized.1]
      exact ended.2

theorem strings_join {key value : Bytes} (sized : key.length = 128 ∧ value.length = 1024) (ended : 0 ∈ key ∧ 0 ∈ value) :
    (join key value sized ended).strings = { key := cStr key, value := cStr value } := by
  have front : cStr (key ++ value) = cStr key := cStr_append ended.1 value
  have back : (key ++ value).drop 128 = value := List.drop_left' sized.1
  show ({ key := cStr (key ++ value), value := cStr ((key ++ value).drop 128) } : Columns) = _
  rw [front, back]

theorem length_data (row : StringRow) : row.bytes.data.length = 1152 := row.bytes.full

theorem length_take {size : Nat} {ptr : Bytes} (ended : EndsIn size ptr) : (ptr.take size).length = size := by
  rw [List.length_take]
  exact Nat.min_eq_left ended.long

theorem length_halves (row : StringRow) :
    (row.bytes.data.take 128).length = 128 ∧ (row.bytes.data.drop 128).length = 1024 := by
  rw [List.length_take, List.length_drop, row.length_data]
  decide

theorem cStr_take (row : StringRow) : cStr (row.bytes.data.take 128) = row.strings.key := by
  have ended : 0 ∈ row.bytes.data.take 128 := row.property.key
  have whole := cStr_append ended (row.bytes.data.drop 128)
  rw [List.take_append_drop] at whole
  exact whole.symm

def withKey (row : StringRow) (ptr : Bytes) (ended : EndsIn 128 ptr) : StringRow :=
  join (ptr.take 128) (row.bytes.data.drop 128) ⟨length_take ended, row.length_halves.2⟩ ⟨ended.ended, row.property.value⟩

def withValue (row : StringRow) (ptr : Bytes) (ended : EndsIn 1024 ptr) : StringRow :=
  join (row.bytes.data.take 128) (ptr.take 1024) ⟨row.length_halves.1, length_take ended⟩ ⟨row.property.key, ended.ended⟩

/-- The row that two pointers were copied to. -/
def of (keyPtr valPtr : Bytes) (key : EndsIn 128 keyPtr) (value : EndsIn 1024 valPtr) : StringRow :=
  join (keyPtr.take 128) (valPtr.take 1024) ⟨length_take key, length_take value⟩ ⟨key.ended, value.ended⟩

theorem strings_withKey (row : StringRow) {ptr : Bytes} (ended : EndsIn 128 ptr) :
    (row.withKey ptr ended).strings = { row.strings with key := cStr (ptr.take 128) } := strings_join _ _

theorem strings_withValue (row : StringRow) {ptr : Bytes} (ended : EndsIn 1024 ptr) :
    (row.withValue ptr ended).strings = { row.strings with value := cStr (ptr.take 1024) } := by
  rw [withValue, strings_join, cStr_take]

end StringRow

theorem row_eq {row other : ByteRow} (same : row.data = other.data) : row = other := by
  cases row
  cases other
  cases same
  rfl

theorem key_index : schema.getFieldIndex 0 = some 0 := rfl
theorem key_size : schema.getFieldSize 0 = some 128 := rfl
theorem value_index : schema.getFieldIndex 1 = some 128 := rfl
theorem value_size : schema.getFieldSize 1 = some 1024 := rfl

/-- `set_value` writes a column in its place. -/
theorem setValue_splice (row : ByteRow) {id pos size : Nat} {ptr : Bytes} (column : schema.getFieldIndex id = some pos)
    (sized : schema.getFieldSize id = some size) (long : size ≤ ptr.length) (within : pos + size ≤ 1152) :
    ∃ next, row.setValue id ptr = some next ∧ next.data = splice pos (ptr.take size) row.data := by
  have full : row.data.length = 1152 := row.full
  have fits : size ≤ ptr.length ∧ pos + size ≤ row.data.length := ⟨long, full ▸ within⟩
  simp only [RowT.setValue, column, sized, Option.bind_eq_bind, Option.bind_some, RowT.store, memcpy, dif_pos fits]
  exact ⟨_, rfl, rfl⟩

theorem setValue_key (row : ByteRow) {ptr : Bytes} (long : 128 ≤ ptr.length) :
    ∃ next, row.setValue 0 ptr = some next ∧ next.data = ptr.take 128 ++ row.data.drop 128 := by
  obtain ⟨next, wrote, data⟩ := setValue_splice row key_index key_size long (by decide)
  have count : (ptr.take 128).length = 128 := by rw [List.length_take]; exact Nat.min_eq_left long
  refine ⟨next, wrote, ?_⟩
  rw [data, splice, List.take_zero, List.nil_append, Nat.zero_add, count]

theorem setValue_value (row : ByteRow) {ptr : Bytes} (long : 1024 ≤ ptr.length) :
    ∃ next, row.setValue 1 ptr = some next ∧ next.data = row.data.take 128 ++ ptr.take 1024 := by
  obtain ⟨next, wrote, data⟩ := setValue_splice row value_index value_size long (by decide)
  have count : (ptr.take 1024).length = 1024 := by rw [List.length_take]; exact Nat.min_eq_left long
  have full : row.data.length = 1152 := row.full
  refine ⟨next, wrote, ?_⟩
  rw [data, splice, count, List.drop_of_length_le (by omega), List.append_nil]

theorem setValue_withKey (row : StringRow) {ptr : Bytes} (ended : EndsIn 128 ptr) :
    row.bytes.setValue 0 ptr = some (row.withKey ptr ended).bytes := by
  obtain ⟨next, wrote, data⟩ := setValue_key row.bytes ended.long
  rw [wrote]
  exact congrArg some (row_eq data)

theorem setValue_withValue (row : StringRow) {ptr : Bytes} (ended : EndsIn 1024 ptr) :
    row.bytes.setValue 1 ptr = some (row.withValue ptr ended).bytes := by
  obtain ⟨next, wrote, data⟩ := setValue_value row.bytes ended.long
  rw [wrote]
  exact congrArg some (row_eq data)

/-- Both columns written, nothing is left of what the memory held. -/
theorem setValue_of (row : ByteRow) {keyPtr valPtr : Bytes} (key : EndsIn 128 keyPtr) (value : EndsIn 1024 valPtr) :
    ∃ middle, row.setValue 0 keyPtr = some middle ∧
      middle.setValue 1 valPtr = some (StringRow.of keyPtr valPtr key value).bytes := by
  obtain ⟨middle, first, data⟩ := setValue_key row key.long
  obtain ⟨next, second, data'⟩ := setValue_value middle value.long
  refine ⟨middle, first, ?_⟩
  rw [second]
  apply congrArg some
  apply row_eq
  rw [data', data, List.take_left' (StringRow.length_take key)]
  rfl

theorem getValue_key (row : StringRow) : row.bytes.getValue 0 = some row.bytes.data := rfl

theorem getValue_value (row : StringRow) : row.bytes.getValue 1 = some (row.bytes.data.drop 128) := rfl

theorem cString_key (row : StringRow) : cString row.bytes.data = some row.strings.key :=
  if_pos (List.mem_of_mem_take row.property.key)

theorem cString_value (row : StringRow) : cString (row.bytes.data.drop 128) = some row.strings.value :=
  if_pos row.property.value

end DataAgentDB.Kv
