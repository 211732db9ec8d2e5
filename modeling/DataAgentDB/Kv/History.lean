import DataAgentDB.Kv.Sound

/-! What a trace of calls and answers says: who put what, who committed, and which rows of the
store nobody has committed yet. -/

namespace DataAgentDB.Kv
open Storage Server TxnMan

/-- A string that a column of `count` bytes and a NUL holds whole. -/
def Fits (count : Nat) (s : Bytes) : Prop := s.length ≤ count ∧ 0 ∉ s

instance (count : Nat) (s : Bytes) : Decidable (Fits count s) := inferInstanceAs (Decidable (_ ∧ _))

theorem cStr_of_no_nul {s : Bytes} (clean : 0 ∉ s) : cStr s = s := by
  rw [cStr, List.takeWhile_eq_self_iff]
  intro c member
  exact decide_eq_true (fun zero => clean (zero ▸ member))

theorem strncpy_of_fits {count : Nat} {s : Bytes} (fits : Fits count s) : strncpy s count = s := by
  rw [strncpy, cStr_of_no_nul fits.2, List.take_of_length_le fits.1]

namespace Event

/-- The value of a put of the key by the transaction that answered `OK`. -/
def puts (t : Nat) (key : Bytes) : Event → Option Bytes
  | ⟨.put t' key' value, .code .OK⟩ => if t' = t ∧ key' = key then some value else none
  | _ => none

/-- The transaction whose commit answered `OK`. -/
def commits : Event → Option Nat
  | ⟨.commit t, .code .OK⟩ => some t
  | _ => none

end Event

def lastPut (trace : List Event) (t : Nat) (key : Bytes) : Option Bytes :=
  (trace.filterMap (Event.puts t key)).getLast?

/-- The transactions whose commit answered `OK`, in that order. -/
def committed (trace : List Event) : List Nat := trace.filterMap Event.commits

theorem lastPut_snoc (trace : List Event) (event : Event) (t : Nat) (key : Bytes) :
    lastPut (trace ++ [event]) t key = (event.puts t key).or (lastPut trace t key) := by
  unfold lastPut
  rw [List.filterMap_append]
  cases value : event.puts t key with
  | none => simp [value]
  | some v => simp [value]

theorem committed_snoc (trace : List Event) (event : Event) :
    committed (trace ++ [event]) = committed trace ++ event.commits.toList := by
  unfold committed
  rw [List.filterMap_append]
  cases value : event.commits <;> simp [value]

namespace Db

/-- What a transaction that reads the key alone would get. -/
def readable (hash : Bytes → Nat) (db : Db) (key : Bytes) : Option Bytes :=
  match db.store.indexRead (hash key) with
  | none => none
  | some row =>
      let found := db.store.rows row
      if found.live ∧ found.data.key = cStr key then some found.data.value else none

def inserts (db : Db) (row t : Nat) : Bool := (db.txns t).any (fun txn => row ∈ txn.insertRows)

/-- The open transaction that inserted a row. -/
def inserter (db : Db) (row : Nat) : Option Nat := (List.range db.nextId).find? (db.inserts row)

/-- An open transaction inserted the row and no transaction committed it. -/
def uncommitted (db : Db) (row : Nat) : Bool :=
  (db.inserter row).isSome && (db.store.rows row).manager.wts = 0

/-- The row that the next `get_row` of the transaction for the key copies or refuses. -/
def firstAccess (hash : Bytes → Nat) (db : Db) (t : Nat) (key : Bytes) : Option Nat :=
  match db.txns t with
  | none => none
  | some txn =>
      match txn.recordPos (hash key) with
      | none => db.store.indexRead (hash key)
      | some _ => none

end Db

section Facts
variable {hash : Bytes → Nat} {db : Db}

theorem inserter_eq_some (sound : Sound db) {t row : Nat} :
    db.inserter row = some t ↔ ∃ txn, db.txns t = some txn ∧ row ∈ txn.insertRows := by
  have holds : ∀ u, db.inserts row u = true ↔ ∃ txn, db.txns u = some txn ∧ row ∈ txn.insertRows := by
    intro u
    simp [Db.inserts, Option.any_eq_true]
  unfold Db.inserter
  constructor
  · intro found
    exact (holds t).mp (List.find?_some found)
  · rintro ⟨txn, opened, member⟩
    cases found : (List.range db.nextId).find? (db.inserts row) with
    | none =>
      have missing := List.find?_eq_none.mp found t (List.mem_range.mpr (sound.opened t txn opened).1)
      exact absurd ((holds t).mpr ⟨txn, opened, member⟩) missing
    | some u =>
      obtain ⟨other, opened', member'⟩ := (holds u).mp (List.find?_some found)
      rw [sound.apart u t other txn row opened' opened member' member]

theorem uncommitted_iff (sound : Sound db) {row : Nat} : db.uncommitted row = true ↔
    (∃ t txn, db.txns t = some txn ∧ row ∈ txn.insertRows) ∧ (db.store.rows row).manager.wts = 0 := by
  simp only [Db.uncommitted, Bool.and_eq_true, decide_eq_true_eq, Option.isSome_iff_exists,
    inserter_eq_some sound]

/-- With its version and its inserter the same, a row stays committed or uncommitted. -/
theorem uncommitted_congr {next : Db} {row : Nat} (sound : Sound db) (sound' : Sound next)
    (version : (next.store.rows row).manager.wts = (db.store.rows row).manager.wts)
    (inserts : ∀ t, (∃ txn, next.txns t = some txn ∧ row ∈ txn.insertRows) ↔
      ∃ txn, db.txns t = some txn ∧ row ∈ txn.insertRows) : next.uncommitted row = db.uncommitted row := by
  rw [Bool.eq_iff_iff, uncommitted_iff sound, uncommitted_iff sound', version]
  exact and_congr_left (fun _ => exists_congr inserts)

/-- Who inserted a row, after one transaction changes or ends. -/
theorem inserts_update {t row : Nat} {txn : Txn} {changed : Option Txn} (opened : db.txns t = some txn)
    (same : (∃ other, changed = some other ∧ row ∈ other.insertRows) ↔ row ∈ txn.insertRows) (u : Nat) :
    (∃ other, Function.update db.txns t changed u = some other ∧ row ∈ other.insertRows) ↔
      ∃ other, db.txns u = some other ∧ row ∈ other.insertRows := by
  by_cases own : u = t
  · subst own
    rw [Function.update_self, same, opened]
    simp
  · rw [Function.update_of_ne own]

theorem inserts_kept {t row : Nat} {txn txn' : Txn} (opened : db.txns t = some txn)
    (same : row ∈ txn'.insertRows ↔ row ∈ txn.insertRows) (u : Nat) :
    (∃ other, Function.update db.txns t (some txn') u = some other ∧ row ∈ other.insertRows) ↔
      ∃ other, db.txns u = some other ∧ row ∈ other.insertRows :=
  inserts_update opened (by simpa using same) u

theorem inserts_ended {t row : Nat} {txn : Txn} (opened : db.txns t = some txn)
    (outside : row ∉ txn.insertRows) (u : Nat) :
    (∃ other, Function.update db.txns t none u = some other ∧ row ∈ other.insertRows) ↔
      ∃ other, db.txns u = some other ∧ row ∈ other.insertRows :=
  inserts_update opened (by simpa using outside) u

theorem inserts_begun {row startTs : Nat} (sound : Sound db) (u : Nat) :
    (∃ other, Function.update db.txns db.nextId (some (TxnMan.init startTs)) u = some other ∧
      row ∈ other.insertRows) ↔ ∃ other, db.txns u = some other ∧ row ∈ other.insertRows := by
  by_cases own : u = db.nextId
  · subst own
    have unused : ∀ other, db.txns db.nextId ≠ some other :=
      fun other opened => absurd (sound.opened _ other opened).1 (lt_irrefl _)
    simp [TxnMan.init, unused]
  · rw [Function.update_of_ne own]

theorem firstAccess_eq {t : Nat} {key : Bytes} {txn : Txn} (opened : db.txns t = some txn)
    (missing : txn.recordPos (hash key) = none) :
    db.firstAccess hash t key = db.store.indexRead (hash key) := by
  simp [Db.firstAccess, opened, missing]

/-- A row the index has under a key and the access table does not is accessed for the first time. -/
theorem Opened.missing {txn : Txn} {p row : Nat} (here : Opened db.store txn)
    (found : db.store.indexRead p = some row) (absent : ∀ acc ∈ txn.accesses, acc.origRow ≠ row) :
    txn.recordPos p = none := by
  cases place : txn.recordPos p with
  | none => rfl
  | some i =>
    obtain ⟨acc, entry, head⟩ := here.entry place
    rw [found] at head
    exact absurd (Option.some.inj head).symm (absent acc (List.mem_of_getElem? entry))

end Facts

end DataAgentDB.Kv
