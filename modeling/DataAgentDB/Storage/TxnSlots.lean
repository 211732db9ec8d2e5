import DataAgentDB.Lib.Simulates
import DataAgentDB.Storage.Finish

/-! The access table as txn.cpp keeps it: an array of pointers to `Access` objects that are
allocated when first needed, left behind by a failed access, permuted by the sort of `validate` and
used again by the next transaction. Its calls simulate those of `TxnMan`, which has a list for it. -/

namespace DataAgentDB.Storage
open Simulates

/-- Why a call on the table does not come back. The last is about the rows alone: a mutex is held, a
row is freed or newer than it may be, or there are too many inserts. -/
inductive TableFault where
  | pastArray
  | nullEntry
  | nullRow
  | nullData
  | rwSet
  | incomplete
  deriving DecidableEq, Repr

/-- An `Access` object; both pointers may be `NULL`. -/
structure Slot (ρ α : Type) where
  type : AccessT
  origRow : Option ρ
  data : Option α
  deriving DecidableEq, Repr

/-- `txn_man` with its array of pointers. -/
structure TxnSlots (ρ α : Type) where
  startTs : Nat
  endTs : Nat
  rowCnt : Nat
  wrCnt : Nat
  lockCnt : Nat
  accesses : Nat → Option (Slot ρ α)
  numAccessesAlloc : Nat
  recordPos : Nat → Option Nat
  insertRows : List ρ

namespace TxnSlots

variable {ρ α : Type}

/-- `txn_man::init`, which leaves the timestamps as they are. -/
def init (startTs endTs : Nat) : TxnSlots ρ α :=
  { startTs := startTs, endTs := endTs, rowCnt := 0, wrCnt := 0, lockCnt := 0, accesses := fun _ => none,
    numAccessesAlloc := 0, recordPos := fun _ => none, insertRows := [] }

/-- `*accesses[i]`. -/
def entry (accesses : Nat → Option (Slot ρ α)) (i : Nat) : Except TableFault (Slot ρ α) :=
  if i < MAX_ROW_PER_TXN then
    match accesses i with
    | none => .error .nullEntry
    | some acc => .ok acc
  else .error .pastArray

/-- `accesses[i]->orig_row`, for a call on it. -/
def entryRow (accesses : Nat → Option (Slot ρ α)) (i : Nat) : Except TableFault (Slot ρ α × ρ) := do
  let acc ← entry accesses i
  match acc.origRow with
  | none => .error .nullRow
  | some row => return (acc, row)

def put (txn : TxnSlots ρ α) (i : Nat) (acc : Slot ρ α) : TxnSlots ρ α :=
  { txn with accesses := Function.update txn.accesses i (some acc) }

/-- The object at `row_cnt`, zeroed if it is new. -/
def allocate (txn : TxnSlots ρ α) : Except TableFault (TxnSlots ρ α) :=
  if txn.rowCnt < MAX_ROW_PER_TXN then
    match txn.accesses txn.rowCnt with
    | none =>
      .ok { txn.put txn.rowCnt { type := .RD, origRow := none, data := none } with
        numAccessesAlloc := txn.numAccessesAlloc + 1 }
    | some _ => .ok txn
  else .error .pastArray

def upgrade (txn : TxnSlots ρ α) (pos : Nat) (acc : Slot ρ α) (type : AccessT) : TxnSlots ρ α :=
  if acc.type = .RD ∧ type = .WR then
    { txn.put pos { acc with type := .WR } with wrCnt := txn.wrCnt + 1 }
  else txn

def record (txn : TxnSlots ρ α) (rid : Nat) (row : ρ) (type : AccessT) (copy : α) : TxnSlots ρ α :=
  { txn.put txn.rowCnt { type := type, origRow := some row, data := some copy } with
    recordPos := Function.update txn.recordPos rid (some txn.rowCnt)
    rowCnt := txn.rowCnt + 1
    wrCnt := if type = .WR then txn.wrCnt + 1 else txn.wrCnt }

/-- `txn_man::get_row`; `blank` is what the memory of a new local copy holds. -/
def getRow (txn : TxnSlots ρ α) (rows : ρ → Row α) (row : ρ) (type : AccessT) (blank : α) :
    Except TableFault (Option α × TxnSlots ρ α) :=
  if (rows row).live then
    let rid := (rows row).primaryKey
    match txn.recordPos rid with
    | some pos => do
        let acc ← entry txn.accesses pos
        return (acc.data, txn.upgrade pos acc type)
    | none => do
        let txn ← txn.allocate
        let acc ← entry txn.accesses txn.rowCnt
        match (rows row).access txn.startTs with
        | none => .error .incomplete
        -- the copy stays in the object, which the next access uses again
        | some none => return (none, txn.put txn.rowCnt { acc with data := some blank })
        | some (some copy) => return (some copy, txn.record rid row type copy)
  else .error .incomplete

/-- A write through the pointer that `get_row` handed out. -/
def setLocal (txn : TxnSlots ρ α) (rid : Nat) (value : α → α) : Except TableFault (TxnSlots ρ α) :=
  match txn.recordPos rid with
  | none => .ok txn
  | some pos => do
      let acc ← entry txn.accesses pos
      match acc.data with
      | none => .error .nullData
      | some copy => return txn.put pos { acc with data := some (value copy) }

def insertRow (txn : TxnSlots ρ α) (row : ρ) : Except TableFault (TxnSlots ρ α) :=
  if txn.insertRows.length < MAX_ROW_PER_TXN then .ok { txn with insertRows := txn.insertRows ++ [row] }
  else .error .incomplete

section Finish
variable [DecidableEq ρ]

/-- `row_t::return_row`, with its assertion on the copy. -/
def returnRow (endTs : Nat) (type : AccessT) (rows : ρ → Row α) (row : ρ) (data : Option α) :
    Except TableFault (ρ → Row α) :=
  match data with
  | none => .error .nullData
  | some copy =>
    if type = .WR then
      if (rows row).live ∧ (rows row).manager.wts < endTs then
        .ok (Function.update rows row ((rows row).write copy endTs))
      else .error .incomplete
    else .ok rows

/-- The loop of `cleanup`, downwards from the entry before `left`. -/
def returnEntries (endTs : Nat) (rc : RC) :
    Nat → (ρ → Row α) → (Nat → Option (Slot ρ α)) → Except TableFault ((ρ → Row α) × (Nat → Option (Slot ρ α)))
  | 0, rows, accesses => .ok (rows, accesses)
  | left + 1, rows, accesses => do
      let (acc, row) ← entryRow accesses left
      let type := if acc.type = .WR ∧ rc = .Abort then .XP else acc.type
      let rows ← returnRow endTs type rows row acc.data
      returnEntries endTs rc left rows (Function.update accesses left (some { acc with data := none }))

def cleanup (txn : TxnSlots ρ α) (rows : ρ → Row α) (rc : RC) : Except TableFault ((ρ → Row α) × TxnSlots ρ α) := do
  let (rows, accesses) ← returnEntries txn.endTs rc txn.rowCnt rows txn.accesses
  let rows ← if rc = .Abort then orFail .incomplete (TxnMan.freeRows rows txn.insertRows) else .ok rows
  return (rows, { txn with
    accesses := accesses, rowCnt := 0, wrCnt := 0, insertRows := [], recordPos := fun _ => none })

/-- The next `left` entries from `i` on, with their rows. -/
def readEntries (accesses : Nat → Option (Slot ρ α)) : Nat → Nat → Except TableFault (List (Slot ρ α × ρ))
  | 0, _ => .ok []
  | left + 1, i => do
      let first ← entryRow accesses i
      let rest ← readEntries accesses left (i + 1)
      return first :: rest

/-- The bubble sort at the head of `OptCC::validate`, on the pointers below `row_cnt`. -/
def sortEntries (txn : TxnSlots ρ α) (rows : ρ → Row α) : Except TableFault (TxnSlots ρ α) := do
  let read ← readEntries txn.accesses txn.rowCnt 0
  if read.all (fun read => (rows read.2).live) then
    let sorted := BubbleSort.sort (fun a b => sortsAfter (rows a.2) (rows b.2)) read
    return { txn with accesses := fun i => (sorted[i]?).elim (txn.accesses i) (fun read => some read.1) }
  else .error .incomplete

/-- The latch loop from entry `i` on: the rows after it, `lock_cnt`, and whether every check passed. -/
def latchEntries (startTs holder : Nat) (accesses : Nat → Option (Slot ρ α)) :
    Nat → Nat → (ρ → Row α) → Except TableFault ((ρ → Row α) × Nat × Bool)
  | 0, i, rows => .ok (rows, i, true)
  | left + 1, i, rows => do
      let (_, orig) ← entryRow accesses i
      let row ← orFail .incomplete ((rows orig).latch holder)
      let rows := Function.update rows orig row
      if row.validate startTs then latchEntries startTs holder accesses left (i + 1) rows
      else .ok (rows, i + 1, false)

/-- The release loop over the next `left` entries. -/
def releaseEntries (accesses : Nat → Option (Slot ρ α)) : Nat → Nat → (ρ → Row α) → Except TableFault (ρ → Row α)
  | 0, _, rows => .ok rows
  | left + 1, i, rows => do
      let (_, orig) ← entryRow accesses i
      if (rows orig).live then
        releaseEntries accesses left (i + 1) (Function.update rows orig (rows orig).release)
      else .error .incomplete

/-- `OptCC::validate`. -/
def validate (txn : TxnSlots ρ α) (rows : ρ → Row α) (timestamp holder : Nat) :
    Except TableFault (RC × (ρ → Row α) × Nat × TxnSlots ρ α) := do
  let txn ← txn.sortEntries rows
  let (rows, lockCnt, ok) ← latchEntries txn.startTs holder txn.accesses txn.rowCnt 0 rows
  let txn := { txn with lockCnt := lockCnt }
  if ok then
    let (rows, txn) ← { txn with endTs := timestamp }.cleanup rows .RCOK
    let rows ← releaseEntries txn.accesses txn.lockCnt 0 rows
    return (.RCOK, rows, timestamp + 1, txn)
  else
    let (rows, txn) ← txn.cleanup rows .Abort
    let rows ← releaseEntries txn.accesses txn.lockCnt 0 rows
    return (.Abort, rows, timestamp, txn)

def finish (txn : TxnSlots ρ α) (rows : ρ → Row α) (timestamp holder : Nat) (rc : RC) :
    Except TableFault (RC × (ρ → Row α) × Nat × TxnSlots ρ α) :=
  if rc = .RCOK then txn.validate rows timestamp holder
  else do
    let (rows, txn) ← txn.cleanup rows rc
    return (rc, rows, timestamp, txn)

/-- The loop of `get_rw_set` from entry `i` on. -/
def splitEntries (accesses : Nat → Option (Slot ρ α)) :
    Nat → Nat → List (Option ρ) → List (Option ρ) → Except TableFault (List (Option ρ) × List (Option ρ))
  | 0, _, rset, wset => .ok (rset, wset)
  | left + 1, i, rset, wset => do
      let acc ← entry accesses i
      if acc.type = .WR then splitEntries accesses left (i + 1) rset (wset ++ [acc.origRow])
      else splitEntries accesses left (i + 1) (rset ++ [acc.origRow]) wset

/-- `OptCC::get_rw_set`, with its two assertions. -/
def getRwSet (txn : TxnSlots ρ α) : Except TableFault (List (Option ρ) × List (Option ρ)) := do
  let (rset, wset) ← splitEntries txn.accesses txn.rowCnt 0 [] []
  if wset.length = txn.wrCnt ∧ rset.length = txn.rowCnt - txn.wrCnt then return (rset, wset)
  else .error .rwSet

end Finish

/-- The object of a list entry. -/
def ofAccess (acc : Access ρ α) : Slot ρ α :=
  { type := acc.type, origRow := some acc.origRow, data := some acc.data }

/-- The objects from `i` to `j` are those of the list. -/
def Holds (accesses : Nat → Option (Slot ρ α)) (list : List (Access ρ α)) (below : Nat) : Prop :=
  ∀ i acc, i < below → list[i]? = some acc → accesses i = some (ofAccess acc)

/-- Each entry of the list has an object, which still points to its row. -/
def Points (accesses : Nat → Option (Slot ρ α)) (list : List (Access ρ α)) : Prop :=
  ∀ i acc, list[i]? = some acc → ∃ slot, accesses i = some slot ∧ slot.origRow = some acc.origRow

/-- The array holds the list below `row_cnt`; what stands past it does not matter, nor does
`lock_cnt`, which `validate` sets first. -/
structure Refines (txn : TxnSlots ρ α) (man : TxnMan ρ α) : Prop where
  startTs : txn.startTs = man.startTs
  endTs : txn.endTs = man.endTs
  rowCnt : txn.rowCnt = man.accesses.length
  wrCnt : txn.wrCnt = man.wrCnt
  recordPos : txn.recordPos = man.recordPos
  insertRows : txn.insertRows = man.insertRows
  holds : Holds txn.accesses man.accesses man.accesses.length
  room : man.accesses.length ≤ MAX_ROW_PER_TXN
  places : ∀ rid pos, man.recordPos rid = some pos → pos < man.accesses.length

variable {accesses : Nat → Option (Slot ρ α)} {list : List (Access ρ α)} {rows : ρ → Row α}
  {txn : TxnSlots ρ α} {man : TxnMan ρ α} {i left : Nat} {acc : Access ρ α}

theorem lt_length (found : list[i]? = some acc) : i < list.length := (List.getElem?_eq_some_iff.mp found).1

theorem getElem?_of_lt (below : i < list.length) : ∃ acc, list[i]? = some acc :=
  ⟨list[i], List.getElem?_eq_getElem below⟩

theorem drop_cons (found : list[i]? = some acc) : list.drop i = acc :: list.drop (i + 1) := by
  obtain ⟨below, rfl⟩ := List.getElem?_eq_some_iff.mp found
  exact List.drop_eq_getElem_cons below

theorem entry_eq {slot : Slot ρ α} (below : i < MAX_ROW_PER_TXN) (found : accesses i = some slot) :
    entry accesses i = .ok slot := by
  rw [entry, if_pos below, found]

theorem entryRow_eq {slot : Slot ρ α} {row : ρ} (below : i < MAX_ROW_PER_TXN) (found : accesses i = some slot)
    (orig : slot.origRow = some row) : entryRow accesses i = .ok (slot, row) := by
  rw [entryRow, entry_eq below found, ok_bind]
  simp only [orig]
  rfl

theorem Holds.points {below : Nat} (holds : Holds accesses list below) (all : list.length ≤ below) :
    Points accesses list := by
  intro i acc found
  exact ⟨ofAccess acc, holds i acc (Nat.lt_of_lt_of_le (lt_length found) all) found, rfl⟩

/-- Clearing the copy of an entry leaves its row. -/
theorem Points.clear (points : Points accesses list) (found : list[i]? = some acc) :
    Points (Function.update accesses i (some { ofAccess acc with data := none })) list := by
  intro j other there
  by_cases here : j = i
  · subst here
    cases found.symm.trans there
    exact ⟨_, Function.update_self .., rfl⟩
  · rw [Function.update_of_ne here]
    exact points j other there

/-- Nothing is below `row_cnt`; the array may hold objects all the same. -/
structure Emptied (txn : TxnSlots ρ α) : Prop where
  rowCnt : txn.rowCnt = 0
  wrCnt : txn.wrCnt = 0
  insertRows : txn.insertRows = []
  recordPos : txn.recordPos = fun _ => none

theorem init_emptied (startTs endTs : Nat) : Emptied (init startTs endTs : TxnSlots ρ α) := ⟨rfl, rfl, rfl, rfl⟩

theorem Emptied.refines (emptied : Emptied txn) (startTs : txn.startTs = man.startTs) (endTs : txn.endTs = man.endTs) :
    Refines txn man.reset where
  startTs := startTs
  endTs := endTs
  rowCnt := emptied.rowCnt
  wrCnt := emptied.wrCnt
  recordPos := emptied.recordPos
  insertRows := emptied.insertRows
  holds := by
    intro i acc below
    exact absurd below (Nat.not_lt_zero i)
  room := Nat.zero_le _
  places := by
    intro rid pos recorded
    cases recorded

/-- The excuse of every call but one that needs an entry past the array. -/
abbrev Like {X Y : Type} (R : X → Y → Prop) : Except TableFault X → Option Y → Prop := Sim (· = .incomplete) R

section Loops
variable [DecidableEq ρ]

/-- What `return_row` makes of the rows for one entry of the list. -/
def returned (endTs : Nat) (rc : RC) (rows : ρ → Row α) (acc : Access ρ α) : Option (ρ → Row α) :=
  if acc.type = .WR ∧ rc ≠ .Abort then
    if (rows acc.origRow).live ∧ (rows acc.origRow).manager.wts < endTs then
      some (Function.update rows acc.origRow ((rows acc.origRow).write acc.data endTs))
    else none
  else some rows

theorem returnRows_cons (endTs : Nat) (rc : RC) (rows : ρ → Row α) (acc : Access ρ α) (rest : List (Access ρ α)) :
    TxnMan.returnRows endTs rc rows (acc :: rest) =
      returned endTs rc rows acc >>= fun rows => TxnMan.returnRows endTs rc rows rest := by
  rw [TxnMan.returnRows, returned]
  split
  · simp only
    split <;> rfl
  · rfl

theorem returnRow_like (endTs : Nat) (rc : RC) (rows : ρ → Row α) (acc : Access ρ α) :
    Like Eq (returnRow endTs (if acc.type = .WR ∧ rc = .Abort then .XP else acc.type) rows acc.origRow
      (some acc.data)) (returned endTs rc rows acc) := by
  unfold returnRow returned
  by_cases write : acc.type = .WR
  · by_cases abort : rc = .Abort
    · simp only [write, abort, and_self, ↓reduceIte, ne_eq, not_true_eq_false, and_false, reduceCtorEq]
      exact .ok rfl
    · simp only [write, abort, and_false, ↓reduceIte, ne_eq, not_false_eq_true, and_self]
      split
      · exact .ok rfl
      · exact .error rfl
  · simp only [write, false_and, ↓reduceIte]
    exact .ok rfl

/-- The loop of `cleanup` gives back the rows of the list from its end, and leaves them in reach. -/
theorem returnEntries_like (endTs : Nat) (rc : RC) (room : list.length ≤ MAX_ROW_PER_TXN) (below : left ≤ list.length)
    (holds : Holds accesses list left) (points : Points accesses list) (rows : ρ → Row α) :
    Like (fun x rows => x.1 = rows ∧ Points x.2 list) (returnEntries endTs rc left rows accesses)
      (TxnMan.returnRows endTs rc rows (list.take left).reverse) := by
  induction left generalizing rows accesses with
  | zero => exact .ok ⟨rfl, points⟩
  | succ left ih =>
    obtain ⟨acc, found⟩ := getElem?_of_lt (i := left) below
    have stored := holds left acc (Nat.lt_succ_self left) found
    have last : (list.take (left + 1)).reverse = acc :: (list.take left).reverse := by
      rw [List.take_add_one, found]
      simp
    rw [returnEntries, entryRow_eq (Nat.lt_of_lt_of_le below room) stored rfl, ok_bind, last, returnRows_cons]
    refine (returnRow_like endTs rc rows acc).bind ?_
    rintro rows _ rfl
    refine ih (Nat.le_of_succ_le below) ?_ (points.clear found) rows
    intro i other before there
    rw [Function.update_of_ne (Nat.ne_of_lt before)]
    exact holds i other (Nat.lt_succ_of_lt before) there

theorem latchEntries_like (startTs holder : Nat) (room : list.length ≤ MAX_ROW_PER_TXN)
    (points : Points accesses list) (all : i + left = list.length) (rows : ρ → Row α) :
    Like (fun x y => x = y ∧ y.2.1 ≤ list.length) (latchEntries startTs holder accesses left i rows)
      (TxnMan.latchRows startTs holder rows (list.drop i) i) := by
  induction left generalizing i rows with
  | zero =>
    rw [List.drop_eq_nil_of_le (by omega)]
    exact .ok ⟨rfl, by simp only; omega⟩
  | succ left ih =>
    have below : i < list.length := by omega
    obtain ⟨acc, found⟩ := getElem?_of_lt below
    obtain ⟨slot, stored, orig⟩ := points i acc found
    rw [latchEntries, entryRow_eq (by omega) stored orig, ok_bind, drop_cons found, TxnMan.latchRows]
    cases locked : (rows acc.origRow).latch holder with
    | none =>
      simp only [locked]
      exact .error rfl
    | some row =>
      simp only [locked, orFail, ok_bind]
      split
      · exact ih (by omega) _
      · exact .ok ⟨rfl, by simp only; omega⟩

theorem releaseEntries_like (room : list.length ≤ MAX_ROW_PER_TXN) (points : Points accesses list)
    (within : i + left ≤ list.length) (rows : ρ → Row α) :
    Like Eq (releaseEntries accesses left i rows)
      (TxnMan.releaseRows rows (((list.drop i).take left).map Access.origRow)) := by
  induction left generalizing i rows with
  | zero => exact .ok rfl
  | succ left ih =>
    have below : i < list.length := by omega
    obtain ⟨acc, found⟩ := getElem?_of_lt below
    obtain ⟨slot, stored, orig⟩ := points i acc found
    rw [releaseEntries, entryRow_eq (by omega) stored orig, ok_bind, drop_cons found, List.take_succ_cons,
      List.map_cons, TxnMan.releaseRows]
    simp only
    split
    · exact ih (by omega) _
    · exact .error rfl

omit [DecidableEq ρ] in
theorem readEntries_eq (room : list.length ≤ MAX_ROW_PER_TXN) (holds : Holds accesses list list.length)
    (all : i + left = list.length) :
    readEntries accesses left i = .ok ((list.drop i).map (fun acc => (ofAccess acc, acc.origRow))) := by
  induction left generalizing i with
  | zero =>
    rw [List.drop_eq_nil_of_le (by omega)]
    rfl
  | succ left ih =>
    have below : i < list.length := by omega
    obtain ⟨acc, found⟩ := getElem?_of_lt below
    rw [readEntries, entryRow_eq (by omega) (holds i acc (by omega) found) rfl, ok_bind, ih (by omega), ok_bind,
      drop_cons found, List.map_cons]
    rfl

end Loops

section Calls
variable [DecidableEq ρ]

omit [DecidableEq ρ] in
/-- The sort leaves the pointers in the order of the list, unless it reads a freed row. -/
theorem sortEntries_eq (refines : Refines txn man) (rows : ρ → Row α) :
    ∃ txn', Refines txn' (man.sortAccesses rows) ∧ txn.sortEntries rows =
      if man.accesses.all (fun acc => (rows acc.origRow).live) then .ok txn' else .error .incomplete := by
  have all : 0 + txn.rowCnt = man.accesses.length := (Nat.zero_add _).trans refines.rowCnt
  have read := readEntries_eq refines.room refines.holds all
  have same := (man.sortAccesses_perm rows).length_eq
  rw [List.drop_zero] at read
  rw [sortEntries, read, ok_bind, List.all_map]
  refine ⟨_, ?_, rfl⟩
  refine { refines with rowCnt := ?rowCnt, holds := ?holds, room := ?room, places := ?places }
  case rowCnt => exact refines.rowCnt.trans same.symm
  case holds =>
    intro i acc _ found
    have sorted : (BubbleSort.sort (fun a b : Access ρ α => sortsAfter (rows a.origRow) (rows b.origRow))
        man.accesses)[i]? = some acc := found
    simp [BubbleSort.sort_map, List.getElem?_map, sorted]
  case room => exact same ▸ refines.room
  case places => exact fun rid pos recorded => same ▸ refines.places rid pos recorded

/-- `cleanup` empties the table of both; the rows of the old entries stay in reach of the latches. -/
theorem cleanup_like (refines : Refines txn man) (rows : ρ → Row α) (rc : RC) :
    Like (fun x y => x.1 = y.1 ∧ Refines x.2 y.2 ∧ Points x.2.accesses man.accesses ∧ x.2.lockCnt = txn.lockCnt)
      (txn.cleanup rows rc) (man.cleanup rows rc) := by
  have points := refines.holds.points (Nat.le_refl _)
  have loop := returnEntries_like man.endTs rc refines.room (Nat.le_refl _) refines.holds points rows
  rw [List.take_length] at loop
  rw [cleanup, TxnMan.cleanup, refines.rowCnt, refines.endTs, refines.insertRows]
  refine loop.bind ?_
  rintro ⟨rows, accesses⟩ _ ⟨rfl, points'⟩
  have empty : ∀ rows : ρ → Row α, Like (fun x y => x.1 = y.1 ∧ Refines x.2 y.2 ∧
      Points x.2.accesses man.accesses ∧ x.2.lockCnt = txn.lockCnt)
      (.ok (rows, { txn with
        endTs := man.endTs, accesses := accesses, rowCnt := 0, wrCnt := 0, insertRows := [], recordPos := fun _ => none }))
      (some (rows, man.reset)) := by
    intro rows
    exact .ok ⟨rfl, Emptied.refines ⟨rfl, rfl, rfl, rfl⟩ refines.startTs rfl, points', rfl⟩
  by_cases abort : rc = .Abort
  · simp only [abort, ↓reduceIte]
    refine (orFail_sim TableFault.incomplete (TxnMan.freeRows rows man.insertRows)).bind ?_
    rintro rows _ rfl
    exact empty rows
  · simp only [abort, ↓reduceIte]
    exact empty rows

/-- What a call of `finish` gives back. -/
def SameEnd (x : RC × (ρ → Row α) × Nat × TxnSlots ρ α) (y : RC × (ρ → Row α) × Nat × TxnMan ρ α) : Prop :=
  x.1 = y.1 ∧ x.2.1 = y.2.1 ∧ x.2.2.1 = y.2.2.1 ∧ Refines x.2.2.2 y.2.2.2

/-- After the latches: the rows are given back, and the first `lock_cnt` entries released. -/
theorem ending_like (refines : Refines txn man) (within : txn.lockCnt ≤ man.accesses.length) (rows : ρ → Row α)
    (rc answer : RC) (timestamp : Nat) :
    Like SameEnd
      (txn.cleanup rows rc >>= fun x => releaseEntries x.2.accesses x.2.lockCnt 0 x.1 >>= fun rows =>
        pure (answer, rows, timestamp, x.2))
      (man.cleanup rows rc >>= fun y =>
        TxnMan.releaseRows y.1 ((man.accesses.take txn.lockCnt).map Access.origRow) >>= fun rows =>
          pure (answer, rows, timestamp, y.2)) := by
  refine (cleanup_like refines rows rc).bind ?_
  rintro ⟨rows, txn'⟩ ⟨_, man'⟩ ⟨rfl, refines', points, same⟩
  have released := releaseEntries_like (i := 0) refines.room points (by simpa using within) rows
  simp only at same ⊢
  rw [same]
  refine released.bind ?_
  rintro rows _ rfl
  exact .ok ⟨rfl, rfl, rfl, refines'⟩

theorem validate_like (refines : Refines txn man) (rows : ρ → Row α) (timestamp holder : Nat) :
    Like SameEnd (txn.validate rows timestamp holder) (man.validate rows timestamp holder) := by
  obtain ⟨txn', refines', sorted⟩ := sortEntries_eq refines rows
  rw [validate, sorted, TxnMan.validate]
  by_cases live : man.accesses.all (fun acc => (rows acc.origRow).live) = true
  · rw [if_pos live, if_pos live, ok_bind]
    generalize man.sortAccesses rows = man at refines' ⊢
    have latching : Like (fun x y => x = y ∧ y.2.1 ≤ man.accesses.length)
        (latchEntries txn'.startTs holder txn'.accesses txn'.rowCnt 0 rows)
        (TxnMan.latchRows man.startTs holder rows man.accesses 0) := by
      rw [refines'.startTs]
      exact latchEntries_like (i := 0) man.startTs holder refines'.room
        (refines'.holds.points (Nat.le_refl _)) (by simp [refines'.rowCnt]) rows
    refine latching.bind ?_
    rintro ⟨rows, lockCnt, ok⟩ _ ⟨rfl, within⟩
    cases ok with
    | true =>
      have ready : Refines { txn' with lockCnt := lockCnt, endTs := timestamp }
          { man with lockCnt := lockCnt, endTs := timestamp } := { refines' with endTs := rfl }
      simp only [↓reduceIte]
      exact ending_like ready within rows .RCOK .RCOK (timestamp + 1)
    | false =>
      have ready : Refines { txn' with lockCnt := lockCnt } { man with lockCnt := lockCnt } := { refines' with }
      simp only [Bool.false_eq_true, ↓reduceIte]
      exact ending_like ready within rows .Abort .Abort timestamp
  · rw [if_neg live, if_neg live]
    exact .error rfl

theorem finish_like (refines : Refines txn man) (rows : ρ → Row α) (timestamp holder : Nat) (rc : RC) :
    Like SameEnd (txn.finish rows timestamp holder rc) (man.finish rows timestamp holder rc) := by
  unfold finish TxnMan.finish
  split
  · exact validate_like refines rows timestamp holder
  · refine (cleanup_like refines rows rc).bind ?_
    rintro ⟨rows, txn⟩ ⟨_, man⟩ ⟨rfl, refines', -, -⟩
    exact .ok ⟨rfl, rfl, rfl, refines'⟩

end Calls

namespace Refines

/-- Nothing of the list stands at `row_cnt`. -/
theorem putPast (refines : Refines txn man) (slot : Slot ρ α) : Refines (txn.put txn.rowCnt slot) man := by
  refine { refines with holds := ?_ }
  intro i acc below found
  have apart : i ≠ txn.rowCnt := Nat.ne_of_lt (refines.rowCnt ▸ below)
  exact (Function.update_of_ne apart _ _).trans (refines.holds i acc below found)

/-- An entry of the list is changed in both. -/
theorem putEntry (refines : Refines txn man) (change : Access ρ α) (below : i < man.accesses.length) :
    Refines (txn.put i (ofAccess change)) { man with accesses := man.accesses.set i change } := by
  have length : (man.accesses.set i change).length = man.accesses.length := List.length_set
  refine { refines with rowCnt := ?rowCnt, holds := ?holds, room := ?room, places := ?places }
  case rowCnt => exact refines.rowCnt.trans length.symm
  case holds =>
    intro j acc before found
    rw [length] at before
    simp only [List.getElem?_set] at found
    by_cases here : i = j
    · subst here
      simp only [below, ↓reduceIte, Option.some.injEq] at found
      exact found ▸ Function.update_self ..
    · rw [if_neg here] at found
      exact (Function.update_of_ne (Ne.symm here) _ _).trans (refines.holds j acc before found)
  case room => exact length ▸ refines.room
  case places => exact fun rid pos recorded => length ▸ refines.places rid pos recorded

theorem upgrade (refines : Refines txn man) (found : man.accesses[i]? = some acc) (type : AccessT) :
    Refines (txn.upgrade i (ofAccess acc) type) (man.upgrade i acc type) := by
  have raised := refines.putEntry { acc with type := .WR } (lt_length found)
  unfold TxnSlots.upgrade TxnMan.upgrade
  by_cases both : acc.type = .RD ∧ type = .WR
  · rw [if_pos both, if_pos (show (ofAccess acc).type = .RD ∧ type = .WR from both)]
    exact { raised with wrCnt := congrArg (· + 1) refines.wrCnt }
  · rw [if_neg both, if_neg (show ¬ ((ofAccess acc).type = .RD ∧ type = .WR) from both)]
    exact refines

theorem record (refines : Refines txn man) (room : txn.rowCnt < MAX_ROW_PER_TXN) (rid : Nat) (row : ρ)
    (type : AccessT) (copy : α) : Refines (txn.record rid row type copy) (man.record rid row type copy) := by
  have longer : (man.record rid row type copy).accesses.length = man.accesses.length + 1 := by simp
  refine { refines with
    rowCnt := ?rowCnt, wrCnt := ?wrCnt, recordPos := ?recordPos, holds := ?holds, room := ?room, places := ?places }
  case rowCnt => exact (congrArg (· + 1) refines.rowCnt).trans longer.symm
  case wrCnt => simp only [TxnSlots.record, TxnMan.record, refines.wrCnt]
  case recordPos =>
    simp only [TxnSlots.record, TxnMan.record_recordPos, refines.recordPos, refines.rowCnt, TxnMan.rowCnt]
  case holds =>
    intro i acc below found
    rw [TxnMan.record_accesses, List.getElem?_append] at found
    split at found
    next before =>
      have apart : i ≠ txn.rowCnt := Nat.ne_of_lt (refines.rowCnt ▸ before)
      exact (Function.update_of_ne apart _ _).trans (refines.holds i acc before found)
    next past =>
      have here : i = txn.rowCnt := by
        rw [longer] at below
        have := refines.rowCnt
        omega
      subst here
      rw [refines.rowCnt, Nat.sub_self] at found
      cases found
      exact Function.update_self ..
  case room => rw [longer, ← refines.rowCnt]; exact room
  case places =>
    intro other pos recorded
    rw [TxnMan.record_recordPos] at recorded
    rw [longer]
    by_cases here : other = rid
    · subst here
      rw [Function.update_self] at recorded
      cases recorded
      exact Nat.lt_succ_self _
    · rw [Function.update_of_ne here] at recorded
      exact Nat.lt_succ_of_lt (refines.places other pos recorded)

/-- The object at `row_cnt` is there after `allocate`, whatever it holds. -/
theorem allocate (refines : Refines txn man) (room : txn.rowCnt < MAX_ROW_PER_TXN) :
    ∃ txn' slot, txn.allocate = .ok txn' ∧ Refines txn' man ∧ txn'.rowCnt = txn.rowCnt ∧
      entry txn'.accesses txn'.rowCnt = .ok slot := by
  unfold TxnSlots.allocate
  rw [if_pos room]
  cases there : txn.accesses txn.rowCnt with
  | none =>
    have fresh := refines.putPast { type := .RD, origRow := none, data := none }
    exact ⟨_, _, rfl, { fresh with }, rfl, entry_eq room (Function.update_self ..)⟩
  | some slot => exact ⟨_, _, rfl, refines, rfl, entry_eq room there⟩

/-- `get_row` within the array. -/
theorem getRow (refines : Refines txn man) (rows : ρ → Row α) (row : ρ) (type : AccessT) (blank : α)
    (room : txn.recordPos (rows row).primaryKey = none → txn.rowCnt < MAX_ROW_PER_TXN) :
    Like (fun x y => x.1 = y.1 ∧ Refines x.2 y.2) (txn.getRow rows row type blank) (man.getRow rows row type) := by
  unfold TxnSlots.getRow TxnMan.getRow
  split
  next =>
    simp only [refines.recordPos]
    rw [refines.recordPos] at room
    cases place : man.recordPos (rows row).primaryKey with
    | some pos =>
      have below := refines.places _ pos place
      obtain ⟨acc, found⟩ := getElem?_of_lt below
      have stored := refines.holds pos acc below found
      simp only [entry_eq (Nat.lt_of_lt_of_le below refines.room) stored, ok_bind, found]
      exact .ok ⟨rfl, refines.upgrade found type⟩
    | none =>
      obtain ⟨txn', slot, allocated, refines', same, stored⟩ := refines.allocate (room place)
      have within : man.rowCnt < MAX_ROW_PER_TXN := by
        rw [TxnMan.rowCnt, ← refines.rowCnt]
        exact room place
      simp only [allocated, ok_bind, stored, if_pos within, refines'.startTs]
      cases (rows row).access man.startTs with
      | none => exact .error rfl
      | some result =>
        cases result with
        | none => exact .ok ⟨rfl, refines'.putPast _⟩
        | some copy => exact .ok ⟨rfl, refines'.record (same ▸ room place) _ row type copy⟩
  next => exact .error rfl

/-- Past the array the call fails at once; the list refuses it too. -/
theorem getRow_past (refines : Refines txn man) {rows : ρ → Row α} {row : ρ} (type : AccessT) (blank : α)
    (live : (rows row).live = true) (missing : txn.recordPos (rows row).primaryKey = none)
    (full : ¬ txn.rowCnt < MAX_ROW_PER_TXN) :
    txn.getRow rows row type blank = .error .pastArray ∧ man.getRow rows row type = none := by
  have full' : ¬ man.rowCnt < MAX_ROW_PER_TXN := by
    rw [TxnMan.rowCnt, ← refines.rowCnt]
    exact full
  constructor
  · simp only [TxnSlots.getRow, live, ↓reduceIte, missing, TxnSlots.allocate, if_neg full]
    rfl
  · rw [refines.recordPos] at missing
    simp only [TxnMan.getRow, live, ↓reduceIte, missing, if_neg full']

theorem setLocal (refines : Refines txn man) (rid : Nat) (value : α → α) :
    ∃ txn', txn.setLocal rid value = .ok txn' ∧ Refines txn' (man.setLocal rid value) := by
  unfold TxnSlots.setLocal TxnMan.setLocal
  rw [refines.recordPos]
  cases place : man.recordPos rid with
  | none => exact ⟨txn, rfl, refines⟩
  | some pos =>
    have below := refines.places rid pos place
    obtain ⟨acc, found⟩ := getElem?_of_lt below
    have stored := refines.holds pos acc below found
    have written := refines.putEntry { acc with data := value acc.data } below
    have same : man.accesses.modify pos (fun acc => { acc with data := value acc.data }) =
        man.accesses.set pos { acc with data := value acc.data } := by
      rw [List.modify_eq_set_getElem?, found]
      rfl
    simp only [entry_eq (Nat.lt_of_lt_of_le below refines.room) stored, ok_bind, ofAccess, same]
    exact ⟨_, rfl, written⟩

theorem insertRow (refines : Refines txn man) (row : ρ) : Like Refines (txn.insertRow row) (man.insertRow row) := by
  unfold TxnSlots.insertRow TxnMan.insertRow
  rw [refines.insertRows]
  split
  · exact .ok { refines with insertRows := rfl }
  · exact .error rfl

end Refines

/-- The two sets of `get_rw_set` count the entries by their type. -/
theorem splitEntries_eq (room : list.length ≤ MAX_ROW_PER_TXN) (holds : Holds accesses list list.length)
    (all : i + left = list.length) (rset wset : List (Option ρ)) :
    ∃ rset' wset', splitEntries accesses left i rset wset = .ok (rset', wset') ∧
      rset'.length + wset'.length = rset.length + wset.length + left ∧
      wset'.length = wset.length + ((list.drop i).map Access.type).count .WR := by
  induction left generalizing i rset wset with
  | zero =>
    refine ⟨rset, wset, rfl, rfl, ?_⟩
    rw [List.drop_eq_nil_of_le (by omega), List.map_nil, List.count_nil, Nat.add_zero]
  | succ left ih =>
    have below : i < list.length := by omega
    obtain ⟨acc, found⟩ := getElem?_of_lt below
    rw [splitEntries, entry_eq (by omega) (holds i acc (by omega) found), ok_bind, drop_cons found, List.map_cons]
    by_cases write : acc.type = .WR
    · obtain ⟨rset', wset', split, sum, count⟩ := ih (i := i + 1) (by omega) rset (wset ++ [some acc.origRow])
      rw [List.length_append, List.length_singleton] at sum count
      refine ⟨rset', wset', ?_, by omega, ?_⟩
      · simpa only [ofAccess, write, ↓reduceIte] using split
      · rw [write, List.count_cons_self]
        omega
    · obtain ⟨rset', wset', split, sum, count⟩ := ih (i := i + 1) (by omega) (rset ++ [some acc.origRow]) wset
      rw [List.length_append, List.length_singleton] at sum
      refine ⟨rset', wset', ?_, by omega, ?_⟩
      · simpa only [ofAccess, write, ↓reduceIte] using split
      · rw [List.count_cons_of_ne write, count]

theorem Refines.getRwSet (refines : Refines txn man)
    (count : man.wrCnt = (man.accesses.map Access.type).count .WR) : ∃ sets, txn.getRwSet = .ok sets := by
  have all : 0 + txn.rowCnt = man.accesses.length := (Nat.zero_add _).trans refines.rowCnt
  obtain ⟨rset, wset, split, sum, writes⟩ := splitEntries_eq refines.room refines.holds all [] []
  rw [List.drop_zero, ← count, ← refines.wrCnt] at writes
  simp only [List.length_nil, Nat.zero_add] at sum writes
  refine ⟨(rset, wset), ?_⟩
  rw [TxnSlots.getRwSet, split, ok_bind]
  exact if_pos ⟨writes, by omega⟩

end TxnSlots

end DataAgentDB.Storage
