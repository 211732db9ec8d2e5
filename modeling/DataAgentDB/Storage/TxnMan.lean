import DataAgentDB.Lib.BubbleSort
import DataAgentDB.Storage.Row
import Mathlib.Logic.Function.Basic

/-! The transaction's access table (txn.h, txn.cpp) over a type of row addresses. A
storage call answers `none` when it cannot complete: the row's mutex is held, or it would
touch freed memory or memory past the access array, or an assertion fails. -/

namespace DataAgentDB.Storage

def MAX_ROW_PER_TXN : Nat := 64

structure Access (ρ α : Type) where
  type : AccessT
  origRow : ρ
  data : α
  deriving DecidableEq, Repr

/-- `txn_man`. The list holds the entries below `row_cnt`; `insertRows` those below `insert_cnt`. -/
structure TxnMan (ρ α : Type) where
  startTs : Nat
  endTs : Nat
  wrCnt : Nat
  lockCnt : Nat
  accesses : List (Access ρ α)
  recordPos : Nat → Option Nat
  insertRows : List ρ

namespace TxnMan

variable {ρ α : Type}

/-- `txn_man::init`, with the start timestamp its owner assigns next. -/
def init (startTs : Nat) : TxnMan ρ α :=
  { startTs := startTs, endTs := 0, wrCnt := 0, lockCnt := 0, accesses := [],
    recordPos := fun _ => none, insertRows := [] }

def rowCnt (txn : TxnMan ρ α) : Nat := txn.accesses.length

/-- A repeated access: a row read before becomes a written one. -/
def upgrade (txn : TxnMan ρ α) (pos : Nat) (acc : Access ρ α) (type : AccessT) : TxnMan ρ α :=
  if acc.type = .RD ∧ type = .WR then
    { txn with accesses := txn.accesses.set pos { acc with type := .WR }, wrCnt := txn.wrCnt + 1 }
  else txn

/-- A first access: a new entry at `row_cnt`. -/
def record (txn : TxnMan ρ α) (rid : Nat) (row : ρ) (type : AccessT) (copy : α) : TxnMan ρ α :=
  { txn with
    accesses := txn.accesses ++ [{ type := type, origRow := row, data := copy }]
    recordPos := Function.update txn.recordPos rid (some txn.rowCnt)
    wrCnt := if type = .WR then txn.wrCnt + 1 else txn.wrCnt }

/-- `txn_man::get_row`: the local copy, or no copy after `Abort`. -/
def getRow (txn : TxnMan ρ α) (rows : ρ → Row α) (row : ρ) (type : AccessT) :
    Option (Option α × TxnMan ρ α) :=
  if (rows row).live then
    let rid := (rows row).primaryKey
    match txn.recordPos rid with
    | some pos =>
      match txn.accesses[pos]? with
      | none => none
      | some acc => some (some acc.data, txn.upgrade pos acc type)
    | none =>
      if txn.rowCnt < MAX_ROW_PER_TXN then
        match (rows row).access txn.startTs with
        | none => none
        | some none => some (none, txn)
        | some (some copy) => some (some copy, txn.record rid row type copy)
      else none
  else none

/-- A write through the local copy's pointer that `get_row` handed out. -/
def setLocal (txn : TxnMan ρ α) (rid : Nat) (value : α → α) : TxnMan ρ α :=
  match txn.recordPos rid with
  | none => txn
  | some pos =>
    { txn with accesses := txn.accesses.modify pos (fun acc => { acc with data := value acc.data }) }

/-- `txn_man::insert_row`, with its assertion. -/
def insertRow (txn : TxnMan ρ α) (row : ρ) : Option (TxnMan ρ α) :=
  if txn.insertRows.length < MAX_ROW_PER_TXN then
    some { txn with insertRows := txn.insertRows ++ [row] }
  else none

/-- The bubble sort at the head of `OptCC::validate`. -/
def sortAccesses (txn : TxnMan ρ α) (rows : ρ → Row α) : TxnMan ρ α :=
  { txn with
    accesses := BubbleSort.sort (fun a b => sortsAfter (rows a.origRow) (rows b.origRow)) txn.accesses }

/-- The counters and the map as `cleanup` leaves them. -/
def reset (txn : TxnMan ρ α) : TxnMan ρ α :=
  { txn with wrCnt := 0, accesses := [], recordPos := fun _ => none, insertRows := [] }

/-- What one `get_row` did: it found the row in the table, met a newer version, or copied the row. -/
inductive GetRow (txn : TxnMan ρ α) (rows : ρ → Row α) (row : ρ) (type : AccessT) :
    Option α → TxnMan ρ α → Prop
  | hit {pos : Nat} {acc : Access ρ α} (found : txn.recordPos (rows row).primaryKey = some pos)
      (entry : txn.accesses[pos]? = some acc) :
      GetRow txn rows row type (some acc.data) (txn.upgrade pos acc type)
  | abort (missing : txn.recordPos (rows row).primaryKey = none)
      (room : txn.rowCnt < MAX_ROW_PER_TXN) (free : (rows row).manager.latch = none)
      (newer : txn.startTs < (rows row).manager.wts) : GetRow txn rows row type none txn
  | copied (missing : txn.recordPos (rows row).primaryKey = none)
      (room : txn.rowCnt < MAX_ROW_PER_TXN) (free : (rows row).manager.latch = none)
      (current : (rows row).manager.wts ≤ txn.startTs) :
      GetRow txn rows row type (some (rows row).data)
        (txn.record (rows row).primaryKey row type (rows row).data)

theorem getRow_cases {txn next : TxnMan ρ α} {rows : ρ → Row α} {row : ρ} {type : AccessT}
    {result : Option α} (taken : txn.getRow rows row type = some (result, next)) :
    (rows row).live = true ∧ GetRow txn rows row type result next := by
  unfold getRow at taken
  split at taken
  next live =>
    refine ⟨live, ?_⟩
    dsimp only at taken
    split at taken
    next pos found =>
      split at taken
      next => cases taken
      next acc entry => cases taken; exact .hit found entry
    next missing =>
      split at taken
      next room =>
        split at taken
        next => cases taken
        next outcome =>
          obtain ⟨free, newer⟩ := Row.access_abort.mp outcome
          cases taken
          exact .abort missing room free newer
        next copy outcome =>
          obtain ⟨free, current, same⟩ := Row.access_copy.mp outcome
          cases taken
          subst same
          exact .copied missing room free current
      next => cases taken
  next => cases taken

section Frame
variable (txn : TxnMan ρ α) (pos rid : Nat) (acc : Access ρ α) (row : ρ) (type : AccessT) (copy : α)

@[simp] theorem upgrade_startTs : (txn.upgrade pos acc type).startTs = txn.startTs := by
  unfold upgrade; split <;> rfl
@[simp] theorem upgrade_recordPos : (txn.upgrade pos acc type).recordPos = txn.recordPos := by
  unfold upgrade; split <;> rfl
@[simp] theorem upgrade_insertRows : (txn.upgrade pos acc type).insertRows = txn.insertRows := by
  unfold upgrade; split <;> rfl
@[simp] theorem record_startTs : (txn.record rid row type copy).startTs = txn.startTs := rfl
@[simp] theorem record_insertRows : (txn.record rid row type copy).insertRows = txn.insertRows := rfl
@[simp] theorem record_accesses : (txn.record rid row type copy).accesses =
    txn.accesses ++ [{ type := type, origRow := row, data := copy }] := rfl
@[simp] theorem record_recordPos : (txn.record rid row type copy).recordPos =
    Function.update txn.recordPos rid (some txn.rowCnt) := rfl
@[simp] theorem setLocal_startTs (value : α → α) : (txn.setLocal rid value).startTs = txn.startTs := by
  unfold setLocal; split <;> rfl
@[simp] theorem setLocal_recordPos (value : α → α) :
    (txn.setLocal rid value).recordPos = txn.recordPos := by
  unfold setLocal; split <;> rfl
@[simp] theorem setLocal_insertRows (value : α → α) :
    (txn.setLocal rid value).insertRows = txn.insertRows := by
  unfold setLocal; split <;> rfl
@[simp] theorem sortAccesses_startTs (rows : ρ → Row α) :
    (txn.sortAccesses rows).startTs = txn.startTs := rfl
@[simp] theorem sortAccesses_insertRows (rows : ρ → Row α) :
    (txn.sortAccesses rows).insertRows = txn.insertRows := rfl

end Frame

private theorem map_set_row (accesses : List (Access ρ α)) (pos : Nat) (acc : Access ρ α)
    (entry : accesses[pos]? = some acc) (type : AccessT) (copy : α) :
    (accesses.set pos { type := type, origRow := acc.origRow, data := copy }).map Access.origRow =
      accesses.map Access.origRow := by
  rw [List.map_set]
  apply List.ext_getElem?
  intro i
  rw [List.getElem?_set]
  split
  next here =>
    subst here
    obtain ⟨bound, same⟩ := List.getElem?_eq_some_iff.mp entry
    simp [bound, same]
  next => rfl

/-- A repeated access keeps the rows of the table, in place. -/
theorem upgrade_rows (txn : TxnMan ρ α) {pos : Nat} {acc : Access ρ α}
    (entry : txn.accesses[pos]? = some acc) (type : AccessT) :
    (txn.upgrade pos acc type).accesses.map Access.origRow = txn.accesses.map Access.origRow := by
  unfold upgrade
  split
  · exact map_set_row txn.accesses pos acc entry .WR acc.data
  · rfl

/-- A write to a local copy changes nothing that does not depend on it. -/
theorem setLocal_map {β : Type*} (part : Access ρ α → β)
    (same : ∀ acc copy, part { acc with data := copy } = part acc) (txn : TxnMan ρ α) (rid : Nat) (value : α → α) :
    (txn.setLocal rid value).accesses.map part = txn.accesses.map part := by
  unfold setLocal
  split
  · rfl
  · apply List.ext_getElem?
    intro i
    simp only [List.getElem?_map, List.getElem?_modify]
    cases txn.accesses[i]? with
    | none => rfl
    | some acc =>
      simp only [Option.map_some]
      split
      · exact congrArg some (same acc _)
      · rfl

theorem setLocal_rows (txn : TxnMan ρ α) (rid : Nat) (value : α → α) :
    (txn.setLocal rid value).accesses.map Access.origRow = txn.accesses.map Access.origRow :=
  setLocal_map Access.origRow (fun _ _ => rfl) txn rid value

private theorem modify_last (front : List (Access ρ α)) (last : Access ρ α)
    (change : Access ρ α → Access ρ α) :
    (front ++ [last]).modify front.length change = front ++ [change last] := by
  induction front with
  | nil => rfl
  | cons first rest ih => simpa using ih

/-- Writing the copy just taken over itself. -/
theorem setLocal_record (txn : TxnMan ρ α) (rid : Nat) (row : ρ) (type : AccessT) (copy : α) :
    (txn.record rid row type copy).setLocal rid (fun _ => copy) = txn.record rid row type copy := by
  have found : (txn.record rid row type copy).recordPos rid = some txn.rowCnt := by simp
  unfold setLocal
  rw [found]
  have same : (txn.record rid row type copy).accesses.modify txn.rowCnt
      (fun acc => { acc with data := copy }) = (txn.record rid row type copy).accesses := by
    rw [record_accesses, rowCnt, modify_last]
  simp only [same]

private theorem mem_modify {accesses : List (Access ρ α)} {pos : Nat} {acc b : Access ρ α}
    {change : Access ρ α → Access ρ α} (nodup : (accesses.map Access.origRow).Nodup)
    (entry : accesses[pos]? = some acc) :
    b ∈ accesses.modify pos change ↔
      b = change acc ∨ (b ∈ accesses ∧ b.origRow ≠ acc.origRow) := by
  have place : ∀ j (other : Access ρ α), accesses[j]? = some other →
      other.origRow = acc.origRow → j = pos := by
    intro j other found same
    have first : (accesses.map Access.origRow)[j]? = some acc.origRow := by
      rw [List.getElem?_map, found, Option.map_some, same]
    have second : (accesses.map Access.origRow)[pos]? = some acc.origRow := by
      rw [List.getElem?_map, entry, Option.map_some]
    have bound : j < (accesses.map Access.origRow).length := (List.getElem?_eq_some_iff.mp first).1
    exact (List.getElem?_inj bound nodup).mp (first.trans second.symm)
  rw [List.mem_iff_getElem?]
  constructor
  · rintro ⟨j, found⟩
    rw [List.getElem?_modify] at found
    obtain ⟨old, there, same⟩ := Option.map_eq_some_iff.mp found
    by_cases here : pos = j
    · subst here
      rw [entry] at there
      cases there
      exact .inl (by simpa using same.symm)
    · have kept : old = b := by simpa [here] using same
      subst kept
      exact .inr ⟨List.mem_of_getElem? there, fun equal => here (place j old there equal).symm⟩
  · rintro (rfl | ⟨member, apart⟩)
    · exact ⟨pos, by simp [entry]⟩
    · obtain ⟨j, found⟩ := List.mem_iff_getElem?.mp member
      have there : pos ≠ j := by
        rintro rfl
        rw [entry] at found
        exact apart (Option.some.inj found ▸ rfl)
      exact ⟨j, by simp [found, there]⟩

theorem mem_setLocal {txn : TxnMan ρ α} {rid pos : Nat} {acc b : Access ρ α} (value : α → α)
    (nodup : (txn.accesses.map Access.origRow).Nodup) (found : txn.recordPos rid = some pos)
    (entry : txn.accesses[pos]? = some acc) :
    b ∈ (txn.setLocal rid value).accesses ↔
      b = { acc with data := value acc.data } ∨ (b ∈ txn.accesses ∧ b.origRow ≠ acc.origRow) := by
  unfold setLocal
  rw [found]
  exact mem_modify nodup entry

theorem upgrade_accesses {txn : TxnMan ρ α} {pos : Nat} {acc : Access ρ α} (type : AccessT)
    (entry : txn.accesses[pos]? = some acc) :
    (txn.upgrade pos acc type).accesses = txn.accesses.modify pos
      (fun acc => { acc with type := if acc.type = .RD ∧ type = .WR then .WR else acc.type }) := by
  obtain ⟨bound, same⟩ := List.getElem?_eq_some_iff.mp entry
  apply List.ext_getElem?
  intro i
  rw [List.getElem?_modify]
  unfold upgrade
  by_cases here : pos = i
  · subst here
    rw [entry]
    split
    next raised => simp [bound, raised]
    next kept => simp [entry, kept]
  · split <;> simp [here]

theorem mem_upgrade {txn : TxnMan ρ α} {pos : Nat} {acc b : Access ρ α} (type : AccessT)
    (nodup : (txn.accesses.map Access.origRow).Nodup) (entry : txn.accesses[pos]? = some acc) :
    b ∈ (txn.upgrade pos acc type).accesses ↔
      b = { acc with type := if acc.type = .RD ∧ type = .WR then .WR else acc.type } ∨
        (b ∈ txn.accesses ∧ b.origRow ≠ acc.origRow) := by
  rw [upgrade_accesses type entry]
  exact mem_modify nodup entry

/-- The sort looks at nothing but the keys. -/
theorem sortAccesses_congr (txn : TxnMan ρ α) {rows rows' : ρ → Row α}
    (keys : ∀ row, (rows row).sortKey = (rows' row).sortKey) : txn.sortAccesses rows = txn.sortAccesses rows' := by
  have test : (fun a b : Access ρ α => sortsAfter (rows a.origRow) (rows b.origRow)) =
      fun a b => sortsAfter (rows' a.origRow) (rows' b.origRow) := by
    funext a b
    rw [Bool.eq_iff_iff, sortsAfter_iff, sortsAfter_iff, keys, keys]
  unfold sortAccesses
  rw [test]

/-- A `get_row` looks at the contents and the version of a row only when it copies it. -/
theorem getRow_congr {txn : TxnMan ρ α} {rows rows' : ρ → Row α} {row : ρ} {type : AccessT}
    {result : Option α × TxnMan ρ α} (key : (rows' row).primaryKey = (rows row).primaryKey)
    (live : (rows' row).live = (rows row).live)
    (same : (rows row).manager.latch = none → rows' row = rows row)
    (taken : txn.getRow rows row type = some result) : txn.getRow rows' row type = some result := by
  cases found : txn.recordPos (rows row).primaryKey with
  | some pos => simpa only [getRow, key, live, found] using taken
  | none =>
    obtain ⟨copy, txn'⟩ := result
    have free : (rows row).manager.latch = none := by
      obtain ⟨-, kind⟩ := getRow_cases taken
      cases kind with
      | hit there => exact absurd (found.symm.trans there) (by simp)
      | abort _ _ free => exact free
      | copied _ _ free => exact free
    simpa only [getRow, same free] using taken

theorem sortAccesses_perm (txn : TxnMan ρ α) (rows : ρ → Row α) :
    (txn.sortAccesses rows).accesses.Perm txn.accesses := BubbleSort.sort_perm _ _

theorem sortAccesses_sorted (txn : TxnMan ρ α) (rows : ρ → Row α) :
    (txn.sortAccesses rows).accesses.Pairwise
      (fun a b => (rows a.origRow).sortKey ≤ (rows b.origRow).sortKey) :=
  BubbleSort.sort_sorted _ (fun acc : Access ρ α => (rows acc.origRow).sortKey)
    (fun _ _ => sortsAfter_iff _ _) _

end TxnMan

end DataAgentDB.Storage
