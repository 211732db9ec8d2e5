import DataAgentDB.Storage.Finish

/-! Rows and transactions with their contents seen through a function. A transaction copies contents
and never looks at them, so its calls commute with that function. -/

namespace DataAgentDB.Storage

variable {ρ α β : Type}

def Row.map (f : α → β) (row : Row α) : Row β where
  tableName := row.tableName
  primaryKey := row.primaryKey
  data := f row.data
  manager := row.manager
  live := row.live

def Access.map (f : α → β) (acc : Access ρ α) : Access ρ β where
  type := acc.type
  origRow := acc.origRow
  data := f acc.data

def TxnMan.map (f : α → β) (txn : TxnMan ρ α) : TxnMan ρ β where
  startTs := txn.startTs
  endTs := txn.endTs
  wrCnt := txn.wrCnt
  lockCnt := txn.lockCnt
  accesses := txn.accesses.map (Access.map f)
  recordPos := txn.recordPos
  insertRows := txn.insertRows

def mapRows (f : α → β) (rows : ρ → Row α) : ρ → Row β := fun row => (rows row).map f

namespace Row

variable (f : α → β) (row : Row α)

@[simp] theorem map_live : (row.map f).live = row.live := rfl
@[simp] theorem map_primaryKey : (row.map f).primaryKey = row.primaryKey := rfl
@[simp] theorem map_manager : (row.map f).manager = row.manager := rfl
@[simp] theorem map_data : (row.map f).data = f row.data := rfl

theorem map_access (startTs : Nat) : (row.map f).access startTs = (row.access startTs).map (Option.map f) := by
  unfold access
  rw [map_manager]
  cases row.manager.latch with
  | some holder => rfl
  | none => by_cases newer : startTs < row.manager.wts <;> simp [newer]

theorem map_latch (holder : Nat) : (row.map f).latch holder = (row.latch holder).map (Row.map f) := by
  unfold latch
  rw [map_manager]
  cases row.manager.latch with
  | some other => rfl
  | none => rfl

end Row

section
variable [DecidableEq ρ]

theorem mapRows_update (f : α → β) (rows : ρ → Row α) (row : ρ) (next : Row α) :
    mapRows f (Function.update rows row next) = Function.update (mapRows f rows) row (next.map f) := by
  funext other
  by_cases here : other = row
  · subst here
    rw [mapRows, Function.update_self, Function.update_self]
  · rw [mapRows, Function.update_of_ne here, Function.update_of_ne here]
    rfl

end

namespace TxnMan

variable (f : α → β) (txn : TxnMan ρ α) (rows : ρ → Row α)

@[simp] theorem map_recordPos : (txn.map f).recordPos = txn.recordPos := rfl
@[simp] theorem map_accesses : (txn.map f).accesses = txn.accesses.map (Access.map f) := rfl
@[simp] theorem map_insertRows : (txn.map f).insertRows = txn.insertRows := rfl
@[simp] theorem map_startTs : (txn.map f).startTs = txn.startTs := rfl

theorem map_rowCnt : (txn.map f).rowCnt = txn.rowCnt := List.length_map _

theorem map_upgrade (pos : Nat) (acc : Access ρ α) (type : AccessT) :
    (txn.map f).upgrade pos (acc.map f) type = (txn.upgrade pos acc type).map f := by
  by_cases raised : acc.type = .RD ∧ type = .WR
  · have raised' : (acc.map f).type = .RD ∧ type = .WR := raised
    simp only [upgrade, if_pos raised, if_pos raised', map, List.map_set]
    rfl
  · have kept : ¬ ((acc.map f).type = .RD ∧ type = .WR) := raised
    simp only [upgrade, if_neg raised, if_neg kept]

theorem map_record (rid : Nat) (row : ρ) (type : AccessT) (copy : α) :
    (txn.map f).record rid row type (f copy) = (txn.record rid row type copy).map f := by
  unfold record
  rw [map_rowCnt, map_accesses]
  simp only [map, List.map_append, List.map_singleton]
  rfl

/-- What `get_row` hands out, with the transaction after it. -/
def mapTaken (taken : Option α × TxnMan ρ α) : Option β × TxnMan ρ β := (taken.1.map f, taken.2.map f)

theorem map_getRow (row : ρ) (type : AccessT) :
    (txn.map f).getRow (mapRows f rows) row type = (txn.getRow rows row type).map (mapTaken f) := by
  unfold getRow
  simp only [mapRows, Row.map_live, Row.map_primaryKey, map_recordPos, map_rowCnt, map_startTs, Row.map_access,
    map_accesses, List.getElem?_map]
  split
  next =>
    cases txn.recordPos (rows row).primaryKey with
    | some pos =>
      dsimp only
      cases txn.accesses[pos]? with
      | none => rfl
      | some acc =>
        simp only [Option.map_some, map_upgrade]
        rfl
    | none =>
      dsimp only
      split
      next =>
        cases (rows row).access txn.startTs with
        | none => rfl
        | some outcome =>
          cases outcome with
          | none => rfl
          | some copy =>
            simp only [Option.map_some, map_record]
            rfl
      next => rfl
  next => rfl

theorem map_setLocal (rid : Nat) {value : α → α} {value' : β → β} (commutes : ∀ copy, value' (f copy) = f (value copy)) :
    (txn.map f).setLocal rid value' = (txn.setLocal rid value).map f := by
  unfold setLocal
  rw [map_recordPos]
  cases txn.recordPos rid with
  | none => rfl
  | some pos =>
    have same : (txn.accesses.map (Access.map f)).modify pos (fun acc => { acc with data := value' acc.data }) =
        (txn.accesses.modify pos (fun acc => { acc with data := value acc.data })).map (Access.map f) := by
      apply List.ext_getElem?
      intro i
      simp only [List.getElem?_modify, List.getElem?_map]
      cases txn.accesses[i]? with
      | none => rfl
      | some acc => by_cases here : pos = i <;> simp [here, Access.map, commutes]
    simp only [map_accesses, same]
    rfl

theorem map_insertRow (row : ρ) : (txn.map f).insertRow row = (txn.insertRow row).map (TxnMan.map f) := by
  unfold insertRow
  rw [map_insertRows]
  split <;> rfl

theorem map_sortAccesses : (txn.map f).sortAccesses (mapRows f rows) = (txn.sortAccesses rows).map f := by
  have sorted := BubbleSort.sort_map
    (fun a b : Access ρ β => sortsAfter (mapRows f rows a.origRow) (mapRows f rows b.origRow))
    (Access.map f) txn.accesses
  simp only [sortAccesses, map_accesses, sorted]
  rfl

variable [DecidableEq ρ]

theorem map_returnRows (endTs : Nat) (rc : RC) (accesses : List (Access ρ α)) :
    returnRows endTs rc (mapRows f rows) (accesses.map (Access.map f)) =
      (returnRows endTs rc rows accesses).map (mapRows f) := by
  induction accesses generalizing rows with
  | nil => rfl
  | cons acc rest ih =>
    have written := mapRows_update f rows acc.origRow ((rows acc.origRow).write acc.data endTs)
    by_cases writes : acc.type = .WR ∧ rc ≠ .Abort
    · have writes' : (acc.map f).type = .WR ∧ rc ≠ .Abort := writes
      rw [List.map_cons, returnRows, returnRows, if_pos writes, if_pos writes']
      by_cases fits : (rows acc.origRow).live ∧ (rows acc.origRow).manager.wts < endTs
      · have fits' : (mapRows f rows (acc.map f).origRow).live ∧
            (mapRows f rows (acc.map f).origRow).manager.wts < endTs := fits
        rw [if_pos fits, if_pos fits', ← ih, written]
        rfl
      · have stuck : ¬ ((mapRows f rows (acc.map f).origRow).live ∧
            (mapRows f rows (acc.map f).origRow).manager.wts < endTs) := fits
        rw [if_neg fits, if_neg stuck]
        rfl
    · have skips : ¬ ((acc.map f).type = .WR ∧ rc ≠ .Abort) := writes
      rw [List.map_cons, returnRows, returnRows, if_neg writes, if_neg skips, ih]

theorem map_freeRows (list : List ρ) :
    freeRows (mapRows f rows) list = (freeRows rows list).map (mapRows f) := by
  induction list generalizing rows with
  | nil => rfl
  | cons row rest ih =>
    have gone := mapRows_update f rows row (rows row).freeRow
    have here : mapRows f rows row = (rows row).map f := rfl
    rw [freeRows, freeRows, here, Row.map_live]
    by_cases live : (rows row).live = true
    · rw [if_pos live, if_pos live, ← ih, gone]
      rfl
    · rw [if_neg live, if_neg live]
      rfl

theorem map_releaseRows (list : List ρ) :
    releaseRows (mapRows f rows) list = (releaseRows rows list).map (mapRows f) := by
  induction list generalizing rows with
  | nil => rfl
  | cons row rest ih =>
    have unlatched := mapRows_update f rows row (rows row).release
    have here : mapRows f rows row = (rows row).map f := rfl
    rw [releaseRows, releaseRows, here, Row.map_live]
    by_cases live : (rows row).live = true
    · rw [if_pos live, if_pos live, ← ih, unlatched]
      rfl
    · rw [if_neg live, if_neg live]
      rfl

/-- What the latch loop leaves, with its count and whether it passed. -/
def mapLatched (latched : (ρ → Row α) × Nat × Bool) : (ρ → Row β) × Nat × Bool := (mapRows f latched.1, latched.2)

theorem map_latchRows (startTs holder : Nat) (accesses : List (Access ρ α)) (lockCnt : Nat) :
    latchRows startTs holder (mapRows f rows) (accesses.map (Access.map f)) lockCnt =
      (latchRows startTs holder rows accesses lockCnt).map (mapLatched f) := by
  induction accesses generalizing rows lockCnt with
  | nil => rfl
  | cons acc rest ih =>
    have here : mapRows f rows (acc.map f).origRow = (rows acc.origRow).map f := rfl
    rw [List.map_cons, latchRows, latchRows, here, Row.map_latch]
    cases (rows acc.origRow).latch holder with
    | none => rfl
    | some row =>
      have valid : (row.map f).validate startTs = row.validate startTs := rfl
      have latched := mapRows_update f rows acc.origRow row
      simp only [Option.map_some, valid]
      split
      next => rw [← ih, latched]; rfl
      next => rw [Option.map_some, mapLatched, latched]; rfl

theorem map_cleanup (rc : RC) :
    (txn.map f).cleanup (mapRows f rows) rc = (txn.cleanup rows rc).map (Prod.map (mapRows f) (TxnMan.map f)) := by
  have returned := map_returnRows f rows txn.endTs rc txn.accesses.reverse
  rw [List.map_reverse] at returned
  have endTs : (txn.map f).endTs = txn.endTs := rfl
  simp only [cleanup, map_accesses, map_insertRows, endTs, returned, Option.bind_eq_bind, Option.bind_map]
  cases returnRows txn.endTs rc rows txn.accesses.reverse with
  | none => rfl
  | some rows' =>
    simp only [Option.bind_some, Function.comp_apply]
    split
    next =>
      rw [map_freeRows]
      cases freeRows rows' txn.insertRows <;> rfl
    next => rfl

/-- What the end of a transaction leaves. -/
def mapEnded (ended : RC × (ρ → Row α) × Nat × TxnMan ρ α) : RC × (ρ → Row β) × Nat × TxnMan ρ β :=
  (ended.1, mapRows f ended.2.1, ended.2.2.1, ended.2.2.2.map f)

/-- The second half of `OptCC::validate`: `cleanup`, and then the latches are released. -/
theorem map_settle (rc : RC) (held : List ρ) (timestamp : Nat) :
    (((txn.map f).cleanup (mapRows f rows) rc).bind fun cleaned =>
        (releaseRows cleaned.1 held).bind fun rows => some (rc, rows, timestamp, cleaned.2)) =
      ((txn.cleanup rows rc).bind fun cleaned =>
        (releaseRows cleaned.1 held).bind fun rows => some (rc, rows, timestamp, cleaned.2)).map (mapEnded f) := by
  rw [map_cleanup]
  cases txn.cleanup rows rc with
  | none => rfl
  | some cleaned =>
    simp only [Option.map_some, Option.bind_some, Prod.map_fst, Prod.map_snd, map_releaseRows]
    cases releaseRows cleaned.1 held <;> rfl

theorem map_validate (timestamp holder : Nat) :
    (txn.map f).validate (mapRows f rows) timestamp holder =
      (txn.validate rows timestamp holder).map (mapEnded f) := by
  have alive : (txn.map f).accesses.all (fun acc => (mapRows f rows acc.origRow).live) =
      txn.accesses.all (fun acc => (rows acc.origRow).live) := List.all_map
  have sorted := map_sortAccesses f txn rows
  unfold validate
  rw [alive, sorted]
  split
  next =>
    simp only [map_accesses, map_startTs, map_latchRows]
    cases latchRows (txn.sortAccesses rows).startTs holder rows (txn.sortAccesses rows).accesses 0 with
    | none => rfl
    | some latched =>
      obtain ⟨rows', lockCnt, ok⟩ := latched
      have held : (((txn.sortAccesses rows).accesses.map (Access.map f)).take lockCnt).map Access.origRow =
          ((txn.sortAccesses rows).accesses.take lockCnt).map Access.origRow := by
        rw [← List.map_take, List.map_map]
        rfl
      simp only [Option.map_some, mapLatched, Option.bind_eq_bind, Option.bind_some, held]
      cases ok with
      | true => exact map_settle f { txn.sortAccesses rows with lockCnt := lockCnt, endTs := timestamp } rows' .RCOK _ _
      | false => exact map_settle f { txn.sortAccesses rows with lockCnt := lockCnt } rows' .Abort _ _
  next => rfl

theorem map_finish (timestamp holder : Nat) (rc : RC) :
    (txn.map f).finish (mapRows f rows) timestamp holder rc = (txn.finish rows timestamp holder rc).map (mapEnded f) := by
  unfold finish
  split
  next => exact map_validate f txn rows timestamp holder
  next =>
    rw [map_cleanup]
    cases txn.cleanup rows rc <;> rfl

end TxnMan

end DataAgentDB.Storage
