import DataAgentDB.Storage.TxnMan
import Mathlib.Data.List.Nodup

/-! The end of a transaction run as one call: `txn_man::cleanup`, `OptCC::validate` and
`txn_man::finish` over a store of rows. -/

namespace DataAgentDB.Storage

namespace TxnMan

variable {ρ α : Type} [DecidableEq ρ]

/-- The loop over `return_row`: `row_t::return_row` writes a `WR` copy back, unless the type
became `XP` for an abort. -/
def returnRows (endTs : Nat) (rc : RC) (rows : ρ → Row α) : List (Access ρ α) → Option (ρ → Row α)
  | [] => some rows
  | acc :: rest =>
      if acc.type = .WR ∧ rc ≠ .Abort then
        let row := rows acc.origRow
        if row.live ∧ row.manager.wts < endTs then
          returnRows endTs rc (Function.update rows acc.origRow (row.write acc.data endTs)) rest
        else none
      else returnRows endTs rc rows rest

def freeRows (rows : ρ → Row α) : List ρ → Option (ρ → Row α)
  | [] => some rows
  | row :: rest =>
      if (rows row).live then freeRows (Function.update rows row (rows row).freeRow) rest else none

def releaseRows (rows : ρ → Row α) : List ρ → Option (ρ → Row α)
  | [] => some rows
  | row :: rest =>
      if (rows row).live then releaseRows (Function.update rows row (rows row).release) rest else none

/-- The latch loop: the rows after it, `lock_cnt`, and whether every check passed. -/
def latchRows (startTs holder : Nat) (rows : ρ → Row α) :
    List (Access ρ α) → Nat → Option ((ρ → Row α) × Nat × Bool)
  | [], lockCnt => some (rows, lockCnt, true)
  | acc :: rest, lockCnt =>
      match (rows acc.origRow).latch holder with
      | none => none
      | some row =>
          let rows' := Function.update rows acc.origRow row
          if row.validate startTs then latchRows startTs holder rows' rest (lockCnt + 1)
          else some (rows', lockCnt + 1, false)

def cleanup (txn : TxnMan ρ α) (rows : ρ → Row α) (rc : RC) : Option ((ρ → Row α) × TxnMan ρ α) := do
  let rows ← returnRows txn.endTs rc rows txn.accesses.reverse
  let rows ← if rc = .Abort then freeRows rows txn.insertRows else some rows
  return (rows, txn.reset)

/-- `OptCC::validate`. The sort reads every row of the table as soon as there are two, the first
latch a single one. -/
def validate (txn : TxnMan ρ α) (rows : ρ → Row α) (timestamp holder : Nat) :
    Option (RC × (ρ → Row α) × Nat × TxnMan ρ α) :=
  if txn.accesses.all (fun acc => (rows acc.origRow).live) then do
    let txn := txn.sortAccesses rows
    let (rows, lockCnt, ok) ← latchRows txn.startTs holder rows txn.accesses 0
    let txn := { txn with lockCnt := lockCnt }
    let held := (txn.accesses.take lockCnt).map Access.origRow
    if ok then
      let (rows, txn) ← { txn with endTs := timestamp }.cleanup rows .RCOK
      let rows ← releaseRows rows held
      return (.RCOK, rows, timestamp + 1, txn)
    else
      let (rows, txn) ← txn.cleanup rows .Abort
      -- the rows of `held` that `cleanup` freed are gone by now
      let rows ← releaseRows rows held
      return (.Abort, rows, timestamp, txn)
  else none

def finish (txn : TxnMan ρ α) (rows : ρ → Row α) (timestamp holder : Nat) (rc : RC) :
    Option (RC × (ρ → Row α) × Nat × TxnMan ρ α) :=
  if rc = .RCOK then txn.validate rows timestamp holder
  else do
    let (rows, txn) ← txn.cleanup rows rc
    return (rc, rows, timestamp, txn)

def freed (list : List ρ) (rows : ρ → Row α) (row : ρ) : Row α :=
  if row ∈ list then (rows row).freeRow else rows row

theorem freeRows_eq {rows after : ρ → Row α} {list : List ρ} (done : freeRows rows list = some after) :
    after = freed list rows := by
  induction list generalizing rows with
  | nil => cases done; simp [funext_iff, freed]
  | cons first rest ih =>
    simp only [freeRows] at done
    split at done
    next =>
      rw [ih done]
      funext row
      by_cases here : row = first
      · subst here
        simp [freed, Row.freeRow]
      · simp [freed, here]
    next => cases done

theorem releaseRows_eq {rows after : ρ → Row α} {list : List ρ}
    (released : releaseRows rows list = some after) :
    (∀ row ∈ list, (rows row).live = true) ∧
      after = fun row => if row ∈ list then (rows row).release else rows row := by
  induction list generalizing rows with
  | nil => cases released; simp
  | cons first rest ih =>
    simp only [releaseRows] at released
    split at released
    next live =>
      obtain ⟨others, same⟩ := ih released
      refine ⟨?_, ?_⟩
      · intro row member
        rcases List.mem_cons.mp member with rfl | later
        · exact live
        · by_cases here : row = first
          · exact here ▸ live
          · simpa [Function.update_of_ne here] using others row later
      · rw [same]
        funext row
        by_cases here : row = first
        · subst here
          simp [Row.release]
        · simp [here]
    next => cases released

/-- The row a committing transaction leaves. -/
def wroteBack (accesses : List (Access ρ α)) (rows : ρ → Row α) (endTs : Nat) (row : ρ) : Row α :=
  match accesses.find? (fun acc => acc.origRow = row ∧ acc.type = .WR) with
  | none => rows row
  | some acc => (rows row).write acc.data endTs

theorem wroteBack_of_mem {accesses : List (Access ρ α)} (rows : ρ → Row α) (endTs : Nat)
    {acc : Access ρ α} (nodup : (accesses.map Access.origRow).Nodup) (member : acc ∈ accesses)
    (written : acc.type = .WR) :
    wroteBack accesses rows endTs acc.origRow = (rows acc.origRow).write acc.data endTs := by
  unfold wroteBack
  split
  next missing =>
    exact absurd (decide_eq_true ⟨rfl, written⟩) (List.find?_eq_none.mp missing acc member)
  next other found =>
    have kind : other.origRow = acc.origRow ∧ other.type = .WR := by
      simpa using List.find?_some found
    rw [List.inj_on_of_nodup_map nodup (List.mem_of_find?_eq_some found) member kind.1]

theorem wroteBack_of_not_mem {accesses : List (Access ρ α)} {rows : ρ → Row α} {endTs : Nat} {row : ρ}
    (unwritten : ∀ acc ∈ accesses, acc.origRow = row → acc.type ≠ .WR) :
    wroteBack accesses rows endTs row = rows row := by
  unfold wroteBack
  split
  next => rfl
  next acc found =>
    have kind : acc.origRow = row ∧ acc.type = .WR := by simpa using List.find?_some found
    exact absurd kind.2 (unwritten acc (List.mem_of_find?_eq_some found) kind.1)

theorem wroteBack_cons {acc : Access ρ α} {rest : List (Access ρ α)} {row : ρ}
    (other : acc.origRow ≠ row ∨ acc.type ≠ .WR) (rows : ρ → Row α) (endTs : Nat) :
    wroteBack (acc :: rest) rows endTs row = wroteBack rest rows endTs row := by
  have skipped : ¬(acc.origRow = row ∧ acc.type = .WR) := fun both => other.elim (· both.1) (· both.2)
  simp [wroteBack, skipped]

theorem wroteBack_head {acc : Access ρ α} {rest : List (Access ρ α)} (written : acc.type = .WR)
    (rows : ρ → Row α) (endTs : Nat) :
    wroteBack (acc :: rest) rows endTs acc.origRow = (rows acc.origRow).write acc.data endTs := by
  simp [wroteBack, written]

/-- What became of a row: one access wrote it, or none did. -/
theorem wroteBack_cases {accesses : List (Access ρ α)}
    (nodup : (accesses.map Access.origRow).Nodup) (rows : ρ → Row α) (endTs : Nat) (row : ρ) :
    (∃ acc ∈ accesses, acc.origRow = row ∧ acc.type = .WR ∧
      wroteBack accesses rows endTs row = (rows row).write acc.data endTs) ∨
    ((∀ acc ∈ accesses, acc.origRow = row → acc.type ≠ .WR) ∧
      wroteBack accesses rows endTs row = rows row) := by
  by_cases written : ∃ acc ∈ accesses, acc.origRow = row ∧ acc.type = .WR
  · obtain ⟨acc, member, rfl, kind⟩ := written
    exact .inl ⟨acc, member, rfl, kind, wroteBack_of_mem rows endTs nodup member kind⟩
  · have unwritten : ∀ acc ∈ accesses, acc.origRow = row → acc.type ≠ .WR :=
      fun acc member here kind => written ⟨acc, member, here, kind⟩
    exact .inr ⟨unwritten, wroteBack_of_not_mem unwritten⟩

theorem wroteBack_perm {first second : List (Access ρ α)} (perm : first.Perm second)
    (nodup : (second.map Access.origRow).Nodup) (rows : ρ → Row α) (endTs : Nat) :
    wroteBack first rows endTs = wroteBack second rows endTs := by
  funext row
  have nodup' : (first.map Access.origRow).Nodup := (perm.map _).nodup_iff.mpr nodup
  rcases wroteBack_cases nodup rows endTs row with ⟨acc, member, rfl, kind, same⟩ | ⟨unwritten, same⟩
  · rw [same, wroteBack_of_mem rows endTs nodup' (perm.mem_iff.mpr member) kind]
  · rw [same, wroteBack_of_not_mem (fun acc member => unwritten acc (perm.mem_iff.mp member))]

theorem returnRows_abort (endTs : Nat) (rows : ρ → Row α) (list : List (Access ρ α)) :
    returnRows endTs .Abort rows list = some rows := by
  induction list with
  | nil => rfl
  | cons acc rest ih => simpa [returnRows] using ih

theorem returnRows_eq {endTs : Nat} {rc : RC} {rows after : ρ → Row α} {list : List (Access ρ α)}
    (commits : rc ≠ .Abort) (nodup : (list.map Access.origRow).Nodup)
    (returned : returnRows endTs rc rows list = some after) : after = wroteBack list rows endTs := by
  induction list generalizing rows with
  | nil => cases returned; rfl
  | cons first rest ih =>
    obtain ⟨fresh, nodup'⟩ := List.nodup_cons.mp nodup
    have apart : ∀ acc ∈ rest, acc.origRow ≠ first.origRow :=
      fun acc member same => fresh (same ▸ List.mem_map_of_mem member)
    simp only [returnRows] at returned
    split at returned
    next kind =>
      split at returned
      next =>
        rw [ih nodup' returned]
        funext row
        by_cases here : row = first.origRow
        · subst here
          rw [wroteBack_of_mem rows endTs nodup List.mem_cons_self kind.1,
            wroteBack_of_not_mem (fun acc member same => absurd same (apart acc member)),
            Function.update_self]
        · have other : first.origRow ≠ row := fun same => here same.symm
          simp [wroteBack, other, Function.update_of_ne here]
      next => cases returned
    next read =>
      have kind : first.type ≠ .WR := fun written => read ⟨written, commits⟩
      rw [ih nodup' returned]
      funext row
      simp [wroteBack, kind]

def latched (holder : Nat) (row : Row α) : Row α :=
  { row with manager := { row.manager with latch := some holder } }

/-- A prefix of the table is latched: all of it, or up to the first row that fails the check. -/
theorem latchRows_eq {startTs holder lockCnt count : Nat} {ok : Bool} {rows after : ρ → Row α}
    {list : List (Access ρ α)} (nodup : (list.map Access.origRow).Nodup)
    (taken : latchRows startTs holder rows list lockCnt = some (after, count, ok)) :
    ∃ k, count = lockCnt + k ∧
      (after = fun row => if row ∈ (list.take k).map Access.origRow then latched holder (rows row)
        else rows row) ∧
      (ok = true → k = list.length ∧ ∀ acc ∈ list, (rows acc.origRow).manager.wts ≤ startTs) ∧
      (ok = false → ∃ acc ∈ list, startTs < (rows acc.origRow).manager.wts) := by
  induction list generalizing rows lockCnt with
  | nil => cases taken; exact ⟨0, by simp⟩
  | cons first rest ih =>
    obtain ⟨fresh, nodup'⟩ := List.nodup_cons.mp nodup
    have apart : ∀ acc ∈ rest, acc.origRow ≠ first.origRow :=
      fun acc member same => fresh (same ▸ List.mem_map_of_mem member)
    simp only [latchRows] at taken
    split at taken
    next => cases taken
    next row outcome =>
      obtain ⟨-, rfl⟩ := Row.latch_eq_some.mp outcome
      split at taken
      next valid =>
        have current := Row.validate_eq_true.mp valid
        obtain ⟨k, counted, rfl, passed, failed⟩ := ih nodup' taken
        refine ⟨k + 1, by omega, ?_, ?_, ?_⟩
        · funext row
          by_cases here : row = first.origRow
          · subst here
            simp [latched]
          · simp [here]
        · intro yes
          obtain ⟨whole, others⟩ := passed yes
          refine ⟨by simp [whole], ?_⟩
          intro acc member
          rcases List.mem_cons.mp member with rfl | later
          · exact current
          · simpa [Function.update_of_ne (apart acc later)] using others acc later
        · intro no
          obtain ⟨acc, member, newer⟩ := failed no
          exact ⟨acc, List.mem_cons_of_mem _ member,
            by simpa [Function.update_of_ne (apart acc member)] using newer⟩
      next invalid =>
        cases taken
        refine ⟨1, rfl, ?_, fun yes => (nomatch yes), fun _ => ⟨first, List.mem_cons_self, ?_⟩⟩
        · funext row
          by_cases here : row = first.origRow
          · subst here
            simp [latched]
          · simp [here]
        · have newer := mt Row.validate_eq_true.mpr invalid
          exact Nat.lt_of_not_le newer

theorem cleanup_commit {txn txn' : TxnMan ρ α} {rows after : ρ → Row α}
    (nodup : (txn.accesses.map Access.origRow).Nodup)
    (done : txn.cleanup rows .RCOK = some (after, txn')) :
    after = wroteBack txn.accesses rows txn.endTs ∧ txn' = txn.reset := by
  have perm := txn.accesses.reverse_perm
  have reversed : (txn.accesses.reverse.map Access.origRow).Nodup := (perm.map _).nodup_iff.mpr nodup
  simp only [cleanup, Option.bind_eq_bind, Option.bind_eq_some_iff, reduceCtorEq, ↓reduceIte,
    Option.some.injEq] at done
  obtain ⟨_, returned, _, rfl, same⟩ := done
  cases same
  exact ⟨(returnRows_eq (by decide) reversed returned).trans (wroteBack_perm perm nodup rows txn.endTs),
    rfl⟩

theorem cleanup_abort {txn txn' : TxnMan ρ α} {rows after : ρ → Row α}
    (done : txn.cleanup rows .Abort = some (after, txn')) :
    after = freed txn.insertRows rows ∧ txn' = txn.reset := by
  simp only [cleanup, Option.bind_eq_bind, Option.bind_eq_some_iff, returnRows_abort, ↓reduceIte,
    Option.some.injEq] at done
  obtain ⟨_, rfl, last, returned, same⟩ := done
  cases same
  exact ⟨freeRows_eq returned, rfl⟩

/-- What a `finish` that completes did to unlatched rows: the code given, the code returned, the
rows and the next timestamp. -/
inductive Finished (txn : TxnMan ρ α) (rows : ρ → Row α) (timestamp : Nat) :
    RC → RC → (ρ → Row α) → Nat → Prop
  | committed (live : ∀ acc ∈ txn.accesses, (rows acc.origRow).live = true)
      (current : ∀ acc ∈ txn.accesses, (rows acc.origRow).manager.wts ≤ txn.startTs) :
      Finished txn rows timestamp .RCOK .RCOK (wroteBack txn.accesses rows timestamp) (timestamp + 1)
  | failed {acc : Access ρ α} (member : acc ∈ txn.accesses)
      (newer : txn.startTs < (rows acc.origRow).manager.wts) :
      Finished txn rows timestamp .RCOK .Abort (freed txn.insertRows rows) timestamp
  | aborted : Finished txn rows timestamp .Abort .Abort (freed txn.insertRows rows) timestamp

omit [DecidableEq ρ] in
theorem release_latched (row : Row α) (free : row.manager.latch = none) (holder : Nat) :
    (latched holder row).release = row := by
  obtain ⟨_, _, _, ⟨_, _⟩, _⟩ := row
  cases free
  rfl

/-- Latching, writing and releasing the whole table leaves what writing alone leaves. -/
theorem release_wroteBack {accesses : List (Access ρ α)} {rows : ρ → Row α} (endTs holder : Nat)
    (free : ∀ row ∈ accesses.map Access.origRow, (rows row).manager.latch = none) (row : ρ) :
    (if row ∈ accesses.map Access.origRow then
      (wroteBack accesses (fun row => if row ∈ accesses.map Access.origRow then latched holder (rows row)
        else rows row) endTs row).release
      else wroteBack accesses (fun row => if row ∈ accesses.map Access.origRow then
        latched holder (rows row) else rows row) endTs row) = wroteBack accesses rows endTs row := by
  by_cases member : row ∈ accesses.map Access.origRow
  · have unlatched : ∀ data, ((latched holder (rows row)).write data endTs).release =
        (rows row).write data endTs :=
      fun data => release_latched ((rows row).write data endTs) (free row member) holder
    have whole := release_latched (rows row) (free row member) holder
    rw [if_pos member]
    unfold wroteBack
    split <;> simp only [if_pos member, unlatched, whole]
  · rw [if_neg member]
    unfold wroteBack
    split <;> simp only [if_neg member]

/-- Latching a prefix, freeing rows outside it and releasing the prefix leaves what freeing
alone leaves. -/
theorem release_freed (held inserted : List ρ) {rows : ρ → Row α} (holder : Nat)
    (free : ∀ row ∈ held, (rows row).manager.latch = none)
    (alive : ∀ row ∈ held, (freed inserted (fun row => if row ∈ held then latched holder (rows row)
      else rows row) row).live = true) (row : ρ) :
    (if row ∈ held then (freed inserted (fun row => if row ∈ held then latched holder (rows row)
        else rows row) row).release
      else freed inserted (fun row => if row ∈ held then latched holder (rows row) else rows row) row) =
      freed inserted rows row := by
  by_cases member : row ∈ held
  · have kept : row ∉ inserted := by
      intro gone
      have alive := alive row member
      simp [freed, gone, Row.freeRow] at alive
    simp only [freed, if_pos member, if_neg kept]
    exact release_latched (rows row) (free row member) holder
  · simp only [freed, if_neg member]

theorem validate_cases {txn txn' : TxnMan ρ α} {rows after : ρ → Row α} {timestamp next holder : Nat}
    {rc : RC} (free : ∀ acc ∈ txn.accesses, (rows acc.origRow).manager.latch = none)
    (nodup : (txn.accesses.map Access.origRow).Nodup)
    (taken : txn.validate rows timestamp holder = some (rc, after, next, txn')) :
    Finished txn rows timestamp .RCOK rc after next := by
  unfold validate at taken
  split at taken
  next live =>
    have perm := txn.sortAccesses_perm rows
    have sorted : ((txn.sortAccesses rows).accesses.map Access.origRow).Nodup :=
      (perm.map _).nodup_iff.mpr nodup
    have free' : ∀ row ∈ (txn.sortAccesses rows).accesses.map Access.origRow, (rows row).manager.latch = none := by
      intro row member
      obtain ⟨acc, listed, rfl⟩ := List.mem_map.mp member
      exact free acc (perm.mem_iff.mp listed)
    simp only [Option.bind_eq_bind, Option.bind_eq_some_iff] at taken
    obtain ⟨⟨rows₁, lockCnt, ok⟩, latching, taken⟩ := taken
    obtain ⟨k, rfl, rfl, passed, failed⟩ := latchRows_eq sorted latching
    cases ok with
    | true =>
      obtain ⟨rfl, current⟩ := passed rfl
      simp only [↓reduceIte, Option.bind_eq_some_iff] at taken
      obtain ⟨⟨written, _⟩, cleaned, last, released, same⟩ := taken
      cases same
      obtain ⟨rfl, -⟩ := cleanup_commit (by exact sorted) cleaned
      obtain ⟨-, rfl⟩ := releaseRows_eq released
      have done : Finished txn rows timestamp .RCOK .RCOK _ _ :=
        .committed (fun acc => List.all_eq_true.mp live acc)
          (fun acc member => current acc (perm.mem_iff.mpr member))
      rw [← wroteBack_perm perm nodup, ← funext (release_wroteBack timestamp holder free')] at done
      simpa only [Nat.zero_add, List.take_length] using done
    | false =>
      obtain ⟨acc, member, newer⟩ := failed rfl
      simp only [Bool.false_eq_true, ↓reduceIte, Option.bind_eq_some_iff] at taken
      obtain ⟨⟨written, _⟩, cleaned, last, released, same⟩ := taken
      cases same
      obtain ⟨rfl, -⟩ := cleanup_abort cleaned
      obtain ⟨alive, rfl⟩ := releaseRows_eq released
      have done : Finished txn rows timestamp .RCOK .Abort _ _ := .failed (perm.mem_iff.mp member) newer
      have kept := release_freed (((txn.sortAccesses rows).accesses.take k).map Access.origRow)
        txn.insertRows holder (fun row held => free' row (List.map_subset _ (List.take_subset _ _) held))
        (by simpa only [Nat.zero_add, sortAccesses_insertRows] using alive)
      rw [← funext kept] at done
      simpa only [Nat.zero_add, sortAccesses_insertRows] using done
  next => cases taken

theorem finish_cases {txn txn' : TxnMan ρ α} {rows after : ρ → Row α} {timestamp next holder : Nat}
    {rc rc' : RC} (ends : rc = .RCOK ∨ rc = .Abort)
    (free : ∀ acc ∈ txn.accesses, (rows acc.origRow).manager.latch = none)
    (nodup : (txn.accesses.map Access.origRow).Nodup)
    (taken : txn.finish rows timestamp holder rc = some (rc', after, next, txn')) :
    Finished txn rows timestamp rc rc' after next := by
  rcases ends with rfl | rfl
  · exact validate_cases free nodup taken
  · simp only [finish, reduceCtorEq, ↓reduceIte, Option.bind_eq_bind, Option.bind_eq_some_iff] at taken
    obtain ⟨⟨last, _⟩, cleaned, same⟩ := taken
    cases same
    obtain ⟨rfl, -⟩ := cleanup_abort cleaned
    exact .aborted

/-- A commit that is not aborted draws the next timestamp as its end. -/
theorem finish_endTs {txn txn' : TxnMan ρ α} {rows after : ρ → Row α} {timestamp next holder : Nat} {rc : RC}
    (taken : txn.finish rows timestamp holder .RCOK = some (rc, after, next, txn')) (passed : rc ≠ .Abort) :
    txn'.endTs = timestamp ∧ next = timestamp + 1 := by
  simp only [finish, ↓reduceIte, validate] at taken
  split at taken
  next =>
    simp only [Option.bind_eq_bind, Option.bind_eq_some_iff] at taken
    obtain ⟨⟨_, _, ok⟩, _, taken⟩ := taken
    cases ok with
    | true =>
      simp only [↓reduceIte, cleanup, reduceCtorEq, Option.bind_eq_bind, Option.bind_eq_some_iff,
        Option.some.injEq] at taken
      obtain ⟨_, ⟨_, _, _, rfl, cleaned⟩, _, _, same⟩ := taken
      cases cleaned
      cases same
      exact ⟨rfl, rfl⟩
    | false =>
      simp only [Bool.false_eq_true, ↓reduceIte, Option.bind_eq_some_iff] at taken
      obtain ⟨_, _, _, _, same⟩ := taken
      cases same
      exact absurd rfl passed
  next => cases taken

/-- The start timestamp stays, and an aborted call draws no end. -/
theorem finish_stamps {txn txn' : TxnMan ρ α} {rows after : ρ → Row α} {timestamp next holder : Nat} {rc rc' : RC}
    (taken : txn.finish rows timestamp holder rc = some (rc', after, next, txn')) :
    txn'.startTs = txn.startTs ∧ (rc' = .Abort → txn'.endTs = txn.endTs) := by
  have cleaned : ∀ (txn : TxnMan ρ α) {rows : ρ → Row α} {rc : RC} {result : (ρ → Row α) × TxnMan ρ α},
      txn.cleanup rows rc = some result → result.2 = txn.reset := by
    intro txn rows rc result done
    simp only [cleanup, Option.bind_eq_bind, Option.bind_eq_some_iff] at done
    obtain ⟨_, -, done⟩ := done
    split at done
    next =>
      obtain ⟨_, -, same⟩ := Option.bind_eq_some_iff.mp done
      exact (Option.some.inj same) ▸ rfl
    next => exact (Option.some.inj done) ▸ rfl
  unfold finish at taken
  split at taken
  next =>
    unfold validate at taken
    split at taken
    next =>
      simp only [Option.bind_eq_bind, Option.bind_eq_some_iff] at taken
      obtain ⟨⟨_, _, ok⟩, _, taken⟩ := taken
      cases ok with
      | true =>
        simp only [↓reduceIte, Option.bind_eq_some_iff] at taken
        obtain ⟨_, done, _, _, same⟩ := taken
        cases same
        have left := cleaned _ done
        exact ⟨left ▸ rfl, fun aborted => by cases aborted⟩
      | false =>
        simp only [Bool.false_eq_true, ↓reduceIte, Option.bind_eq_some_iff] at taken
        obtain ⟨_, done, _, _, same⟩ := taken
        cases same
        have left := cleaned _ done
        exact ⟨left ▸ rfl, fun _ => left ▸ rfl⟩
    next => cases taken
  next =>
    simp only [Option.bind_eq_bind, Option.bind_eq_some_iff] at taken
    obtain ⟨_, done, same⟩ := taken
    cases same
    have left := cleaned _ done
    exact ⟨left ▸ rfl, fun _ => left ▸ rfl⟩

private theorem latchRows_completes (startTs holder lockCnt : Nat) {rows : ρ → Row α}
    {list : List (Access ρ α)} (free : ∀ acc ∈ list, (rows acc.origRow).manager.latch = none)
    (nodup : (list.map Access.origRow).Nodup) :
    ∃ result, latchRows startTs holder rows list lockCnt = some result := by
  induction list generalizing rows lockCnt with
  | nil => exact ⟨_, rfl⟩
  | cons first rest ih =>
    obtain ⟨fresh, nodup'⟩ := List.nodup_cons.mp nodup
    have taken : (rows first.origRow).latch holder = some (latched holder (rows first.origRow)) :=
      Row.latch_eq_some.mpr ⟨free first List.mem_cons_self, rfl⟩
    simp only [latchRows, taken]
    split
    next =>
      apply ih _ _ nodup'
      intro acc member
      have apart : acc.origRow ≠ first.origRow := fun same => fresh (same ▸ List.mem_map_of_mem member)
      rw [Function.update_of_ne apart]
      exact free acc (List.mem_cons_of_mem _ member)
    next => exact ⟨_, rfl⟩

private theorem returnRows_completes (endTs : Nat) (rc : RC) (rows : ρ → Row α)
    {list : List (Access ρ α)} (nodup : (list.map Access.origRow).Nodup)
    (ready : ∀ acc ∈ list, (rows acc.origRow).live = true ∧ (rows acc.origRow).manager.wts < endTs) :
    ∃ after, returnRows endTs rc rows list = some after := by
  induction list generalizing rows with
  | nil => exact ⟨_, rfl⟩
  | cons first rest ih =>
    obtain ⟨fresh, nodup'⟩ := List.nodup_cons.mp nodup
    have later : ∀ acc ∈ rest, (rows acc.origRow).live = true ∧ (rows acc.origRow).manager.wts < endTs :=
      fun acc member => ready acc (List.mem_cons_of_mem _ member)
    simp only [returnRows, ready first List.mem_cons_self, and_self, ↓reduceIte]
    split
    next =>
      apply ih _ nodup'
      intro acc member
      have apart : acc.origRow ≠ first.origRow := fun same => fresh (same ▸ List.mem_map_of_mem member)
      rw [Function.update_of_ne apart]
      exact later acc member
    next => exact ih _ nodup' later

private theorem releaseRows_completes (rows : ρ → Row α) {list : List ρ}
    (live : ∀ row ∈ list, (rows row).live = true) : ∃ after, releaseRows rows list = some after := by
  induction list generalizing rows with
  | nil => exact ⟨_, rfl⟩
  | cons first rest ih =>
    simp only [releaseRows, live first List.mem_cons_self, ↓reduceIte]
    apply ih
    intro row member
    by_cases here : row = first
    · subst here
      simpa [Row.release] using live row List.mem_cons_self
    · rw [Function.update_of_ne here]
      exact live row (List.mem_cons_of_mem _ member)

section Completes
variable {txn : TxnMan ρ α} {rows : ρ → Row α} {timestamp : Nat}

/-- The latch loop runs through, and leaves rows that are live and as old as before. -/
private theorem latchRows_sorted (holder : Nat) (free : ∀ acc ∈ txn.accesses, (rows acc.origRow).manager.latch = none)
    (nodup : (txn.accesses.map Access.origRow).Nodup)
    (live : ∀ acc ∈ txn.accesses, (rows acc.origRow).live = true) :
    ∃ rows₁ k ok, latchRows (txn.sortAccesses rows).startTs holder rows (txn.sortAccesses rows).accesses 0 =
        some (rows₁, 0 + k, ok) ∧
      (∀ row, (rows₁ row).live = (rows row).live ∧ (rows₁ row).manager.wts = (rows row).manager.wts) ∧
      (∀ row ∈ ((txn.sortAccesses rows).accesses.take (0 + k)).map Access.origRow, (rows₁ row).live = true) ∧
      (ok = false → ∃ acc ∈ txn.accesses, txn.startTs < (rows acc.origRow).manager.wts) ∧
      (ok = true → ∀ acc ∈ txn.accesses, (rows acc.origRow).manager.wts ≤ txn.startTs) := by
  have perm := txn.sortAccesses_perm rows
  have sorted : ((txn.sortAccesses rows).accesses.map Access.origRow).Nodup :=
    (perm.map _).nodup_iff.mpr nodup
  obtain ⟨⟨rows₁, lockCnt, ok⟩, latching⟩ := latchRows_completes (txn.sortAccesses rows).startTs
    holder 0 (fun acc member => free acc (perm.mem_iff.mp member)) sorted
  obtain ⟨k, rfl, same, passed, failed⟩ := latchRows_eq sorted latching
  have kept : ∀ row, (rows₁ row).live = (rows row).live ∧
      (rows₁ row).manager.wts = (rows row).manager.wts := by
    intro row
    rw [same]
    dsimp only
    split <;> exact ⟨rfl, rfl⟩
  refine ⟨rows₁, k, ok, latching, kept, ?_, ?_, ?_⟩
  · intro row held
    obtain ⟨acc, prefix_, rfl⟩ := List.mem_map.mp held
    exact (kept _).1.trans (live acc (perm.mem_iff.mp (List.take_subset _ _ prefix_)))
  · intro no
    obtain ⟨acc, member, newer⟩ := failed no
    exact ⟨acc, perm.mem_iff.mp member, newer⟩
  · intro yes acc member
    exact (passed yes).2 acc (perm.mem_iff.mpr member)

/-- A commit whose row checks pass completes. -/
theorem finish_passes (holder : Nat) (free : ∀ acc ∈ txn.accesses, (rows acc.origRow).manager.latch = none)
    (past : ∀ acc ∈ txn.accesses, (rows acc.origRow).manager.wts < timestamp) (nodup : (txn.accesses.map Access.origRow).Nodup)
    (live : ∀ acc ∈ txn.accesses, (rows acc.origRow).live = true)
    (current : ∀ acc ∈ txn.accesses, (rows acc.origRow).manager.wts ≤ txn.startTs) :
    ∃ result, txn.finish rows timestamp holder .RCOK = some result := by
  have perm := txn.sortAccesses_perm rows
  have all : txn.accesses.all (fun acc => (rows acc.origRow).live) = true := List.all_eq_true.mpr live
  obtain ⟨rows₁, k, ok, latching, kept, held, failed, -⟩ := latchRows_sorted holder free nodup live
  simp only [finish, validate, ↓reduceIte, all, latching, Option.bind_eq_bind, Option.bind_some]
  cases ok with
  | false =>
    obtain ⟨acc, member, newer⟩ := failed rfl
    exact absurd newer (Nat.not_lt.mpr (current acc member))
  | true =>
    have reversed : ((txn.sortAccesses rows).accesses.reverse.map Access.origRow).Nodup :=
      (((List.reverse_perm _).trans perm).map _).nodup_iff.mpr nodup
    obtain ⟨after, returned⟩ := returnRows_completes timestamp .RCOK rows₁
      reversed (fun acc found => by
        rw [(kept acc.origRow).1, (kept acc.origRow).2]
        have member := perm.mem_iff.mp (List.mem_reverse.mp found)
        exact ⟨live acc member, past acc member⟩)
    have written := returnRows_eq (by decide) reversed returned
    obtain ⟨last, released⟩ := releaseRows_completes after (fun row inHeld => by
      rw [written]
      rcases wroteBack_cases reversed rows₁ timestamp row with ⟨_, _, _, _, same⟩ | ⟨_, same⟩ <;> rw [same]
      · exact held row inHeld
      · exact held row inHeld)
    simp only [↓reduceIte, cleanup, returned, Option.bind_eq_bind, Option.bind_some, reduceCtorEq,
      Option.pure_def, released]
    exact ⟨_, rfl⟩

/-- It answers `RCOK`, and writes back the copies of the written rows. -/
theorem finish_commits (holder : Nat) (free : ∀ acc ∈ txn.accesses, (rows acc.origRow).manager.latch = none)
    (past : ∀ acc ∈ txn.accesses, (rows acc.origRow).manager.wts < timestamp) (nodup : (txn.accesses.map Access.origRow).Nodup)
    (live : ∀ acc ∈ txn.accesses, (rows acc.origRow).live = true)
    (current : ∀ acc ∈ txn.accesses, (rows acc.origRow).manager.wts ≤ txn.startTs) :
    ∃ txn', txn.finish rows timestamp holder .RCOK =
      some (.RCOK, wroteBack txn.accesses rows timestamp, timestamp + 1, txn') := by
  obtain ⟨⟨rc, after, next, txn'⟩, finished⟩ := finish_passes holder free past nodup live current
  cases finish_cases (.inl rfl) free nodup finished with
  | committed => exact ⟨txn', finished⟩
  | failed member newer => exact absurd newer (Nat.not_lt.mpr (current _ member))

/-- `finish` completes for a transaction that inserted no row and whose rows are all live. -/
theorem finish_completes (holder : Nat) {rc : RC}
    (ends : rc = .RCOK ∨ rc = .Abort) (free : ∀ acc ∈ txn.accesses, (rows acc.origRow).manager.latch = none)
    (past : ∀ acc ∈ txn.accesses, (rows acc.origRow).manager.wts < timestamp)
    (nodup : (txn.accesses.map Access.origRow).Nodup) (kept : txn.insertRows = [])
    (live : ∀ acc ∈ txn.accesses, (rows acc.origRow).live = true) :
    ∃ result, txn.finish rows timestamp holder rc = some result := by
  have freeing : ∀ rows : ρ → Row α, freeRows rows txn.insertRows = some rows := by
    intro rows
    rw [kept]
    rfl
  rcases ends with rfl | rfl
  · have all : txn.accesses.all (fun acc => (rows acc.origRow).live) = true := List.all_eq_true.mpr live
    obtain ⟨rows₁, k, ok, latching, -, held, -, passed⟩ := latchRows_sorted holder free nodup live
    cases ok with
    | true => exact finish_passes holder free past nodup live (passed rfl)
    | false =>
      obtain ⟨last, released⟩ := releaseRows_completes rows₁ held
      simp only [finish, validate, ↓reduceIte, all, latching, Option.bind_eq_bind, Option.bind_some,
        Bool.false_eq_true, cleanup, returnRows_abort, sortAccesses_insertRows, freeing, Option.pure_def,
        released]
      exact ⟨_, rfl⟩
  · simp only [finish, cleanup, returnRows_abort, freeing, reduceCtorEq, ↓reduceIte]
    exact ⟨_, rfl⟩

/-- It answers `Abort` where a check fails, and leaves the rows as they are. -/
theorem finish_fails (holder : Nat) (free : ∀ acc ∈ txn.accesses, (rows acc.origRow).manager.latch = none)
    (past : ∀ acc ∈ txn.accesses, (rows acc.origRow).manager.wts < timestamp)
    (nodup : (txn.accesses.map Access.origRow).Nodup) (kept : txn.insertRows = [])
    (live : ∀ acc ∈ txn.accesses, (rows acc.origRow).live = true) {acc : Access ρ α} (member : acc ∈ txn.accesses)
    (newer : txn.startTs < (rows acc.origRow).manager.wts) :
    ∃ txn', txn.finish rows timestamp holder .RCOK = some (.Abort, rows, timestamp, txn') := by
  obtain ⟨⟨rc, after, next, txn'⟩, finished⟩ := finish_completes holder (.inl rfl) free past nodup kept live
  have unfreed : freed txn.insertRows rows = rows := by
    rw [kept]
    funext row
    exact if_neg List.not_mem_nil
  cases finish_cases (.inl rfl) free nodup finished with
  | committed _ current => exact absurd newer (Nat.not_lt.mpr (current acc member))
  | failed =>
    rw [unfreed] at finished
    exact ⟨txn', finished⟩

/-- A transaction that inserted no row aborts and leaves the rows as they are. -/
theorem finish_aborts (rows : ρ → Row α) (timestamp holder : Nat) (kept : txn.insertRows = []) :
    txn.finish rows timestamp holder .Abort = some (.Abort, rows, timestamp, txn.reset) := by
  simp [finish, cleanup, returnRows_abort, kept, freeRows]

end Completes

end TxnMan

end DataAgentDB.Storage
