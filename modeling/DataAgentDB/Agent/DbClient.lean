import DataAgentDB.Lib.LabelledRun
import Mathlib.Data.List.AList

/-! The agent's in-memory database (db_client.py): transactions buffer their writes and read
through to the live store. -/

namespace DataAgentDB.Agent
open LabelledRun

abbrev Dict (κ ν : Type) := AList (fun _ : κ => ν)

structure TxContext (κ ν : Type) where
  txId : Nat
  snapshot : Dict κ ν
  writes : Dict κ ν
  active : Bool

/-- `uuid4` hands out ids that were never used; they are counted here. -/
structure MiniDBClient (κ ν : Type) where
  store : Dict κ ν
  txMap : Nat → Option (TxContext κ ν)
  nextId : Nat

inductive Call (κ ν : Type) where
  | start
  | get (t : Nat) (key : κ)
  | put (t : Nat) (key : κ) (value : ν)
  | commit (t : Nat)
  | rollback (t : Nat)
  deriving DecidableEq, Repr

/-- What a call returns; `raised` is the `RuntimeError` of `_require_tx`. -/
inductive Answer (ν : Type) where
  | started (t : Nat)
  | value (value : Option ν)
  | done
  | raised
  deriving DecidableEq, Repr

structure Event (κ ν : Type) where
  call : Call κ ν
  answer : Answer ν
  deriving DecidableEq, Repr

variable {κ ν : Type} [DecidableEq κ]

namespace MiniDBClient

def init : MiniDBClient κ ν := { store := ∅, txMap := fun _ => none, nextId := 0 }

def setTx (db : MiniDBClient κ ν) (t : Nat) (tx : Option (TxContext κ ν)) : MiniDBClient κ ν :=
  { db with txMap := Function.update db.txMap t tx }

def start (db : MiniDBClient κ ν) : Answer ν × MiniDBClient κ ν :=
  let tx := { txId := db.nextId, snapshot := db.store, writes := ∅, active := true }
  (.started db.nextId, { db.setTx db.nextId (some tx) with nextId := db.nextId + 1 })

def requireTx (db : MiniDBClient κ ν) (t : Nat) : Option (TxContext κ ν) :=
  match db.txMap t with
  | none => none
  | some tx => if tx.active then some tx else none

def get (db : MiniDBClient κ ν) (t : Nat) (key : κ) : Answer ν :=
  match db.requireTx t with
  | none => .raised
  | some tx =>
      match tx.writes.lookup key with
      | some value => .value (some value)
      | none => .value (db.store.lookup key)

def put (db : MiniDBClient κ ν) (t : Nat) (key : κ) (value : ν) : Answer ν × MiniDBClient κ ν :=
  match db.requireTx t with
  | none => (.raised, db)
  | some tx => (.done, db.setTx t (some { tx with writes := tx.writes.insert key value }))

def commit (db : MiniDBClient κ ν) (t : Nat) : Answer ν × MiniDBClient κ ν :=
  match db.requireTx t with
  | none => (.raised, db)
  | some tx =>
      let store := tx.writes.foldl (fun store key value => store.insert key value) db.store
      (.done, { db with store := store }.setTx t none)

def rollback (db : MiniDBClient κ ν) (t : Nat) : Answer ν × MiniDBClient κ ν :=
  match db.requireTx t with
  | none => (.raised, db)
  | some _ => (.done, db.setTx t none)

def perform (db : MiniDBClient κ ν) : Call κ ν → Answer ν × MiniDBClient κ ν
  | .start => db.start
  | .get t key => (db.get t key, db)
  | .put t key value => db.put t key value
  | .commit t => db.commit t
  | .rollback t => db.rollback t

/-- The database after a call with its answer. -/
def next [DecidableEq ν] (db : MiniDBClient κ ν) (event : Event κ ν) : Option (MiniDBClient κ ν) :=
  if (db.perform event.call).1 = event.answer then some (db.perform event.call).2 else none

end MiniDBClient

/-- One call of one user; calls of different transactions interleave freely. -/
def Step [DecidableEq ν] (db : MiniDBClient κ ν) (event : Event κ ν) (next : MiniDBClient κ ν) : Prop :=
  db.next event = some next

section SetTx
omit [DecidableEq κ]
variable {db : MiniDBClient κ ν} {t u : Nat} {slot : Option (TxContext κ ν)} {tx : TxContext κ ν}

theorem setTx_here (db : MiniDBClient κ ν) (t : Nat) (slot : Option (TxContext κ ν)) :
    (db.setTx t slot).txMap t = slot := Function.update_self _ _ _

theorem setTx_other (apart : u ≠ t) (slot : Option (TxContext κ ν)) : (db.setTx t slot).txMap u = db.txMap u :=
  Function.update_of_ne apart _ _

/-- A transaction that is open after one was closed. -/
theorem opened_before (found : (db.setTx t none).txMap u = some tx) : u ≠ t ∧ db.txMap u = some tx := by
  by_cases same : u = t
  · rw [same, setTx_here] at found
    cases found
  · rw [setTx_other same] at found
    exact ⟨same, found⟩

theorem setTx_none (missing : db.txMap u = none) (t : Nat) : (db.setTx t none).txMap u = none := by
  by_cases same : u = t
  · rw [same, setTx_here]
  · rw [setTx_other same]
    exact missing

end SetTx

/-- The write set of a commit over the store. -/
theorem lookup_foldl_insert (writes store : Dict κ ν) (key : κ) :
    (writes.foldl (fun store key value => store.insert key value) store).lookup key =
      (writes.lookup key).or (store.lookup key) := by
  obtain ⟨entries, nodup⟩ := writes
  change (entries.foldl (fun store entry => store.insert entry.1 entry.2) store).lookup key =
    (entries.dlookup key).or (store.lookup key)
  induction entries generalizing store with
  | nil => rfl
  | cons entry entries ih =>
    obtain ⟨other, value⟩ := entry
    obtain ⟨absent, nodup'⟩ := List.nodupKeys_cons.mp nodup
    rw [List.foldl_cons, ih _ nodup']
    by_cases same : key = other
    · subst same
      rw [List.dlookup_cons_eq, List.dlookup_eq_none.mpr absent, AList.lookup_insert]
      rfl
    · rw [List.dlookup_cons_ne _ _ same, AList.lookup_insert_ne same]

/-- Every way a call can end. -/
inductive Did (db : MiniDBClient κ ν) : Event κ ν → MiniDBClient κ ν → Prop
  | start : Did db ⟨.start, .started db.nextId⟩
      { db.setTx db.nextId (some ⟨db.nextId, db.store, ∅, true⟩) with nextId := db.nextId + 1 }
  | raised {call : Call κ ν} : Did db ⟨call, .raised⟩ db
  | get {t : Nat} {key : κ} {tx : TxContext κ ν} (opened : db.txMap t = some tx) :
      Did db ⟨.get t key, .value ((tx.writes.lookup key).or (db.store.lookup key))⟩ db
  | put {t : Nat} {key : κ} {value : ν} {tx : TxContext κ ν} (opened : db.txMap t = some tx) :
      Did db ⟨.put t key value, .done⟩
        (db.setTx t (some { tx with writes := tx.writes.insert key value }))
  | commit {t : Nat} {tx : TxContext κ ν} {store : Dict κ ν} (opened : db.txMap t = some tx)
      (installed : ∀ key, store.lookup key = (tx.writes.lookup key).or (db.store.lookup key)) :
      Did db ⟨.commit t, .done⟩ ({ db with store := store }.setTx t none)
  | rollback {t : Nat} {tx : TxContext κ ν} (opened : db.txMap t = some tx) :
      Did db ⟨.rollback t, .done⟩ (db.setTx t none)

omit [DecidableEq κ] in
theorem requireTx_cases (db : MiniDBClient κ ν) (t : Nat) :
    db.requireTx t = none ∨ ∃ tx, db.requireTx t = some tx ∧ db.txMap t = some tx := by
  unfold MiniDBClient.requireTx
  cases found : db.txMap t with
  | none => exact .inl rfl
  | some tx =>
    dsimp only
    split
    · exact .inr ⟨tx, rfl, rfl⟩
    · exact .inl rfl

theorem did_of_step [DecidableEq ν] {db next : MiniDBClient κ ν} {event : Event κ ν}
    (taken : Step db event next) : Did db event next := by
  obtain ⟨call, answer⟩ := event
  unfold Step MiniDBClient.next at taken
  split at taken
  next given =>
    cases taken
    change (db.perform call).1 = answer at given
    subst given
    cases call with
    | start => exact .start
    | get t key =>
      simp only [MiniDBClient.perform, MiniDBClient.get]
      rcases requireTx_cases db t with missing | ⟨tx, active, opened⟩
      · rw [missing]
        exact .raised
      · rw [active]
        have found : (match tx.writes.lookup key with
            | some value => Answer.value (some value)
            | none => .value (db.store.lookup key)) =
            .value ((tx.writes.lookup key).or (db.store.lookup key)) := by
          cases tx.writes.lookup key <;> rfl
        simp only [found]
        exact .get opened
    | put t key value =>
      simp only [MiniDBClient.perform, MiniDBClient.put]
      rcases requireTx_cases db t with missing | ⟨tx, active, opened⟩
      · rw [missing]
        exact .raised
      · rw [active]
        exact .put opened
    | commit t =>
      simp only [MiniDBClient.perform, MiniDBClient.commit]
      rcases requireTx_cases db t with missing | ⟨tx, active, opened⟩
      · rw [missing]
        exact .raised
      · rw [active]
        exact .commit opened (lookup_foldl_insert tx.writes db.store)
    | rollback t =>
      simp only [MiniDBClient.perform, MiniDBClient.rollback]
      rcases requireTx_cases db t with missing | ⟨tx, active, opened⟩
      · rw [missing]
        exact .raised
      · rw [active]
        exact .rollback opened
  next => cases taken

end DataAgentDB.Agent
