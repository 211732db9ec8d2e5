import DataAgentDB.Lib.LabelledRun
import DataAgentDB.Storage.TxnSlots
import Mathlib.Data.Set.Function

/-! Runs of calls on one `txn_man`, over any number of transactions: the access table stays exact,
and after `finish` the object answers like a new one. -/

namespace DataAgentDB.Storage.TxnSlots
open LabelledRun Simulates

variable {ρ α : Type}

/-- The calls, each with the rows as the other threads left them. -/
inductive Call (ρ α : Type) where
  | setStartTs (startTs : Nat)
  | getRow (rows : ρ → Row α) (row : ρ) (type : AccessT) (blank : α)
  | setLocal (rid : Nat) (value : α → α)
  | insertRow (row : ρ)
  | finish (rows : ρ → Row α) (timestamp holder : Nat) (rc : RC)

inductive Reply (ρ α : Type) where
  | done
  | copy (data : Option α)
  | ended (rc : RC) (rows : ρ → Row α) (timestamp : Nat)

def Call.ends : Call ρ α → Bool
  | .finish .. => true
  | _ => false

section Calls
variable [DecidableEq ρ]

def call (txn : TxnSlots ρ α) : Call ρ α → Except TableFault (Reply ρ α × TxnSlots ρ α)
  | .setStartTs startTs => .ok (.done, { txn with startTs := startTs })
  | .getRow rows row type blank => do
      let (data, txn) ← txn.getRow rows row type blank
      return (.copy data, txn)
  | .setLocal rid value => do
      let txn ← txn.setLocal rid value
      return (.done, txn)
  | .insertRow row => do
      let txn ← txn.insertRow row
      return (.done, txn)
  | .finish rows timestamp holder rc => do
      let (rc, rows, timestamp, txn) ← txn.finish rows timestamp holder rc
      return (.ended rc rows timestamp, txn)

/-- The call on the list. -/
def listCall (man : TxnMan ρ α) : Call ρ α → Option (Reply ρ α × TxnMan ρ α)
  | .setStartTs startTs => some (.done, { man with startTs := startTs })
  | .getRow rows row type _ => do
      let (data, man) ← man.getRow rows row type
      return (.copy data, man)
  | .setLocal rid value => some (.done, man.setLocal rid value)
  | .insertRow row => do
      let man ← man.insertRow row
      return (.done, man)
  | .finish rows timestamp holder rc => do
      let (rc, rows, timestamp, man) ← man.finish rows timestamp holder rc
      return (.ended rc rows timestamp, man)

/-- A row that is not in the table finds room in it. -/
def HasRoom (txn : TxnSlots ρ α) : Call ρ α → Prop
  | .getRow rows row _ _ => txn.recordPos (rows row).primaryKey = none → txn.rowCnt < MAX_ROW_PER_TXN
  | _ => True

variable {txn next : TxnSlots ρ α} {man : TxnMan ρ α}

theorem call_like (refines : Refines txn man) {call : Call ρ α} (room : HasRoom txn call) :
    Like (fun x y => x.1 = y.1 ∧ Refines x.2 y.2) (txn.call call) (listCall man call) := by
  cases call with
  | setStartTs startTs => exact .ok ⟨rfl, { refines with startTs := rfl }⟩
  | getRow rows row type blank =>
    refine (refines.getRow rows row type blank room).bind ?_
    rintro ⟨data, txn⟩ ⟨_, man⟩ ⟨rfl, refines'⟩
    exact .ok ⟨rfl, refines'⟩
  | setLocal rid value =>
    obtain ⟨txn', done, refines'⟩ := refines.setLocal rid value
    rw [TxnSlots.call, done]
    exact .ok ⟨rfl, refines'⟩
  | insertRow row =>
    refine (refines.insertRow row).bind ?_
    intro txn man refines'
    exact .ok ⟨rfl, refines'⟩
  | finish rows timestamp holder rc =>
    refine (finish_like refines rows timestamp holder rc).bind ?_
    rintro ⟨rc, rows, timestamp, txn⟩ ⟨_, _, _, man⟩ ⟨rfl, rfl, rfl, refines'⟩
    exact .ok ⟨rfl, refines'⟩

/-- Two objects that hold the same list answer alike, also where the array is full. -/
theorem call_alike {other : TxnSlots ρ α} (first : Refines txn man) (second : Refines other man) (call : Call ρ α) :
    (∃ fault, txn.call call = .error fault ∧ other.call call = .error fault) ∨
    ∃ reply next next' man', txn.call call = .ok (reply, next) ∧ other.call call = .ok (reply, next') ∧
      Refines next man' ∧ Refines next' man' := by
  by_cases room : HasRoom txn call
  · have room' : HasRoom other call := by
      cases call with
      | getRow rows row type blank =>
        intro missing
        rw [second.recordPos, ← first.recordPos] at missing
        rw [second.rowCnt, ← first.rowCnt]
        exact room missing
      | _ => trivial
    rcases (call_like first room).alike (call_like second room') with
      ⟨failed, failed'⟩ | ⟨⟨_, next⟩, ⟨_, man'⟩, ⟨_, next'⟩, done, done', ⟨rfl, refines⟩, rfl, refines'⟩
    · exact .inl ⟨_, failed, failed'⟩
    · exact .inr ⟨_, next, next', man', done, done', refines, refines'⟩
  · left
    cases call with
    | getRow rows row type blank =>
      obtain ⟨missing, full⟩ := Classical.not_imp.mp room
      have missing' : other.recordPos (rows row).primaryKey = none := by
        rw [second.recordPos, ← first.recordPos]
        exact missing
      have full' : ¬ other.rowCnt < MAX_ROW_PER_TXN := by
        rw [second.rowCnt, ← first.rowCnt]
        exact full
      by_cases live : (rows row).live = true
      · refine ⟨.pastArray, ?_, ?_⟩
        · rw [TxnSlots.call, (first.getRow_past type blank live missing full).1]
          rfl
        · rw [TxnSlots.call, (second.getRow_past type blank live missing' full').1]
          rfl
      · refine ⟨.incomplete, ?_, ?_⟩
        · rw [TxnSlots.call, TxnSlots.getRow, if_neg live]
          rfl
        · rw [TxnSlots.call, TxnSlots.getRow, if_neg live]
          rfl
    | _ => exact absurd trivial room

/-- The answers to a list of calls, up to the first that fails. -/
def replies : TxnSlots ρ α → List (Call ρ α) → List (Except TableFault (Reply ρ α))
  | _, [] => []
  | txn, call :: rest =>
      match txn.call call with
      | .ok (reply, next) => .ok reply :: replies next rest
      | .error fault => [.error fault]

theorem replies_alike {other : TxnSlots ρ α} (first : Refines txn man) (second : Refines other man)
    (calls : List (Call ρ α)) : replies txn calls = replies other calls := by
  induction calls generalizing txn other man with
  | nil => rfl
  | cons call rest ih =>
    rw [replies, replies]
    rcases call_alike first second call with
      ⟨fault, failed, failed'⟩ | ⟨reply, next, next', man', done, done', refines, refines'⟩
    · rw [failed, failed']
    · rw [done, done']
      simp only [ih refines refines']

theorem cleanup_empties {rows rows' : ρ → Row α} {rc : RC} (done : txn.cleanup rows rc = .ok (rows', next)) :
    Emptied next := by
  obtain ⟨⟨_, accesses⟩, -, done⟩ := bind_eq_ok done
  dsimp only at done
  split at done
  all_goals
    obtain ⟨_, -, done⟩ := bind_eq_ok done
    cases done
    exact ⟨rfl, rfl, rfl, rfl⟩

theorem finish_empties {rows rows' : ρ → Row α} {timestamp timestamp' holder : Nat} {rc rc' : RC}
    (done : txn.finish rows timestamp holder rc = .ok (rc', rows', timestamp', next)) : Emptied next := by
  unfold finish at done
  split at done
  · obtain ⟨sorted, -, done⟩ := bind_eq_ok done
    obtain ⟨⟨rows, lockCnt, ok⟩, -, done⟩ := bind_eq_ok done
    dsimp only at done
    split at done
    all_goals
      obtain ⟨⟨rows, empty⟩, cleaned, done⟩ := bind_eq_ok done
      obtain ⟨_, -, done⟩ := bind_eq_ok done
      cases done
      exact cleanup_empties cleaned
  · obtain ⟨⟨rows, empty⟩, cleaned, done⟩ := bind_eq_ok done
    cases done
    exact cleanup_empties cleaned

theorem call_empties {call : Call ρ α} {reply : Reply ρ α} (ends : call.ends = true)
    (done : txn.call call = .ok (reply, next)) : Emptied next := by
  cases call with
  | finish rows timestamp holder rc =>
    obtain ⟨⟨rc, rows, timestamp, txn'⟩, finished, done⟩ := bind_eq_ok done
    cases done
    exact finish_empties finished
  | _ => cases ends

end Calls

section Tracked

/-- The keys of the table, by position. -/
def tableKeys (key : ρ → Nat) (man : TxnMan ρ α) : List Nat := (man.accesses.map Access.origRow).map key

/-- `record_pos` is the inverse of the list of keys, `wr_cnt` counts the writes, and `keys` are the
keys that were accessed. -/
structure Tracked (key : ρ → Nat) (keys : List Nat) (man : TxnMan ρ α) : Prop where
  indexed : ∀ p i, man.recordPos p = some i ↔ (tableKeys key man)[i]? = some p
  counted : man.wrCnt = (man.accesses.map Access.type).count .WR
  accessed : ∀ p, p ∈ keys ↔ p ∈ tableKeys key man

variable {key : ρ → Nat} {keys : List Nat} {man man' : TxnMan ρ α}

namespace Tracked

theorem empty (rows : man.accesses = []) (writes : man.wrCnt = 0) (positions : man.recordPos = fun _ => none) :
    Tracked key [] man where
  indexed := by simp [positions, tableKeys, rows]
  counted := by simp [writes, rows]
  accessed := by simp [tableKeys, rows]

/-- A change that leaves rows, positions and the number of writes leaves the table exact. -/
theorem of_same (tracked : Tracked key keys man)
    (rows : man'.accesses.map Access.origRow = man.accesses.map Access.origRow)
    (positions : man'.recordPos = man.recordPos) (counted : man'.wrCnt = (man'.accesses.map Access.type).count .WR) :
    Tracked key keys man' := by
  have same : tableKeys key man' = tableKeys key man := by rw [tableKeys, tableKeys, rows]
  refine ⟨?_, counted, ?_⟩
  · intro p i
    rw [positions, same]
    exact tracked.indexed p i
  · intro p
    rw [same]
    exact tracked.accessed p

/-- An access to a key of the table adds no key. -/
theorem again (tracked : Tracked key keys man) {p i : Nat} (found : man.recordPos p = some i) :
    Tracked key (p :: keys) man := by
  refine { tracked with accessed := ?_ }
  intro q
  have member : p ∈ tableKeys key man := List.mem_of_getElem? ((tracked.indexed p i).mp found)
  rw [List.mem_cons, tracked.accessed q]
  constructor
  · rintro (rfl | there)
    · exact member
    · exact there
  · exact .inr

theorem upgrade (tracked : Tracked key keys man) {pos : Nat} {acc : Access ρ α}
    (entry : man.accesses[pos]? = some acc) (type : AccessT) : Tracked key keys (man.upgrade pos acc type) := by
  refine tracked.of_same (man.upgrade_rows entry type) (man.upgrade_recordPos pos acc type) ?_
  obtain ⟨bound, same⟩ := List.getElem?_eq_some_iff.mp entry
  unfold TxnMan.upgrade
  split
  next raised =>
    have inside : pos < (man.accesses.map Access.type).length := by simpa using bound
    have old : (man.accesses.map Access.type)[pos] = .RD := by
      rw [List.getElem_map, same, raised.1]
    rw [List.map_set, List.count_set inside, old, ← tracked.counted]
    rfl
  next => exact tracked.counted

theorem record (tracked : Tracked key keys man) {row : ρ} (missing : man.recordPos (key row) = none)
    (type : AccessT) (copy : α) : Tracked key (key row :: keys) (man.record (key row) row type copy) := by
  have longer : tableKeys key (man.record (key row) row type copy) = tableKeys key man ++ [key row] := by
    simp [tableKeys]
  have length : man.rowCnt = (tableKeys key man).length := by simp [tableKeys, TxnMan.rowCnt]
  have fresh : key row ∉ tableKeys key man := by
    intro member
    obtain ⟨i, found⟩ := List.mem_iff_getElem?.mp member
    rw [(tracked.indexed _ i).mpr found] at missing
    cases missing
  refine ⟨?_, ?_, ?_⟩
  · intro p i
    rw [TxnMan.record_recordPos, longer, length]
    by_cases here : p = key row
    · subst here
      rw [Function.update_self, Option.some.injEq, List.getElem?_append]
      split
      next before =>
        refine ⟨fun same => by omega, fun found => ?_⟩
        exact absurd (List.mem_of_getElem? found) fresh
      next past =>
        rw [List.getElem?_singleton]
        split
        next => exact ⟨fun _ => rfl, fun _ => by omega⟩
        next =>
          refine ⟨fun same => by omega, fun found => ?_⟩
          cases found
    · rw [Function.update_of_ne here, tracked.indexed, List.getElem?_append]
      split
      next => rfl
      next past =>
        rw [List.getElem?_eq_none (by omega), List.getElem?_singleton]
        split
        next => simp [Ne.symm here]
        next => rfl
  · rw [TxnMan.record_accesses, List.map_append, List.count_append, ← tracked.counted]
    simp only [TxnMan.record, List.map_cons, List.map_nil]
    by_cases write : type = .WR
    · rw [if_pos write, write, List.count_singleton_self]
    · rw [if_neg write, List.count_cons_of_ne write, List.count_nil]
      rfl
  · intro p
    rw [longer, List.mem_cons, List.mem_append, List.mem_singleton, tracked.accessed p]
    exact or_comm

theorem setLocal (tracked : Tracked key keys man) (rid : Nat) (value : α → α) :
    Tracked key keys (man.setLocal rid value) := by
  refine tracked.of_same (man.setLocal_rows rid value) (man.setLocal_recordPos rid value) ?_
  have types := TxnMan.setLocal_map Access.type (fun _ _ => rfl) man rid value
  rw [types, ← tracked.counted]
  unfold TxnMan.setLocal
  split <;> rfl

end Tracked

end Tracked

/-- A call that completed, with its answer. -/
abbrev Event (ρ α : Type) : Type := Call ρ α × Reply ρ α

/-- The keys accessed in the transaction under way. -/
def access (key : ρ → Nat) (keys : List Nat) : Event ρ α → List Nat
  | (.getRow _ row _ _, .copy (some _)) => key row :: keys
  | (.finish .., _) => []
  | _ => keys

def accessed (key : ρ → Nat) (trace : List (Event ρ α)) : List Nat := trace.foldl (access key) []

/-- The rows keep their primary keys, and a transaction accesses no more than the array holds. -/
def Fits (key : ρ → Nat) (txn : TxnSlots ρ α) : Call ρ α → Prop
  | .getRow rows row _ _ =>
      (rows row).primaryKey = key row ∧ (txn.recordPos (key row) = none → txn.rowCnt < MAX_ROW_PER_TXN)
  | _ => True

def Promised (key : ρ → Nat) (_ : List (Event ρ α)) (txn : TxnSlots ρ α) (event : Event ρ α) : Prop :=
  Fits key txn event.1

/-- The bookkeeping of the table. -/
structure Exact (key : ρ → Nat) (keys : List Nat) (txn : TxnSlots ρ α) : Prop where
  positions : ∃ place : Nat → Nat, (∀ p, txn.recordPos p = if p ∈ keys then some (place p) else none) ∧
    Set.BijOn place {p | p ∈ keys} {i | i < txn.rowCnt}
  rows : ∀ p i, txn.recordPos p = some i →
    ∃ acc row, txn.accesses i = some acc ∧ acc.origRow = some row ∧ key row = p
  writes : txn.wrCnt = ((List.range txn.rowCnt).filter
    (fun i => (txn.accesses i).any (fun acc => acc.type = .WR))).length
  data : ∀ i < txn.rowCnt, ∃ acc copy, txn.accesses i = some acc ∧ acc.data = some copy

section Runs
variable [DecidableEq ρ]

def Step (txn : TxnSlots ρ α) (event : Event ρ α) (next : TxnSlots ρ α) : Prop :=
  txn.call event.1 = .ok (event.2, next)

variable {key : ρ → Nat} {keys : List Nat} {txn next : TxnSlots ρ α} {man man' : TxnMan ρ α}
  {trace : List (Event ρ α)}

omit [DecidableEq ρ] in
theorem Fits.hasRoom {call : Call ρ α} (fits : Fits key txn call) : HasRoom txn call := by
  cases call with
  | getRow rows row type blank =>
    intro missing
    exact fits.2 (fits.1 ▸ missing)
  | _ => trivial

omit [DecidableEq ρ] in
/-- A completed `get_row` on the list keeps the table exact. -/
theorem Tracked.getRow (tracked : Tracked key keys man) {rows : ρ → Row α} {row : ρ} {type : AccessT}
    {data : Option α} (same : (rows row).primaryKey = key row) (blank : α)
    (taken : man.getRow rows row type = some (data, man')) :
    Tracked key (access key keys (.getRow rows row type blank, .copy data)) man' := by
  obtain ⟨-, outcome⟩ := TxnMan.getRow_cases taken
  cases outcome with
  | hit found entry => exact (tracked.again (same ▸ found)).upgrade entry type
  | abort => exact tracked
  | copied missing =>
    rw [same] at missing ⊢
    exact tracked.record missing type _

/-- One call keeps the table exact, on the array and on the list. -/
theorem tracked_step (refines : Refines txn man) (tracked : Tracked key keys man) {event : Event ρ α}
    (fits : Fits key txn event.1) (taken : Step txn event next) :
    ∃ man', Refines next man' ∧ Tracked key (access key keys event) man' := by
  obtain ⟨call, reply⟩ := event
  have like := call_like refines fits.hasRoom
  rw [show txn.call call = .ok (reply, next) from taken] at like
  generalize listed : listCall man call = result at like
  cases like with
  | @ok _ result related =>
    obtain ⟨reply', man'⟩ := result
    obtain ⟨rfl, refines'⟩ : reply = reply' ∧ Refines next man' := related
    refine ⟨man', refines', ?_⟩
    cases call with
    | setStartTs startTs =>
      cases listed
      exact { tracked with }
    | getRow rows row type blank =>
      obtain ⟨⟨data, after⟩, got, same⟩ := Option.bind_eq_some_iff.mp listed
      cases same
      exact tracked.getRow fits.1 blank got
    | setLocal rid value =>
      cases listed
      exact tracked.setLocal rid value
    | insertRow row =>
      obtain ⟨after, inserted, same⟩ := Option.bind_eq_some_iff.mp listed
      cases same
      unfold TxnMan.insertRow at inserted
      split at inserted
      next =>
        cases inserted
        exact { tracked with }
      next => cases inserted
    | finish rows timestamp holder rc =>
      have emptied := call_empties rfl taken
      have rows : man'.accesses = [] := List.length_eq_zero_iff.mp (refines'.rowCnt.symm.trans emptied.rowCnt)
      exact .empty rows (refines'.wrCnt.symm.trans emptied.wrCnt) (refines'.recordPos.symm.trans emptied.recordPos)

theorem tracked_run {startTs endTs : Nat} (run : Run Step (Promised key) (init startTs endTs) trace txn) :
    ∃ man, Refines txn man ∧ Tracked key (accessed key trace) man := by
  refine run.invariant (fun trace txn => ∃ man, Refines txn man ∧ Tracked key (accessed key trace) man) ?_ ?_
  · let man : TxnMan ρ α := { TxnMan.init startTs with endTs := endTs }
    exact ⟨man.reset, (init_emptied startTs endTs).refines rfl rfl, .empty rfl rfl rfl⟩
  · rintro trace txn event next ⟨man, refines, tracked⟩ fits taken
    have snoc : accessed key (trace ++ [event]) = access key (accessed key trace) event := by
      simp [accessed, List.foldl_append]
    rw [snoc]
    exact tracked_step refines tracked fits taken

omit [DecidableEq ρ] in
theorem positions_of_tracked (refines : Refines txn man) (tracked : Tracked key keys man) :
    ∃ place : Nat → Nat, (∀ p, txn.recordPos p = if p ∈ keys then some (place p) else none) ∧
      Set.BijOn place {p | p ∈ keys} {i | i < txn.rowCnt} := by
  have length : (tableKeys key man).length = txn.rowCnt := by simp [tableKeys, refines.rowCnt]
  have position : ∀ p ∈ keys, ∃ i, man.recordPos p = some i := by
    intro p member
    obtain ⟨i, found⟩ := List.mem_iff_getElem?.mp ((tracked.accessed p).mp member)
    exact ⟨i, (tracked.indexed p i).mpr found⟩
  rw [refines.recordPos]
  refine ⟨fun p => (man.recordPos p).getD 0, ?_, ?_, ?_, ?_⟩
  · intro p
    split
    next member =>
      obtain ⟨i, found⟩ := position p member
      simp only [found, Option.getD_some]
    next absent =>
      cases found : man.recordPos p with
      | none => rfl
      | some i => exact absurd ((tracked.accessed p).mpr (List.mem_of_getElem? ((tracked.indexed p i).mp found))) absent
  · intro p member
    obtain ⟨i, found⟩ := position p member
    show (man.recordPos p).getD 0 < txn.rowCnt
    rw [found, Option.getD_some, refines.rowCnt]
    exact refines.places p i found
  · intro p member q member' same
    obtain ⟨i, found⟩ := position p member
    obtain ⟨j, found'⟩ := position q member'
    simp only [found, found', Option.getD_some] at same
    subst same
    have first := (tracked.indexed p i).mp found
    rw [(tracked.indexed q i).mp found'] at first
    exact (Option.some.inj first).symm
  · intro i below
    obtain ⟨p, found⟩ : ∃ p, (tableKeys key man)[i]? = some p :=
      ⟨_, List.getElem?_eq_getElem (length ▸ below)⟩
    refine ⟨p, (tracked.accessed p).mpr (List.mem_of_getElem? found), ?_⟩
    simp only [(tracked.indexed p i).mpr found, Option.getD_some]

omit [DecidableEq ρ] in
/-- The objects below `row_cnt` are those of the list. -/
theorem Refines.stored (refines : Refines txn man) :
    (List.range txn.rowCnt).map txn.accesses = man.accesses.map (fun acc => some (ofAccess acc)) := by
  apply List.ext_getElem (by simp [refines.rowCnt])
  intro i below below'
  rw [List.length_map] at below'
  simp only [List.getElem_map, List.getElem_range]
  exact refines.holds i _ below' (List.getElem?_eq_getElem below')

omit [DecidableEq ρ] in
theorem exact_of_tracked (refines : Refines txn man) (tracked : Tracked key keys man) : Exact key keys txn := by
  refine ⟨positions_of_tracked refines tracked, ?_, ?_, ?_⟩
  · intro p i found
    rw [refines.recordPos] at found
    obtain ⟨acc, entry⟩ := getElem?_of_lt (refines.places p i found)
    have own := (tracked.indexed p i).mp found
    simp only [tableKeys, List.getElem?_map, entry, Option.map_some, Option.some.injEq] at own
    exact ⟨ofAccess acc, acc.origRow, refines.holds i acc (lt_length entry) entry, rfl, own⟩
  · have writes := congrArg (List.countP (fun slot => slot.any (fun acc => acc.type = .WR))) refines.stored
    simp only [List.countP_map, Function.comp_def, Option.any_some] at writes
    rw [refines.wrCnt, tracked.counted, ← List.countP_eq_length_filter, writes, List.count, List.countP_map]
    refine List.countP_congr fun acc _ => ?_
    simp only [Function.comp_apply, ofAccess, beq_iff_eq]
    exact decide_eq_true_iff.symm
  · intro i below
    obtain ⟨acc, entry⟩ := getElem?_of_lt (refines.rowCnt ▸ below : i < man.accesses.length)
    exact ⟨ofAccess acc, acc.data, refines.holds i acc (lt_length entry) entry, rfl⟩

/-- Over every run of calls on one object, of any number of transactions: the table is exact, both
assertions of `get_rw_set` hold, a call that fits fails for its rows only (no entry or copy is `NULL`),
and right after a `finish` the object answers every list of calls as a new one does. -/
theorem access_table_exact {startTs endTs : Nat} (run : Run Step (Promised key) (init startTs endTs) trace txn) :
    Exact key (accessed key trace) txn ∧ (∃ sets, txn.getRwSet = .ok sets) ∧
    (∀ call fault, Fits key txn call → txn.call call = .error fault → fault = .incomplete) ∧
    ∀ front event, trace = front ++ [event] → event.1.ends = true →
      ∀ calls, replies txn calls = replies (init txn.startTs txn.endTs) calls := by
  obtain ⟨man, refines, tracked⟩ := tracked_run run
  refine ⟨exact_of_tracked refines tracked, refines.getRwSet tracked.counted, ?_, ?_⟩
  · intro call fault fits failed
    exact (call_like refines fits.hasRoom).excuse failed
  · rintro front event rfl ends calls
    obtain ⟨before, -, -, taken⟩ := run.last
    let man : TxnMan ρ α := { TxnMan.init txn.startTs with endTs := txn.endTs }
    have used : Refines txn man.reset := (call_empties ends taken).refines rfl rfl
    have fresh : Refines (init txn.startTs txn.endTs) man.reset := (init_emptied txn.startTs txn.endTs).refines rfl rfl
    exact replies_alike used fresh calls

theorem extend {first : TxnSlots ρ α} (run : Run Step (Promised key) first trace txn) (call : Call ρ α)
    (reply : Reply ρ α) (fits : Fits key txn call) (done : txn.call call = .ok (reply, next)) :
    Run Step (Promised key) first (trace ++ [(call, reply)]) next := .snoc run fits done

/-- Rows by their keys, last written at the given time. -/
def rowsAt (wts : Nat) (row : Nat) : Row Nat :=
  { tableName := [], primaryKey := row, data := 10 * row, manager := { latch := none, wts := wts }, live := true }

/-- A read, a failed access whose object the next one takes, an upgrade, a commit, and a transaction
on the objects left behind. -/
theorem access_table_exact_reused : ∃ (trace : List (Event Nat Nat)) (txn : TxnSlots Nat Nat),
    trace.length = 6 ∧ txn.numAccessesAlloc = 2 ∧ Exact id [3] txn := by
  have run : ∃ (trace : List (Event Nat Nat)) (txn : TxnSlots Nat Nat),
      Run Step (Promised id) (init 5 0) trace txn ∧ accessed id trace = [3] ∧
        trace.length = 6 ∧ txn.numAccessesAlloc = 2 := by
    have read := extend (.nil : Run Step (Promised id) (init 5 0) [] (init 5 0)) (.getRow (rowsAt 0) 1 .RD 7)
      (.copy (some 10)) ⟨rfl, fun _ => by decide⟩ rfl
    have failed := extend read (.getRow (rowsAt 9) 2 .WR 7) (.copy none) ⟨rfl, fun _ => by decide⟩ rfl
    have wrote := extend failed (.getRow (rowsAt 0) 2 .WR 7) (.copy (some 20)) ⟨rfl, fun _ => by decide⟩ rfl
    have raised := extend wrote (.getRow (rowsAt 0) 1 .WR 7) (.copy (some 10)) ⟨rfl, fun _ => by decide⟩ rfl
    have ended := extend raised (.finish (rowsAt 0) 6 1 .RCOK) (.ended .RCOK _ 7) trivial rfl
    have again := extend ended (.getRow (rowsAt 0) 3 .RD 7) (.copy (some 30)) ⟨rfl, fun _ => by decide⟩ rfl
    exact ⟨_, _, again, rfl, rfl, rfl⟩
  obtain ⟨trace, txn, run, keys, length, allocated⟩ := run
  exact ⟨trace, txn, length, allocated, keys ▸ (access_table_exact run).1⟩

end Runs

end DataAgentDB.Storage.TxnSlots
