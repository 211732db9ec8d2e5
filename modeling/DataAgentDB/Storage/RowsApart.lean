import DataAgentDB.Storage.Finish
import Mathlib.Data.Finset.Card
import Mathlib.Data.Finset.Dedup
import Mathlib.Data.List.Induction

/-! The rows that one transaction requests, each with a local copy of its own: calls of `get_row`, writes
to the copies, and the commit, while other transactions commit to other rows. -/

namespace DataAgentDB.Storage.RowsApart
open TxnMan

/-- What happens while the transaction runs: a `get_row`, a write to the copy that one handed out for the
row, or the commits of others, by the rows they leave. -/
inductive Op (ρ α : Type) where
  | get (row : ρ) (type : AccessT)
  | set (row : ρ) (value : α → α)
  | others (rows : ρ → Row α)

structure State (ρ α : Type) where
  rows : ρ → Row α
  txn : TxnMan ρ α

section
variable {ρ α : Type}

def Op.run (s : State ρ α) : Op ρ α → Option (State ρ α)
  | .get row type =>
      match s.txn.getRow s.rows row type with
      | some (some _, txn) => some { s with txn := txn }
      | _ => none
  | .set row value => some { s with txn := s.txn.setLocal (s.rows row).primaryKey value }
  | .others rows => some { s with rows := rows }

def run (s : State ρ α) (ops : List (Op ρ α)) : Option (State ρ α) := ops.foldlM Op.run s

def start (rows : ρ → Row α) (startTs : Nat) : State ρ α := { rows := rows, txn := TxnMan.init startTs }

def Op.requested? : Op ρ α → Option ρ
  | .get row _ => some row
  | _ => none

def requested (ops : List (Op ρ α)) : List ρ := ops.filterMap Op.requested?

variable [DecidableEq ρ]

def Op.type? (row : ρ) : Op ρ α → Option AccessT
  | .get row' type => if row' = row then some type else none
  | _ => none

/-- The types with which the row is requested. -/
def types (row : ρ) (ops : List (Op ρ α)) : List AccessT := ops.filterMap (Op.type? row)

def Op.own (row : ρ) (data : α) : Op ρ α → α
  | .set row' value => if row' = row then value data else data
  | _ => data

/-- The contents of the row as the transaction's writes to it change them. -/
def own (row : ρ) (ops : List (Op ρ α)) (data : α) : α := ops.foldl (Op.own row) data

/-- The `get_row` hands out these contents, and the entry they are in is the row's. -/
structure Handed (rows : ρ → Row α) (txn next : TxnMan ρ α) (row : ρ) (type : AccessT) (contents : α) : Prop where
  taken : txn.getRow rows row type = some (some contents, next)
  entry : ∃ (pos : Nat) (acc : Access ρ α), next.recordPos (rows row).primaryKey = some pos ∧
    next.accesses[pos]? = some acc ∧ acc.origRow = row ∧ acc.data = contents

/-- No conflicting commits: the requested rows are live, free and no newer than the transaction, and the
commits of others leave them as they are. -/
structure Undisturbed (rows : ρ → Row α) (startTs : Nat) (ops : List (Op ρ α)) : Prop where
  live : ∀ row ∈ requested ops, (rows row).live = true
  free : ∀ row ∈ requested ops, (rows row).manager.latch = none
  current : ∀ row ∈ requested ops, (rows row).manager.wts ≤ startTs
  others : ∀ (rows' : ρ → Row α), .others rows' ∈ ops → ∀ row ∈ requested ops, rows' row = rows row
  handed : ∀ (front back : List (Op ρ α)) (row : ρ) (value : α → α), ops = front ++ .set row value :: back →
    row ∈ requested front

/-- Each call hands out the row's own copy, and the commit writes the copies of the rows requested with
`WR` back to them. -/
structure KeepsApart (rows : ρ → Row α) (startTs timestamp holder : Nat) (ops : List (Op ρ α)) : Prop where
  calls : ∀ (front back : List (Op ρ α)) (row : ρ) (type : AccessT), ops = front ++ .get row type :: back →
    ∃ s next, run (start rows startTs) front = some s ∧
      Handed s.rows s.txn next row type (own row front (rows row).data)
  commit : ∃ s after next txn, run (start rows startTs) ops = some s ∧
    s.txn.finish s.rows timestamp holder .RCOK = some (.RCOK, after, next, txn) ∧
      ∀ row, (.WR ∈ types row ops → after row = (s.rows row).write (own row ops (rows row).data) timestamp) ∧
        (.WR ∉ types row ops → after row = s.rows row)

/-- The requested rows fit the access table, each under a primary key of its own. -/
structure Spaced (rows : ρ → Row α) (ops : List (Op ρ α)) : Prop where
  keys : ∀ row ∈ requested ops, ∀ other ∈ requested ops,
    (rows row).primaryKey = (rows other).primaryKey → row = other
  room : (requested ops).toFinset.card ≤ MAX_ROW_PER_TXN

/-- A row requested with `WR` was first requested with `RD` or `WR`. -/
def Upgradable (ops : List (Op ρ α)) : Prop :=
  ∀ row, .WR ∈ types row ops → (types row ops).head? = some .RD ∨ (types row ops).head? = some .WR

/-- The type of the row's entry. -/
def entered : List AccessT → Option AccessT
  | [] => none
  | type :: rest => some (if type = .RD ∧ .WR ∈ rest then .WR else type)

variable {rows store : ρ → Row α} {startTs : Nat} {front back ops : List (Op ρ α)} {op : Op ρ α} {row other : ρ}
  {type : AccessT} {value : α → α} {txn next : TxnMan ρ α} {s : State ρ α} {contents : α}

omit [DecidableEq ρ] in
theorem requested_append (front back : List (Op ρ α)) : requested (front ++ back) = requested front ++ requested back :=
  List.filterMap_append

theorem types_append (front back : List (Op ρ α)) : types row (front ++ back) = types row front ++ types row back :=
  List.filterMap_append

theorem types_get_self (row : ρ) (type : AccessT) : types row [(.get row type : Op ρ α)] = [type] := by
  simp [types, Op.type?]

theorem types_get_of_ne (apart : row ≠ other) (type : AccessT) : types other [(.get row type : Op ρ α)] = [] := by
  simp [types, Op.type?, apart]

theorem types_ne_nil_iff : types row ops ≠ [] ↔ row ∈ requested ops := by
  induction ops with
  | nil => simp [types, requested]
  | cons op ops ih =>
    cases op with
    | get row' type =>
      by_cases same : row' = row
      · simp [types, requested, Op.type?, Op.requested?, same]
      · have apart : row ≠ row' := Ne.symm same
        simpa [types, requested, Op.type?, Op.requested?, same, apart] using ih
    | set row' value => simpa [types, requested, Op.type?, Op.requested?] using ih
    | others rows' => simpa [types, requested, Op.type?, Op.requested?] using ih

omit [DecidableEq ρ] in
theorem requested_snoc_of_none (ungot : op.requested? = none) : requested (front ++ [op]) = requested front := by
  rw [requested_append, requested, requested, List.filterMap_cons_none ungot, List.filterMap_nil, List.append_nil]

theorem types_snoc_of_none (ungot : op.requested? = none) : types row (front ++ [op]) = types row front := by
  cases op with
  | get row' type => cases ungot
  | set row' value =>
    rw [types_append]
    exact List.append_nil _
  | others rows' =>
    rw [types_append]
    exact List.append_nil _

omit [DecidableEq ρ] in
theorem mem_requested_get (front back : List (Op ρ α)) (row : ρ) (type : AccessT) :
    row ∈ requested (front ++ .get row type :: back) := by
  rw [requested_append]
  exact List.mem_append_right _ List.mem_cons_self

theorem own_append (front back : List (Op ρ α)) (data : α) :
    own row (front ++ back) data = own row back (own row front data) := List.foldl_append

theorem entered_snoc (kinds : List AccessT) (type : AccessT) : entered (kinds ++ [type]) =
    some (match entered kinds with
      | none => type
      | some kind => if kind = .RD ∧ type = .WR then .WR else kind) := by
  cases kinds with
  | nil => simp [entered]
  | cons kind kinds =>
    rw [List.cons_append, entered, entered]
    by_cases written : AccessT.WR ∈ kinds <;> cases kind <;> cases type <;> simp [written]

theorem entered_eq_WR_iff (kinds : List AccessT) : entered kinds = some .WR ↔
    .WR ∈ kinds ∧ (kinds.head? = some .RD ∨ kinds.head? = some .WR) := by
  cases kinds with
  | nil => simp [entered]
  | cons kind kinds => cases kind <;> simp [entered]

/-- Each requested row has one entry, found under its primary key, with its own contents and type. -/
structure Kept (rows : ρ → Row α) (front : List (Op ρ α)) (txn : TxnMan ρ α) : Prop where
  nodup : (txn.accesses.map Access.origRow).Nodup
  member : ∀ row, row ∈ txn.accesses.map Access.origRow ↔ row ∈ requested front
  entry : ∀ (pos : Nat) (acc : Access ρ α), txn.accesses[pos]? = some acc →
    txn.recordPos (rows acc.origRow).primaryKey = some pos ∧
      acc.data = own acc.origRow front (rows acc.origRow).data ∧ entered (types acc.origRow front) = some acc.type
  recorded : ∀ (rid pos : Nat), txn.recordPos rid = some pos → ∃ acc : Access ρ α,
    txn.accesses[pos]? = some acc ∧ (rows acc.origRow).primaryKey = rid

theorem Kept.init (rows : ρ → Row α) (startTs : Nat) : Kept rows [] (TxnMan.init startTs) :=
  ⟨List.nodup_nil, fun _ => Iff.rfl, nofun, nofun⟩

theorem Kept.entry_of_requested (kept : Kept rows front txn) (listed : row ∈ requested front) :
    ∃ pos acc, txn.recordPos (rows row).primaryKey = some pos ∧ txn.accesses[pos]? = some acc ∧ acc.origRow = row := by
  obtain ⟨acc, member, rfl⟩ := List.mem_map.mp ((kept.member row).mpr listed)
  obtain ⟨pos, found⟩ := List.mem_iff_getElem?.mp member
  exact ⟨pos, acc, (kept.entry pos acc found).1, found, rfl⟩

theorem Kept.rowCnt_eq (kept : Kept rows front txn) : txn.rowCnt = (requested front).toFinset.card := by
  have same : (txn.accesses.map Access.origRow).toFinset = (requested front).toFinset := by
    ext row
    rw [List.mem_toFinset, List.mem_toFinset]
    exact kept.member row
  rw [← same, List.toFinset_card_of_nodup kept.nodup, List.length_map]
  rfl

/-- An operation on the entry of one row. -/
theorem Kept.modify (kept : Kept rows front txn) {pos : Nat} {acc : Access ρ α} {change : Access ρ α → Access ρ α}
    (found : txn.accesses[pos]? = some acc) (accesses : next.accesses = txn.accesses.modify pos change)
    (names : next.accesses.map Access.origRow = txn.accesses.map Access.origRow)
    (positions : next.recordPos = txn.recordPos)
    (asked : ∀ row, row ∈ requested (front ++ [op]) ↔ row ∈ requested front)
    (orig : (change acc).origRow = acc.origRow)
    (data : (change acc).data = own acc.origRow (front ++ [op]) (rows acc.origRow).data)
    (kind : entered (types acc.origRow (front ++ [op])) = some (change acc).type)
    (others : ∀ other, other ≠ acc.origRow → types other (front ++ [op]) = types other front ∧
      ∀ data, own other (front ++ [op]) data = own other front data) : Kept rows (front ++ [op]) next := by
  have place : ∀ (j : Nat) (b : Access ρ α), next.accesses[j]? = some b →
      j = pos ∧ b = change acc ∨ txn.accesses[j]? = some b ∧ b.origRow ≠ acc.origRow := by
    intro j b there
    rw [accesses, List.getElem?_modify] at there
    by_cases here : pos = j
    · subst here
      rw [found] at there
      simp only [if_true, Option.map_eq_map, Option.map_some, Option.some.injEq] at there
      exact .inl ⟨rfl, there.symm⟩
    · simp only [if_neg here, Option.map_eq_map, Option.map_id'] at there
      refine .inr ⟨there, fun same => here ?_⟩
      have first := (kept.entry j b there).1
      rw [same, (kept.entry pos acc found).1] at first
      exact Option.some.inj first
  constructor
  case nodup =>
    rw [names]
    exact kept.nodup
  case member =>
    intro row
    rw [names, asked row]
    exact kept.member row
  case entry =>
    intro j b there
    rw [positions]
    rcases place j b there with ⟨rfl, rfl⟩ | ⟨before, apart⟩
    · rw [orig]
      exact ⟨(kept.entry j acc found).1, data, kind⟩
    · obtain ⟨listed, contents, type⟩ := kept.entry j b before
      obtain ⟨sameTypes, sameOwn⟩ := others b.origRow apart
      exact ⟨listed, by rw [sameOwn]; exact contents, by rw [sameTypes]; exact type⟩
  case recorded =>
    intro rid j listed
    rw [positions] at listed
    obtain ⟨b, there, key⟩ := kept.recorded rid j listed
    by_cases here : pos = j
    · subst here
      cases found.symm.trans there
      refine ⟨change acc, ?_, by rw [orig]; exact key⟩
      rw [accesses, List.getElem?_modify, found]
      simp
    · refine ⟨b, ?_, key⟩
      rw [accesses, List.getElem?_modify, there]
      simp [here]

omit [DecidableEq ρ] in
theorem requested_get (front : List (Op ρ α)) (row : ρ) (type : AccessT) :
    requested (front ++ [.get row type]) = requested front ++ [row] := by
  rw [requested_append]
  rfl

/-- A further call on a requested row finds the row's entry. -/
theorem Kept.hit (kept : Kept rows front txn) (same : store row = rows row) (live : (rows row).live = true)
    (listed : row ∈ requested front) (type : AccessT) : ∃ next,
      Handed store txn next row type (own row front (rows row).data) ∧ Kept rows (front ++ [.get row type]) next := by
  obtain ⟨pos, acc, position, found, rfl⟩ := kept.entry_of_requested listed
  obtain ⟨-, data, kind⟩ := kept.entry pos acc found
  have taken : txn.getRow store acc.origRow type = some (some acc.data, txn.upgrade pos acc type) := by
    simp only [getRow, same, live, if_true, position, found]
  have place : (txn.upgrade pos acc type).accesses[pos]? =
      some { acc with type := if acc.type = .RD ∧ type = .WR then .WR else acc.type } := by
    rw [upgrade_accesses type found, List.getElem?_modify, found]
    simp
  refine ⟨txn.upgrade pos acc type, ⟨?_, pos, _, ?_, place, rfl, data⟩, ?_⟩
  · rw [taken, data]
  · rw [upgrade_recordPos, same]
    exact position
  · refine kept.modify found (upgrade_accesses type found) (upgrade_rows txn found type) (upgrade_recordPos _ _ _ _)
      (fun other => ?_) rfl ?_ ?_ (fun other apart => ⟨?_, fun data => ?_⟩)
    · rw [requested_get, List.mem_append, List.mem_singleton]
      exact ⟨fun either => either.elim id (fun here => here ▸ listed), .inl⟩
    · rw [own_append, ← data]
      rfl
    · rw [types_append, types_get_self, entered_snoc, kind]
    · rw [types_append, types_get_of_ne (Ne.symm apart), List.append_nil]
    · rw [own_append]
      rfl

/-- A primary key that no requested row has is not in the table. -/
theorem Kept.missing (kept : Kept rows front txn) (apart : ∀ other ∈ requested front,
    (rows row).primaryKey ≠ (rows other).primaryKey) : txn.recordPos (rows row).primaryKey = none := by
  by_contra present
  obtain ⟨pos, position⟩ := Option.ne_none_iff_exists'.mp present
  obtain ⟨acc, found, key⟩ := kept.recorded _ _ position
  have member := (kept.member acc.origRow).mp (List.mem_map_of_mem (List.mem_of_getElem? found))
  exact apart acc.origRow member key.symm

/-- A first call on a row whose primary key no other requested row has. -/
theorem Kept.fresh (kept : Kept rows front txn) (same : store row = rows row) (live : (rows row).live = true)
    (free : (rows row).manager.latch = none) (current : (rows row).manager.wts ≤ txn.startTs)
    (apart : ∀ other ∈ requested front, (rows row).primaryKey ≠ (rows other).primaryKey)
    (room : txn.rowCnt < MAX_ROW_PER_TXN) (unwritten : own row front (rows row).data = (rows row).data)
    (type : AccessT) : ∃ next,
      Handed store txn next row type (own row front (rows row).data) ∧ Kept rows (front ++ [.get row type]) next := by
  have unlisted : row ∉ requested front := fun listed => apart row listed rfl
  have missing := kept.missing apart
  have taken : txn.getRow store row type =
      some (some (rows row).data, txn.record (rows row).primaryKey row type (rows row).data) := by
    have outcome : (rows row).access txn.startTs = some (some (rows row).data) :=
      Row.access_copy.mpr ⟨free, current, rfl⟩
    simp only [getRow, same, live, if_true, missing, room, outcome]
  have sole : types row front = [] := by
    by_contra nonempty
    exact unlisted (types_ne_nil_iff.mp nonempty)
  have place : ∀ (j : Nat) (b : Access ρ α), (txn.accesses ++ [⟨type, row, (rows row).data⟩])[j]? = some b →
      j = txn.rowCnt ∧ b = ⟨type, row, (rows row).data⟩ ∨ txn.accesses[j]? = some b ∧ b.origRow ≠ row := by
    intro j b there
    rcases Nat.lt_trichotomy j txn.accesses.length with before | rfl | after
    · rw [List.getElem?_append_left before] at there
      refine .inr ⟨there, fun equal => unlisted ?_⟩
      rw [← equal, ← kept.member b.origRow]
      exact List.mem_map_of_mem (List.mem_of_getElem? there)
    · rw [List.getElem?_concat_length] at there
      exact .inl ⟨rfl, (Option.some.inj there).symm⟩
    · rw [List.getElem?_eq_none (by rw [List.length_append, List.length_singleton]; omega)] at there
      cases there
  refine ⟨_, ⟨by rw [taken, unwritten], txn.rowCnt, ⟨type, row, (rows row).data⟩, ?_, ?_, rfl, unwritten.symm⟩, ?_⟩
  · rw [same, record_recordPos, Function.update_self]
  · rw [record_accesses]
    exact List.getElem?_concat_length
  · constructor
    case nodup =>
      rw [record_accesses, List.map_append]
      refine List.Nodup.append kept.nodup (List.nodup_singleton _) ?_
      rintro other member there
      cases List.mem_singleton.mp there
      exact unlisted ((kept.member row).mp member)
    case member =>
      intro other
      rw [record_accesses, List.map_append, requested_get, List.mem_append, List.mem_append, kept.member other]
      rfl
    case entry =>
      intro j b there
      rcases place j b there with ⟨rfl, rfl⟩ | ⟨before, other⟩
      · refine ⟨by rw [record_recordPos, Function.update_self], ?_, ?_⟩
        · rw [own_append, unwritten]
          rfl
        · rw [types_append, sole, types_get_self]
          simp [entered]
      · obtain ⟨listed, contents, kind⟩ := kept.entry j b before
        have member := (kept.member b.origRow).mp (List.mem_map_of_mem (List.mem_of_getElem? before))
        refine ⟨?_, ?_, ?_⟩
        · rw [record_recordPos, Function.update_of_ne (apart _ member).symm]
          exact listed
        · rw [own_append]
          exact contents
        · rw [types_append, types_get_of_ne (Ne.symm other), List.append_nil]
          exact kind
    case recorded =>
      intro rid j listed
      rw [record_recordPos] at listed
      by_cases here : rid = (rows row).primaryKey
      · subst here
        rw [Function.update_self] at listed
        cases listed
        exact ⟨_, List.getElem?_concat_length, rfl⟩
      · rw [Function.update_of_ne here] at listed
        obtain ⟨b, before, key⟩ := kept.recorded rid j listed
        refine ⟨b, ?_, key⟩
        rw [record_accesses, List.getElem?_append_left (List.getElem?_eq_some_iff.mp before).1]
        exact before

/-- A write to the copy of a requested row. -/
theorem Kept.set (kept : Kept rows front txn) (same : store row = rows row) (listed : row ∈ requested front)
    (value : α → α) : Kept rows (front ++ [.set row value]) (txn.setLocal (store row).primaryKey value) := by
  obtain ⟨pos, acc, position, found, rfl⟩ := kept.entry_of_requested listed
  obtain ⟨-, data, kind⟩ := kept.entry pos acc found
  have accesses : (txn.setLocal (store acc.origRow).primaryKey value).accesses =
      txn.accesses.modify pos (fun acc => { acc with data := value acc.data }) := by
    rw [setLocal, same, position]
  refine kept.modify found accesses (setLocal_rows _ _ _) (setLocal_recordPos _ _ _) (fun other => ?_) rfl ?_ ?_
    (fun other apart => ⟨types_snoc_of_none rfl, fun data => ?_⟩)
  · rw [requested_snoc_of_none rfl]
  · rw [own_append, ← data]
    simp [own, Op.own]
  · rw [types_snoc_of_none rfl]
    exact kind
  · rw [own_append]
    simp [own, Op.own, Ne.symm apart]

theorem Kept.others (kept : Kept rows front txn) (rows' : ρ → Row α) : Kept rows (front ++ [.others rows']) txn := by
  constructor
  case nodup =>
    exact kept.nodup
  case member =>
    rw [requested_snoc_of_none rfl]
    exact kept.member
  case entry =>
    intro pos acc found
    rw [types_snoc_of_none rfl, own_append]
    exact kept.entry pos acc found
  case recorded =>
    exact kept.recorded

omit [DecidableEq ρ] in
theorem Handed.sameStart (handed : Handed store txn next row type contents) : next.startTs = txn.startTs := by
  obtain ⟨-, did⟩ := getRow_cases handed.taken
  cases did with
  | hit found entry => exact upgrade_startTs _ _ _ _
  | copied => rfl

theorem spaced_get_iff : Spaced rows (front ++ [.get row type]) ↔ Spaced rows front ∧
    (∀ other ∈ requested front, (rows row).primaryKey = (rows other).primaryKey → row = other) ∧
      (row ∈ requested front ∨ (requested front).toFinset.card < MAX_ROW_PER_TXN) := by
  have within : ∀ other ∈ requested front, other ∈ requested front ++ [row] :=
    fun other member => List.mem_append_left _ member
  have last : row ∈ requested front ++ [row] := List.mem_append_right _ List.mem_cons_self
  have grown : (requested front ++ [row]).toFinset = insert row (requested front).toFinset := by
    ext other
    simp
  constructor
  · rintro ⟨keys, room⟩
    rw [requested_get] at keys room
    rw [grown] at room
    refine ⟨⟨fun one first two second => keys one (within one first) two (within two second), ?_⟩,
      fun other member => keys row last other (within other member), ?_⟩
    · exact Nat.le_trans (Finset.card_le_card (Finset.subset_insert _ _)) room
    · by_cases listed : row ∈ requested front
      · exact .inl listed
      · rw [Finset.card_insert_of_notMem (mt List.mem_toFinset.mp listed)] at room
        exact .inr room
  · rintro ⟨⟨keys, room⟩, apart, more⟩
    constructor
    · rw [requested_get]
      intro one first two second same
      rcases List.mem_append.mp first with first | first <;> rcases List.mem_append.mp second with second | second
      · exact keys one first two second same
      · cases List.mem_singleton.mp second
        exact (apart one first same.symm).symm
      · cases List.mem_singleton.mp first
        exact apart two second same
      · exact (List.mem_singleton.mp first).trans (List.mem_singleton.mp second).symm
    · rw [requested_get, grown]
      rcases more with listed | less
      · rwa [Finset.insert_eq_of_mem (List.mem_toFinset.mpr listed)]
      · exact Nat.le_trans (Finset.card_insert_le _ _) less

theorem own_of_fresh (handed : ∀ (f b : List (Op ρ α)) (row : ρ) (value : α → α), front = f ++ .set row value :: b →
    row ∈ requested f) (fresh : row ∉ requested front) (data : α) : own row front data = data := by
  induction front using List.reverseRecOn with
  | nil => rfl
  | append_singleton front op ih =>
    rw [requested_append, List.mem_append, not_or] at fresh
    have before := ih (fun f b row value split => handed f (b ++ [op]) row value (by rw [split]; simp)) fresh.1
    rw [own_append, before]
    cases op with
    | get row' type => rfl
    | others rows' => rfl
    | set row' value =>
      have apart : row' ≠ row := fun same => fresh.1 (same ▸ handed front [] row' value rfl)
      simp [own, Op.own, apart]

/-- The state that the first operations lead to, before the others. -/
structure Reached (rows : ρ → Row α) (startTs : Nat) (front back : List (Op ρ α)) (s : State ρ α) : Prop where
  ran : run (start rows startTs) front = some s
  startTs : s.txn.startTs = startTs
  same : ∀ row ∈ requested (front ++ back), s.rows row = rows row
  kept : Kept rows front s.txn

omit [DecidableEq ρ] in
theorem run_snoc (ran : run (start rows startTs) front = some s) (op : Op ρ α) :
    run (start rows startTs) (front ++ [op]) = op.run s := by
  rw [run, List.foldlM_append, ← run, ran]
  simp

theorem Reached.handed (reached : Reached rows startTs front (.get row type :: back) s)
    (undisturbed : Undisturbed rows startTs (front ++ .get row type :: back))
    (spaced : Spaced rows (front ++ [.get row type])) : ∃ next,
      Handed s.rows s.txn next row type (own row front (rows row).data) ∧ Kept rows (front ++ [.get row type]) next := by
  obtain ⟨-, apart, room⟩ := spaced_get_iff.mp spaced
  have asked := mem_requested_get front back row type
  have same := reached.same row asked
  have live := undisturbed.live row asked
  by_cases listed : row ∈ requested front
  · exact reached.kept.hit same live listed type
  · refine reached.kept.fresh same live (undisturbed.free row asked) ?_ ?_ ?_ ?_ type
    · rw [reached.startTs]
      exact undisturbed.current row asked
    · exact fun other member equal => listed (apart other member equal ▸ member)
    · rw [reached.kept.rowCnt_eq]
      exact room.resolve_left listed
    · exact own_of_fresh (fun f b row' value split => undisturbed.handed f (b ++ .get row type :: back) row' value
        (by rw [split]; simp)) listed _

/-- A call that hands out the row's own entry finds no other requested row under its primary key, and
room for the row. -/
theorem Reached.spaced (reached : Reached rows startTs front (.get row type :: back) s) (before : Spaced rows front)
    (handed : Handed s.rows s.txn next row type contents) : Spaced rows (front ++ [.get row type]) := by
  have asked := mem_requested_get front back row type
  have same := reached.same row asked
  obtain ⟨pos, acc, position, found, orig, -⟩ := handed.entry
  rw [same] at position
  have apart : ∀ other ∈ requested front, (rows row).primaryKey = (rows other).primaryKey → row = other := by
    intro other member equal
    obtain ⟨pos', acc', position', found', orig'⟩ := reached.kept.entry_of_requested member
    rw [← equal] at position'
    obtain ⟨-, did⟩ := getRow_cases handed.taken
    cases did with
    | hit listed entry =>
      rw [same, position'] at listed
      cases listed
      cases found'.symm.trans entry
      rw [upgrade_recordPos, position'] at position
      cases position
      have names := congrArg (fun list => list[pos]?) (upgrade_rows s.txn found' type)
      simp only [List.getElem?_map, found, found', Option.map_some, orig, orig', Option.some.injEq] at names
      exact names
    | copied missing =>
      rw [same, position'] at missing
      cases missing
  refine spaced_get_iff.mpr ⟨before, apart, ?_⟩
  obtain ⟨-, did⟩ := getRow_cases handed.taken
  cases did with
  | hit listed entry =>
    rw [same] at listed
    obtain ⟨acc', found', key⟩ := reached.kept.recorded _ _ listed
    have member := (reached.kept.member acc'.origRow).mp (List.mem_map_of_mem (List.mem_of_getElem? found'))
    exact .inl (apart acc'.origRow member key.symm ▸ member)
  | copied missing room =>
    rw [reached.kept.rowCnt_eq] at room
    exact .inr room

theorem Spaced.before (spaced : Spaced rows (front ++ back)) : Spaced rows front := by
  obtain ⟨keys, room⟩ := spaced
  rw [requested_append] at keys room
  refine ⟨fun row first other second => ?_, Nat.le_trans (Finset.card_le_card ?_) room⟩
  · exact keys row (List.mem_append_left _ first) other (List.mem_append_left _ second)
  · rw [List.toFinset_append]
    exact Finset.subset_union_left

/-- The operations run through while the requested rows fit the table. -/
theorem reaches (undisturbed : Undisturbed rows startTs (front ++ back)) (spaced : Spaced rows front) :
    ∃ s, Reached rows startTs front back s := by
  induction front using List.reverseRecOn generalizing back with
  | nil => exact ⟨start rows startTs, rfl, rfl, fun _ _ => rfl, Kept.init rows startTs⟩
  | append_singleton front op ih =>
    rw [List.append_assoc, List.singleton_append] at undisturbed
    obtain ⟨s, reached⟩ := ih undisturbed spaced.before
    have snoc := run_snoc reached.ran op
    have asked : requested (front ++ op :: back) = requested (front ++ [op] ++ back) := by simp
    cases op with
    | get row type =>
      obtain ⟨next, handed, kept⟩ := reached.handed undisturbed spaced
      refine ⟨{ s with txn := next }, ?_, handed.sameStart.trans reached.startTs, ?_, kept⟩
      · rw [snoc, Op.run, handed.taken]
      · rw [← asked]
        exact reached.same
    | set row value =>
      have listed := undisturbed.handed front back row value rfl
      have member : row ∈ requested (front ++ .set row value :: back) := by
        rw [requested_append]
        exact List.mem_append_left _ listed
      refine ⟨_, snoc, (setLocal_startTs _ _ _).trans reached.startTs, ?_, ?_⟩
      · rw [← asked]
        exact reached.same
      · exact reached.kept.set (reached.same row member) listed value
    | others rows' =>
      refine ⟨_, snoc, reached.startTs, ?_, reached.kept.others rows'⟩
      rw [← asked]
      exact undisturbed.others rows' (List.mem_append_right _ List.mem_cons_self)

/-- The commit writes back the copies whose entries have the type `WR`. -/
theorem Reached.commits (reached : Reached rows startTs ops [] s) (undisturbed : Undisturbed rows startTs ops)
    {timestamp : Nat} (early : startTs < timestamp) (holder : Nat) : ∃ after next txn,
      s.txn.finish s.rows timestamp holder .RCOK = some (.RCOK, after, next, txn) ∧ ∀ row,
        (entered (types row ops) = some .WR →
          after row = (s.rows row).write (own row ops (rows row).data) timestamp) ∧
        (entered (types row ops) ≠ some .WR → after row = s.rows row) := by
  obtain ⟨-, startTs', same, kept⟩ := reached
  rw [List.append_nil] at same
  have asked : ∀ acc ∈ s.txn.accesses, acc.origRow ∈ requested ops :=
    fun acc member => (kept.member acc.origRow).mp (List.mem_map_of_mem member)
  have live : ∀ acc ∈ s.txn.accesses, (s.rows acc.origRow).live = true := by
    intro acc member
    rw [same _ (asked acc member)]
    exact undisturbed.live _ (asked acc member)
  have free : ∀ acc ∈ s.txn.accesses, (s.rows acc.origRow).manager.latch = none := by
    intro acc member
    rw [same _ (asked acc member)]
    exact undisturbed.free _ (asked acc member)
  have current : ∀ acc ∈ s.txn.accesses, (s.rows acc.origRow).manager.wts ≤ s.txn.startTs := by
    intro acc member
    rw [same _ (asked acc member), startTs']
    exact undisturbed.current _ (asked acc member)
  have past : ∀ acc ∈ s.txn.accesses, (s.rows acc.origRow).manager.wts < timestamp := by
    intro acc member
    exact Nat.lt_of_le_of_lt (current acc member) (startTs' ▸ early)
  obtain ⟨txn, finished⟩ := finish_commits holder free past kept.nodup live current
  have kind : ∀ acc ∈ s.txn.accesses, acc.data = own acc.origRow ops (rows acc.origRow).data ∧
      entered (types acc.origRow ops) = some acc.type := by
    intro acc member
    obtain ⟨pos, found⟩ := List.mem_iff_getElem?.mp member
    exact (kept.entry pos acc found).2
  refine ⟨_, _, txn, finished, fun row => ?_⟩
  rcases wroteBack_cases kept.nodup s.rows timestamp row with ⟨acc, member, rfl, written, wrote⟩ | ⟨unwritten, kept'⟩
  · obtain ⟨data, type⟩ := kind acc member
    rw [written] at type
    refine ⟨fun _ => ?_, fun other => absurd type other⟩
    rw [wrote, data]
  · refine ⟨fun written => ?_, fun _ => kept'⟩
    have listed : row ∈ requested ops := by
      rw [← types_ne_nil_iff]
      intro none
      rw [none] at written
      cases written
    obtain ⟨acc, member, rfl⟩ := List.mem_map.mp ((kept.member row).mpr listed)
    have type := (kind acc member).2.symm.trans written
    exact absurd (Option.some.inj type) (unwritten acc member rfl)

theorem spaced_of_calls (undisturbed : Undisturbed rows startTs ops)
    (calls : ∀ (front back : List (Op ρ α)) (row : ρ) (type : AccessT), ops = front ++ .get row type :: back →
      ∃ s next, run (start rows startTs) front = some s ∧
        Handed s.rows s.txn next row type (own row front (rows row).data))
    (split : ops = front ++ back) : Spaced rows front := by
  induction front using List.reverseRecOn generalizing back with
  | nil => exact ⟨nofun, Nat.zero_le _⟩
  | append_singleton front op ih =>
    rw [List.append_assoc, List.singleton_append] at split
    have before := ih split
    have unasked : op.requested? = none → Spaced rows (front ++ [op]) := by
      intro ungot
      obtain ⟨keys, room⟩ := before
      constructor <;> rwa [requested_snoc_of_none ungot]
    cases op with
    | get row type =>
      obtain ⟨s, next, ran, handed⟩ := calls front back row type split
      subst split
      obtain ⟨s', reached⟩ := reaches undisturbed before
      cases ran.symm.trans reached.ran
      exact reached.spaced before handed
    | set row value => exact unasked rfl
    | others rows' => exact unasked rfl

/-- The workspace keeps the rows apart exactly when no two of the requested rows share their primary key,
they fit the access table, and none requested with `WR` was first requested as neither read nor written. -/
theorem keepsApart_iff (rows : ρ → Row α) (startTs timestamp holder : Nat) (ops : List (Op ρ α))
    (undisturbed : Undisturbed rows startTs ops) (early : startTs < timestamp) :
    KeepsApart rows startTs timestamp holder ops ↔ Spaced rows ops ∧ Upgradable ops := by
  constructor
  · rintro ⟨calls, s, after, next, txn, ran, finished, written⟩
    have spaced : Spaced rows ops := spaced_of_calls undisturbed calls (List.append_nil ops).symm
    refine ⟨spaced, fun row asked => ?_⟩
    rw [← List.append_nil ops] at undisturbed
    obtain ⟨s', reached⟩ := reaches undisturbed spaced
    rw [List.append_nil] at undisturbed
    cases ran.symm.trans reached.ran
    obtain ⟨after', next', txn', finished', kinds⟩ := reached.commits undisturbed early holder
    cases finished.symm.trans finished'
    by_cases kind : entered (types row ops) = some .WR
    · exact ((entered_eq_WR_iff _).mp kind).2
    · have listed : row ∈ requested ops := types_ne_nil_iff.mp (List.ne_nil_of_mem asked)
      have same := ((written row).1 asked).symm.trans ((kinds row).2 kind)
      have stamp : timestamp = (s.rows row).manager.wts := congrArg (fun row => row.manager.wts) same
      have current := undisturbed.current row listed
      rw [reached.same row (by rw [List.append_nil]; exact listed)] at stamp
      omega
  · rintro ⟨spaced, upgradable⟩
    constructor
    · rintro front back row type rfl
      have spaced' : Spaced rows (front ++ [.get row type]) := by
        have split : front ++ .get row type :: back = front ++ [.get row type] ++ back := by simp
        rw [split] at spaced
        exact spaced.before
      obtain ⟨s, reached⟩ := reaches undisturbed spaced.before
      obtain ⟨next, handed, -⟩ := reached.handed undisturbed spaced'
      exact ⟨s, next, reached.ran, handed⟩
    · rw [← List.append_nil ops] at undisturbed
      obtain ⟨s, reached⟩ := reaches undisturbed spaced
      rw [List.append_nil] at undisturbed
      obtain ⟨after, next, txn, finished, kinds⟩ := reached.commits undisturbed early holder
      refine ⟨s, after, next, txn, reached.ran, finished, fun row => ⟨fun asked => ?_, fun unasked => ?_⟩⟩
      · exact (kinds row).1 ((entered_eq_WR_iff _).mpr ⟨asked, upgradable row asked⟩)
      · exact (kinds row).2 (fun kind => unasked ((entered_eq_WR_iff _).mp kind).1)

end

/-- A row of each of the two tables, by number, under primary keys that may be the same. -/
def twoTables (keys : Bool → Nat) (table : Bool) : Row Bytes where
  tableName := if table then bytes "Data_TABLE" else bytes "MAIN_TABLE"
  primaryKey := keys table
  data := if table then bytes "x" else bytes "y"
  manager := RowOcc.init
  live := true

/-- The rows of both tables, and one more that others commit to. -/
def threeRows (other : Bytes) : Option Bool → Row Bytes
  | some table => twoTables (fun table => if table then 1 else 2) table
  | none => { tableName := bytes "Data_TABLE", primaryKey := 3, data := other, manager := RowOcc.init, live := true }

/-- One row is read and then written, the other one read, while others commit a third. -/
def writeOne : List (Op (Option Bool) Bytes) :=
  [.get (some true) .RD, .others (threeRows (bytes "v")), .get (some false) .RD, .get (some true) .WR,
    .set (some true) (fun data => data ++ bytes "z"), .others (threeRows (bytes "w"))]

theorem writeOne_undisturbed : Undisturbed (threeRows (bytes "u")) 1 writeOne := by
  have asked : ∀ row ∈ requested writeOne, ∃ table, row = some table := by decide
  refine ⟨by decide, by decide, by decide, ?_, ?_⟩
  · intro rows' member row listed
    obtain ⟨table, rfl⟩ := asked row listed
    have commits : rows' = threeRows (bytes "v") ∨ rows' = threeRows (bytes "w") := by
      simpa [writeOne] using member
    rcases commits with rfl | rfl <;> rfl
  · intro front back row value split
    -- the only write is the fifth operation
    rcases front with _ | ⟨_, _ | ⟨_, _ | ⟨_, _ | ⟨_, _ | ⟨_, _ | ⟨_, front⟩⟩⟩⟩⟩⟩ <;>
      simp only [writeOne, List.nil_append, List.cons_append, List.cons.injEq, reduceCtorEq, false_and, and_false,
        List.nil_eq, List.append_eq_nil_iff] at split
    obtain ⟨rfl, rfl, rfl, rfl, same, -⟩ := split
    cases same
    exact List.mem_cons_self

theorem keepsApart_twoTables : KeepsApart (threeRows (bytes "u")) 1 2 0 writeOne := by
  refine (keepsApart_iff _ 1 2 0 writeOne writeOne_undisturbed (by decide)).mpr ⟨⟨by decide, by decide⟩, ?_⟩
  intro row asked
  have table : row = some true := by
    match row with
    | some true => rfl
    | some false | none => simp [types, Op.type?, writeOne] at asked
  rw [table]
  exact .inl rfl

/-- A read of each. -/
def readBoth : List (Op Bool Bytes) := [.get true .RD, .get false .RD]

theorem readBoth_undisturbed (keys : Bool → Nat) (startTs : Nat) : Undisturbed (twoTables keys) startTs readBoth := by
  refine ⟨fun _ _ => rfl, fun _ _ => rfl, fun _ _ => Nat.zero_le _, ?_, ?_⟩
  · intro rows' member
    simp [readBoth] at member
  · intro front back row value split
    have member : .set row value ∈ readBoth := split ▸ List.mem_append_right _ List.mem_cons_self
    simp [readBoth] at member

/-- Two rows of different tables with the same primary key: the second call hands out the copy of the first. -/
theorem sameKey_shared : ¬ ∀ (rows : Bool → Row Bytes) (startTs timestamp holder : Nat) (ops : List (Op Bool Bytes)),
    Undisturbed rows startTs ops → startTs < timestamp →
    (∀ row other, (rows row).tableName = (rows other).tableName → (rows row).primaryKey = (rows other).primaryKey →
      row = other) → KeepsApart rows startTs timestamp holder ops := by
  intro apart
  have kept := apart (twoTables (fun _ => 5)) 1 2 0 readBoth (readBoth_undisturbed _ 1) (by decide) (by decide)
  have spaced : Spaced (twoTables (fun _ => 5)) readBoth :=
    spaced_of_calls (readBoth_undisturbed _ 1) kept.calls (List.append_nil readBoth).symm
  exact absurd (spaced.keys true (by decide) false (by decide) rfl) (by decide)

end DataAgentDB.Storage.RowsApart
