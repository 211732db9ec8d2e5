import DataAgentDB.Kv.Store

/-! The invariant of the store and its open transactions, and an access table under `get_row`. -/

namespace DataAgentDB.Kv
open Storage Server TxnMan

/-- An open transaction against the store. -/
structure Opened (s : Store) (txn : Txn) : Prop where
  started : txn.startTs < s.timestamp
  indexed : ∀ p i, txn.recordPos p = some i ↔
    ∃ row, (txn.accesses.map Access.origRow)[i]? = some row ∧ (s.rows row).primaryKey = p
  head : ∀ row ∈ txn.accesses.map Access.origRow, s.indexRead (s.rows row).primaryKey = some row
  key : ∀ acc ∈ txn.accesses, acc.data.key = (s.rows acc.origRow).data.key
  kinds : ∀ acc ∈ txn.accesses, acc.type = .RD ∨ acc.type = .WR
  inserted : ∀ row ∈ txn.insertRows, (s.rows row).live = true ∧
    ∃ acc ∈ txn.accesses, acc.origRow = row ∧ acc.type = .WR

structure Sound (db : Db) : Prop where
  alloc : ∀ p, ∀ row ∈ db.store.entries p,
    row < db.store.curTabSize ∧ (db.store.rows row).primaryKey = p
  free : ∀ row, (db.store.rows row).manager.latch = none
  past : ∀ row, (db.store.rows row).manager.wts < db.store.timestamp
  opened : ∀ t txn, db.txns t = some txn → t < db.nextId ∧ Opened db.store txn
  apart : ∀ t u txn other row, db.txns t = some txn → db.txns u = some other →
    row ∈ txn.insertRows → row ∈ other.insertRows → t = u

theorem Store.indexRead_eq (s : Store) (p : Nat) : s.indexRead p = (s.entries p).head? :=
  IndexHash.indexRead_eq _ _ _

theorem Store.entries_of_indexRead {s : Store} {p row : Nat} (found : s.indexRead p = some row) :
    row ∈ s.entries p := by
  rw [s.indexRead_eq] at found
  exact List.mem_of_mem_head? found

theorem Store.entries_indexInsert (s : Store) (primaryKey row p : Nat) :
    (s.indexInsert primaryKey row).entries p =
      if p = primaryKey then row :: s.entries primaryKey else s.entries p :=
  IndexHash.items_indexInsert _ _ _ _ _

theorem Opened.nodup {s : Store} {txn : Txn} (opened : Opened s txn) :
    (txn.accesses.map Access.origRow).Nodup := by
  rw [List.nodup_iff_injective_getElem]
  intro i j same
  have place : ∀ i (bound : i < (txn.accesses.map Access.origRow).length),
      txn.recordPos (s.rows (txn.accesses.map Access.origRow)[i]).primaryKey = some i := by
    intro i bound
    exact (opened.indexed _ _).mpr ⟨_, List.getElem?_eq_getElem bound, rfl⟩
  have first := place i.1 i.2
  have second := place j.1 j.2
  simp only at same
  rw [same, second] at first
  exact Fin.ext (Option.some.inj first).symm

/-- What the access table has under a key is the row the index has under it. -/
theorem Opened.entry {s : Store} {txn : Txn} (opened : Opened s txn) {p i : Nat}
    (found : txn.recordPos p = some i) :
    ∃ acc, txn.accesses[i]? = some acc ∧ s.indexRead p = some acc.origRow := by
  obtain ⟨row, place, same⟩ := (opened.indexed p i).mp found
  rw [List.getElem?_map] at place
  obtain ⟨acc, entry, rfl⟩ := Option.map_eq_some_iff.mp place
  have member := List.mem_map_of_mem (f := Access.origRow) (List.mem_of_getElem? entry)
  exact ⟨acc, entry, same ▸ opened.head _ member⟩

theorem Sound.key_of_indexRead {db : Db} (sound : Sound db) {p row : Nat}
    (found : db.store.indexRead p = some row) : (db.store.rows row).primaryKey = p :=
  (sound.alloc p row (Store.entries_of_indexRead found)).2

/-- What no call undoes: keys stay with their rows, and heads in the index. -/
structure Extends (s s' : Store) : Prop where
  later : s.timestamp ≤ s'.timestamp
  kept : ∀ p row, s.indexRead p = some row → s'.indexRead p = some row
  same : ∀ row < s.curTabSize, (s'.rows row).primaryKey = (s.rows row).primaryKey ∧
    (s'.rows row).data.key = (s.rows row).data.key

theorem Opened.mono {s s' : Store} {txn : Txn} (opened : Opened s txn) (extends_ : Extends s s')
    (bounded : ∀ row ∈ txn.accesses.map Access.origRow, row < s.curTabSize)
    (live : ∀ row ∈ txn.insertRows, (s'.rows row).live = true) : Opened s' txn where
  started := opened.started.trans_le extends_.later
  indexed := by
    intro p i
    rw [opened.indexed]
    refine exists_congr (fun row => and_congr_right (fun place => ?_))
    rw [(extends_.same row (bounded row (List.mem_of_getElem? place))).1]
  head := by
    intro row member
    rw [(extends_.same row (bounded row member)).1]
    exact extends_.kept _ _ (opened.head row member)
  key := by
    intro acc member
    rw [(extends_.same _ (bounded _ (List.mem_map_of_mem member))).2]
    exact opened.key acc member
  kinds := opened.kinds
  inserted := fun row member => ⟨live row member, (opened.inserted row member).2⟩

/-- The entries of a table, when only the one of a row is new. -/
def Replaces (row : Nat) (kind : AccessT) (copy : Columns) (txn txn' : Txn) : Prop :=
  ∀ acc, acc ∈ txn'.accesses ↔
    acc = ⟨kind, row, copy⟩ ∨ (acc ∈ txn.accesses ∧ acc.origRow ≠ row)

/-- A table with a new entry of a row. -/
structure Entered (s : Store) (txn : Txn) (row : Nat) (kind : AccessT) (copy : Columns) (txn' : Txn) :
    Prop where
  opened : Opened s txn'
  start : txn'.startTs = txn.startTs
  inserts : txn'.insertRows = txn.insertRows
  replaces : Replaces row kind copy txn txn'

/-- A `get_row` that returned a copy. -/
structure Fetched (s : Store) (txn : Txn) (row : Nat) (type kind : AccessT) (copy : Columns)
    (txn' : Txn) : Prop extends Entered s txn row kind copy txn' where
  written : type = .WR → kind = .WR
  /-- The row was copied just now. -/
  first : (∀ acc ∈ txn.accesses, acc.origRow ≠ row) →
    copy = (s.rows row).data ∧ (s.rows row).manager.wts ≤ txn.startTs ∧ kind = type
  again : ∀ acc ∈ txn.accesses, acc.origRow = row → acc.data = copy ∧ (acc.type = .WR → kind = .WR) ∧
    (kind = .WR → type = .WR ∨ acc.type = .WR)

theorem Opened.refit {s : Store} {txn txn' : Txn} (opened : Opened s txn)
    (start : txn'.startTs = txn.startTs) (pos : txn'.recordPos = txn.recordPos)
    (inserts : txn'.insertRows = txn.insertRows)
    (rows : txn'.accesses.map Access.origRow = txn.accesses.map Access.origRow)
    (keys : ∀ acc ∈ txn'.accesses, acc.data.key = (s.rows acc.origRow).data.key ∧
      (acc.type = .RD ∨ acc.type = .WR))
    (writes : ∀ acc ∈ txn.accesses, acc.type = .WR →
      ∃ acc' ∈ txn'.accesses, acc'.origRow = acc.origRow ∧ acc'.type = .WR) : Opened s txn' where
  started := start ▸ opened.started
  indexed := by rw [pos, rows]; exact opened.indexed
  head := by rw [rows]; exact opened.head
  key := fun acc member => (keys acc member).1
  kinds := fun acc member => (keys acc member).2
  inserted := by
    intro row member
    obtain ⟨live, acc, found, rfl, kind⟩ := opened.inserted row (inserts ▸ member)
    obtain ⟨acc', found', same, kind'⟩ := writes acc found kind
    exact ⟨live, acc', found', same, kind'⟩

theorem Opened.record {s : Store} {txn : Txn} {p row : Nat} (opened : Opened s txn) (type : AccessT)
    (copy : Columns) (missing : txn.recordPos p = none) (found : s.indexRead p = some row)
    (rowKey : (s.rows row).primaryKey = p) (copied : copy.key = (s.rows row).data.key)
    (reads : type = .RD ∨ type = .WR) : Opened s (txn.record p row type copy) where
  started := opened.started
  indexed := by
    intro q i
    have same : (txn.record p row type copy).accesses.map Access.origRow =
        txn.accesses.map Access.origRow ++ [row] := by simp
    have count : txn.rowCnt = (txn.accesses.map Access.origRow).length := by simp [rowCnt]
    rw [same, record_recordPos, count, List.getElem?_append]
    by_cases here : q = p
    · subst here
      rw [Function.update_self]
      constructor
      · intro place
        cases place
        exact ⟨row, by simp, rowKey⟩
      · rintro ⟨other, place, key⟩
        split at place
        next =>
          have before := (opened.indexed q i).mpr ⟨other, place, key⟩
          rw [missing] at before
          cases before
        next above =>
          have last := (List.getElem?_eq_some_iff.mp place).1
          simp only [List.length_singleton] at last
          exact congrArg some (by omega)
    · rw [Function.update_of_ne here, opened.indexed]
      refine exists_congr (fun other => and_congr_left (fun key => ?_))
      split
      next => rfl
      next above =>
        constructor
        · intro place
          exact absurd (List.getElem?_eq_some_iff.mp place).1 above
        · intro place
          have only := List.mem_singleton.mp (List.mem_of_getElem? place)
          subst only
          exact absurd (key.symm.trans rowKey) here
  head := by
    intro other member
    rw [record_accesses, List.map_append, List.mem_append] at member
    rcases member with before | last
    · exact opened.head other before
    · cases List.mem_singleton.mp last
      rw [rowKey]
      exact found
  key := by
    intro acc member
    rcases List.mem_append.mp member with before | last
    · exact opened.key acc before
    · cases List.mem_singleton.mp last
      exact copied
  kinds := by
    intro acc member
    rcases List.mem_append.mp member with before | last
    · exact opened.kinds acc before
    · cases List.mem_singleton.mp last
      exact reads
  inserted := by
    intro other member
    obtain ⟨live, acc, before, same, kind⟩ := opened.inserted other member
    exact ⟨live, acc, List.mem_append_left _ before, same, kind⟩

theorem Opened.fetch {s : Store} {txn txn' : Txn} {p row : Nat} {type : AccessT} {copy : Columns}
    (opened : Opened s txn) (found : s.indexRead p = some row) (rowKey : (s.rows row).primaryKey = p)
    (got : GetRow txn s.rows row type (some copy) txn') (reads : type = .RD ∨ type = .WR) :
    ∃ kind, Fetched s txn row type kind copy txn' := by
  cases got with
  | @hit pos acc place entry =>
    have head : acc.origRow = row := by
      obtain ⟨acc', entry', head⟩ := opened.entry (rowKey ▸ place)
      rw [entry] at entry'
      cases entry'
      rw [found] at head
      exact (Option.some.inj head).symm
    have member := List.mem_of_getElem? entry
    have raised : (if acc.type = .RD ∧ type = .WR then AccessT.WR else acc.type) =
        if type = .WR then .WR else acc.type := by
      rcases opened.kinds acc member with kind | kind <;> simp [kind]
    have members := fun b => mem_upgrade (b := b) type opened.nodup entry
    rw [raised] at members
    subst head
    refine ⟨if type = .WR then .WR else acc.type, ⟨?_, by simp, by simp, members⟩, ?_, ?_, ?_⟩
    · refine opened.refit (by simp) (by simp) (by simp) (upgrade_rows txn entry type) ?_ ?_
      · intro b within
        rcases (members b).mp within with rfl | ⟨before, -⟩
        · refine ⟨opened.key acc member, ?_⟩
          rcases reads with rfl | rfl
          · simpa using opened.kinds acc member
          · simp
        · exact ⟨opened.key b before, opened.kinds b before⟩
      · intro old before kind
        by_cases here : old.origRow = acc.origRow
        · have same : old = acc := List.inj_on_of_nodup_map opened.nodup before member here
          subst same
          exact ⟨_, (members _).mpr (.inl rfl), rfl, by simp [kind]⟩
        · exact ⟨old, (members old).mpr (.inr ⟨before, here⟩), rfl, kind⟩
    · intro writes
      simp [writes]
    · intro absent
      exact absurd rfl (absent acc member)
    · intro old before here
      have same : old = acc := List.inj_on_of_nodup_map opened.nodup before member here
      subst same
      refine ⟨rfl, fun kind => by simp [kind], fun kind => ?_⟩
      split at kind
      next writes => exact .inl writes
      next => exact .inr kind
  | copied missing room free current =>
    have absent : ∀ acc ∈ txn.accesses, acc.origRow ≠ row := by
      rintro acc member rfl
      obtain ⟨i, entry⟩ := List.mem_iff_getElem?.mp member
      have place := (opened.indexed _ i).mpr ⟨acc.origRow, by simp [entry], rfl⟩
      rw [missing] at place
      cases place
    have members : ∀ b, b ∈ (txn.record (s.rows row).primaryKey row type (s.rows row).data).accesses ↔
        b = ⟨type, row, (s.rows row).data⟩ ∨ (b ∈ txn.accesses ∧ b.origRow ≠ row) := by
      intro b
      rw [record_accesses, List.mem_append, List.mem_singleton, or_comm]
      exact or_congr_right (iff_self_and.mpr (absent b))
    exact ⟨type, ⟨opened.record type _ missing (rowKey ▸ found) rfl rfl reads, rfl, rfl, members⟩,
      fun writes => writes, fun _ => ⟨rfl, current, rfl⟩,
      fun acc member here => absurd here (absent acc member)⟩

/-- A write through the copy that `get_row` returned. -/
theorem Fetched.update {s : Store} {txn txn' : Txn} {p row : Nat} {type kind : AccessT} {copy : Columns}
    (fetched : Fetched s txn row type kind copy txn') (rowKey : (s.rows row).primaryKey = p)
    (value : Columns → Columns) (keeps : (value copy).key = copy.key) :
    Entered s txn row kind (value copy) (txn'.setLocal p value) := by
  have opened := fetched.opened
  have member := (fetched.replaces ⟨kind, row, copy⟩).mpr (.inl rfl)
  obtain ⟨i, entry⟩ := List.mem_iff_getElem?.mp member
  have place : txn'.recordPos p = some i := (opened.indexed p i).mpr ⟨row, by simp [entry], rowKey⟩
  have members := fun b => mem_setLocal (b := b) value opened.nodup place entry
  have kinds := opened.kinds _ member
  refine ⟨?_, ?_, ?_, ?_⟩
  · refine opened.refit (by simp) (by simp) (by simp) (setLocal_rows txn' p value) ?_ ?_
    · intro acc within
      rcases (members acc).mp within with rfl | ⟨before, -⟩
      · exact ⟨keeps.trans (opened.key _ member), kinds⟩
      · exact ⟨opened.key acc before, opened.kinds acc before⟩
    · intro acc before written
      by_cases here : acc.origRow = row
      · have same : acc = ⟨kind, row, copy⟩ := List.inj_on_of_nodup_map opened.nodup before member here
        subst same
        exact ⟨_, (members _).mpr (.inl rfl), rfl, written⟩
      · exact ⟨acc, (members acc).mpr (.inr ⟨before, here⟩), rfl, written⟩
  · rw [setLocal_startTs, fetched.start]
  · rw [setLocal_insertRows, fetched.inserts]
  · intro acc
    rw [members]
    refine or_congr_right ⟨?_, ?_⟩
    · rintro ⟨before, apart⟩
      rcases (fetched.replaces acc).mp before with rfl | kept
      · exact absurd rfl apart
      · exact kept
    · rintro ⟨before, apart⟩
      exact ⟨(fetched.replaces acc).mpr (.inr ⟨before, apart⟩), apart⟩

end DataAgentDB.Kv
