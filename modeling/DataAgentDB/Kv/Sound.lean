import DataAgentDB.Kv.Calls
import Mathlib.Data.List.TakeWhile

/-! Every call keeps the invariant: a key's head in the index never changes once it is there,
and the access tables of the open transactions point at heads. -/

namespace DataAgentDB.Kv
open Storage Server TxnMan

theorem Extends.refl (s : Store) : Extends s s := ⟨le_rfl, fun _ _ found => found, fun _ _ => ⟨rfl, rfl⟩⟩

theorem Extends.trans {s s' s'' : Store} (first : Extends s s') (second : Extends s' s'')
    (grows : s.curTabSize ≤ s'.curTabSize) : Extends s s'' where
  later := first.later.trans second.later
  kept := fun p row found => second.kept p row (first.kept p row found)
  same := by
    intro row bound
    obtain ⟨key, name⟩ := first.same row bound
    obtain ⟨key', name'⟩ := second.same row (bound.trans_le grows)
    exact ⟨key'.trans key, name'.trans name⟩

section Stores
variable {db : Db}

theorem load_rows (s : Store) (p : Nat) (columns : Columns) (row : Nat) :
    (s.load p columns).rows row = if row = s.curTabSize then
      ⟨bytes "Data_TABLE", p, columns, RowOcc.init, true⟩ else s.rows row := Function.update_apply _ _ _ _

theorem load_rows_old {s : Store} {row : Nat} (p : Nat) (columns : Columns) (old : row < s.curTabSize) :
    (s.load p columns).rows row = s.rows row := Function.update_of_ne old.ne _ _

theorem load_rows_new (s : Store) (p : Nat) (columns : Columns) :
    (s.load p columns).rows s.curTabSize = ⟨bytes "Data_TABLE", p, columns, RowOcc.init, true⟩ :=
  Function.update_self _ _ _

theorem load_entries (s : Store) (p q : Nat) (columns : Columns) :
    (s.load p columns).entries q = if q = p then s.curTabSize :: s.entries p else s.entries q :=
  Store.entries_indexInsert _ _ _ _

theorem load_indexRead (s : Store) (p q : Nat) (columns : Columns) :
    (s.load p columns).indexRead q = if q = p then some s.curTabSize else s.indexRead q := by
  rw [Store.indexRead_eq, load_entries]
  split
  next => rfl
  next => rw [Store.indexRead_eq]

theorem extends_load {s : Store} {p : Nat} (columns : Columns) (absent : s.indexRead p = none) :
    Extends s (s.load p columns) where
  later := le_rfl
  kept := by
    intro q row found
    rw [load_indexRead]
    split
    next same => rw [same, absent] at found; cases found
    next => exact found
  same := by
    intro row old
    rw [load_rows_old _ _ old]
    exact ⟨rfl, rfl⟩

theorem Sound.bounded (sound : Sound db) {t : Nat} {txn : Txn} (opened : db.txns t = some txn) :
    ∀ row ∈ txn.accesses.map Access.origRow, row < db.store.curTabSize := by
  intro row member
  have head := (sound.opened t txn opened).2.head row member
  exact (sound.alloc _ row (Store.entries_of_indexRead head)).1

theorem wroteBack_frame (accesses : List (Access Nat Columns)) (rows : Nat → Row Columns) (ts row : Nat)
    (keys : ∀ acc ∈ accesses, acc.data.key = (rows acc.origRow).data.key)
    (nodup : (accesses.map Access.origRow).Nodup) :
    (wroteBack accesses rows ts row).primaryKey = (rows row).primaryKey ∧
    (wroteBack accesses rows ts row).data.key = (rows row).data.key ∧
    (wroteBack accesses rows ts row).live = (rows row).live ∧
    (wroteBack accesses rows ts row).manager.latch = (rows row).manager.latch ∧
    ((wroteBack accesses rows ts row).manager.wts = (rows row).manager.wts ∨
      (wroteBack accesses rows ts row).manager.wts = ts) := by
  rcases wroteBack_cases nodup rows ts row with ⟨acc, member, rfl, -, same⟩ | ⟨-, same⟩
  · rw [same]
    exact ⟨rfl, keys acc member, rfl, rfl, .inr rfl⟩
  · rw [same]
    exact ⟨rfl, rfl, rfl, rfl, .inl rfl⟩

theorem freed_frame (list : List Nat) (rows : Nat → Row Columns) (row : Nat) :
    (freed list rows row).primaryKey = (rows row).primaryKey ∧
    (freed list rows row).data = (rows row).data ∧
    (freed list rows row).manager = (rows row).manager ∧
    (row ∉ list → freed list rows row = rows row) := by
  unfold freed
  split
  next gone => exact ⟨rfl, rfl, rfl, fun outside => absurd gone outside⟩
  next => exact ⟨rfl, rfl, rfl, fun _ => rfl⟩

theorem extends_installed (sound : Sound db) {t : Nat} {txn : Txn} (opened : db.txns t = some txn) :
    Extends db.store (db.installed t txn).store where
  later := Nat.le_succ _
  kept := fun _ _ found => found
  same := by
    intro row _
    obtain ⟨_, here⟩ := sound.opened t txn opened
    obtain ⟨key, name, -⟩ := wroteBack_frame txn.accesses db.store.rows db.store.timestamp row
      here.key here.nodup
    exact ⟨key, name⟩

theorem extends_dropped (t : Nat) (txn : Txn) : Extends db.store (db.dropped t txn).store where
  later := le_rfl
  kept := fun _ _ found => found
  same := by
    intro row _
    obtain ⟨key, data, -⟩ := freed_frame txn.insertRows db.store.rows row
    exact ⟨key, congrArg Columns.key data⟩

end Stores

section Kept
variable {hash : Bytes → Nat} {db next : Db} {event : Event}

theorem found_txn {txns : Nat → Option Txn} {t u : Nat} {given : Option Txn} {txn : Txn}
    (found : Function.update txns t given u = some txn) :
    (u = t ∧ given = some txn) ∨ (u ≠ t ∧ txns u = some txn) := by
  by_cases same : u = t
  · subst same
    exact .inl ⟨rfl, by simpa using found⟩
  · exact .inr ⟨same, by simpa [Function.update_of_ne same] using found⟩

/-- A transaction's access table changes, the store does not. -/
theorem Sound.setTxn (sound : Sound db) {t : Nat} {txn txn' : Txn} (opened : db.txns t = some txn)
    (here : Opened db.store txn') (inserts : txn'.insertRows = txn.insertRows) :
    Sound (db.setTxn t (some txn')) where
  alloc := sound.alloc
  free := sound.free
  past := sound.past
  opened := by
    intro u other found
    rcases found_txn found with ⟨rfl, same⟩ | ⟨_, before⟩
    · cases same
      exact ⟨(sound.opened u txn opened).1, here⟩
    · exact sound.opened u other before
  apart := by
    have earlier : ∀ u other, (db.setTxn t (some txn')).txns u = some other →
        ∃ before, db.txns u = some before ∧ before.insertRows = other.insertRows := by
      intro u other found
      rcases found_txn found with ⟨rfl, same⟩ | ⟨_, before⟩
      · cases same
        exact ⟨txn, opened, inserts.symm⟩
      · exact ⟨other, before, rfl⟩
    intro u v first second row found found' member member'
    obtain ⟨before, was, same⟩ := earlier u first found
    obtain ⟨before', was', same'⟩ := earlier v second found'
    exact sound.apart u v before before' row was was' (same ▸ member) (same' ▸ member')

/-- A transaction ends; the rows the others inserted stay. -/
theorem Sound.ended (sound : Sound db) (t : Nat) {rows : Nat → Row Columns} {ts : Nat}
    (extends_ : Extends db.store { db.store with rows := rows, timestamp := ts })
    (keys : ∀ row, (rows row).primaryKey = (db.store.rows row).primaryKey)
    (free : ∀ row, (rows row).manager.latch = none) (past : ∀ row, (rows row).manager.wts < ts)
    (live : ∀ u txn, u ≠ t → db.txns u = some txn → ∀ row ∈ txn.insertRows, (rows row).live = true) :
    Sound ({ db with store := { db.store with rows := rows, timestamp := ts } }.setTxn t none) where
  alloc := by
    intro p row member
    obtain ⟨bound, key⟩ := sound.alloc p row member
    exact ⟨bound, (keys row).trans key⟩
  free := free
  past := past
  opened := by
    intro u txn found
    rcases found_txn found with ⟨_, gone⟩ | ⟨apart, before⟩
    · cases gone
    · obtain ⟨bound, here⟩ := sound.opened u txn before
      exact ⟨bound, here.mono extends_ (sound.bounded before) (live u txn apart before)⟩
  apart := by
    intro u v first second row found found' member member'
    rcases found_txn found with ⟨_, gone⟩ | ⟨_, before⟩
    · cases gone
    rcases found_txn found' with ⟨_, gone⟩ | ⟨_, before'⟩
    · cases gone
    exact sound.apart u v first second row before before' member member'

theorem Sound.dropped (sound : Sound db) {t : Nat} {txn : Txn} (opened : db.txns t = some txn) :
    Sound (db.dropped t txn) := by
  have frame := freed_frame txn.insertRows db.store.rows
  refine sound.ended t (extends_dropped t txn) (fun row => (frame row).1) ?_ ?_ ?_
  · intro row
    rw [(frame row).2.2.1]
    exact sound.free row
  · intro row
    rw [(frame row).2.2.1]
    exact sound.past row
  · intro u other apart found row member
    have outside : row ∉ txn.insertRows := fun own => apart (sound.apart u t other txn row found opened member own)
    rw [(frame row).2.2.2 outside]
    exact ((sound.opened u other found).2.inserted row member).1

theorem Sound.installed (sound : Sound db) {t : Nat} {txn : Txn} (opened : db.txns t = some txn) :
    Sound (db.installed t txn) := by
  obtain ⟨_, here⟩ := sound.opened t txn opened
  have frame := fun row => wroteBack_frame txn.accesses db.store.rows db.store.timestamp row here.key here.nodup
  refine sound.ended t (extends_installed sound opened) (fun row => (frame row).1) ?_ ?_ ?_
  · intro row
    rw [(frame row).2.2.2.1]
    exact sound.free row
  · intro row
    have before := sound.past row
    rcases (frame row).2.2.2.2 with same | now
    · rw [same]
      exact before.trans (Nat.lt_succ_self _)
    · rw [now]
      exact Nat.lt_succ_self _
  · intro u other _ found row member
    rw [(frame row).2.2.1]
    exact ((sound.opened u other found).2.inserted row member).1

theorem Sound.insertRows_bounded (sound : Sound db) {t row : Nat} {txn : Txn}
    (opened : db.txns t = some txn) (member : row ∈ txn.insertRows) : row < db.store.curTabSize := by
  obtain ⟨_, acc, found, rfl, _⟩ := (sound.opened t txn opened).2.inserted row member
  exact sound.bounded opened _ (List.mem_map_of_mem found)

theorem Opened.grown {s : Store} {txn : Txn} {p : Nat} {columns : Columns}
    (opened : Opened (s.load p columns) txn) (missing : txn.recordPos p = none) :
    Opened (s.load p columns) { txn.record p s.curTabSize .WR columns with
      insertRows := txn.insertRows ++ [s.curTabSize] } := by
  have new := load_rows_new s p columns
  have head : (s.load p columns).indexRead p = some s.curTabSize := by rw [load_indexRead, if_pos rfl]
  have recorded := opened.record .WR columns missing head (by rw [new])
    (by rw [new]) (.inr rfl)
  refine ⟨recorded.started, recorded.indexed, recorded.head, recorded.key, recorded.kinds, ?_⟩
  intro row member
  rcases List.mem_append.mp member with before | last
  · exact recorded.inserted row before
  · cases List.mem_singleton.mp last
    exact ⟨by rw [new], _, List.mem_append_right _ (List.mem_singleton.mpr rfl), rfl, rfl⟩

theorem Sound.grown (sound : Sound db) {t p : Nat} {txn : Txn} (columns : Columns)
    (opened : db.txns t = some txn) (absent : db.store.indexRead p = none) :
    Sound (db.grown t txn p columns) := by
  have extends_ := extends_load columns absent
  have mono : ∀ u other, db.txns u = some other → Opened (db.store.load p columns) other := by
    intro u other found
    refine (sound.opened u other found).2.mono extends_ (sound.bounded found) ?_
    intro row member
    rw [load_rows_old _ _ (sound.insertRows_bounded found member)]
    exact ((sound.opened u other found).2.inserted row member).1
  have missing : txn.recordPos p = none := by
    cases place : txn.recordPos p with
    | none => rfl
    | some i =>
      obtain ⟨_, _, head⟩ := (sound.opened t txn opened).2.entry place
      rw [absent] at head
      cases head
  constructor
  case alloc =>
    intro q row member
    change row ∈ (db.store.load p columns).entries q at member
    rw [load_entries] at member
    have old : ∀ q, row ∈ db.store.entries q → row < db.store.curTabSize + 1 ∧
        ((db.store.load p columns).rows row).primaryKey = q := by
      intro q before
      obtain ⟨bound, key⟩ := sound.alloc q row before
      rw [load_rows_old _ _ bound]
      exact ⟨bound.trans (Nat.lt_succ_self _), key⟩
    split at member
    next here =>
      rcases List.mem_cons.mp member with rfl | before
      · exact ⟨Nat.lt_succ_self _, by rw [here]; exact congrArg Row.primaryKey (load_rows_new _ _ _)⟩
      · exact here ▸ old p before
    next => exact old q member
  case free =>
    intro row
    change ((db.store.load p columns).rows row).manager.latch = none
    rw [load_rows]
    split
    · rfl
    · exact sound.free row
  case past =>
    intro row
    change ((db.store.load p columns).rows row).manager.wts < db.store.timestamp
    rw [load_rows]
    split
    · exact Nat.zero_lt_of_lt (sound.past row)
    · exact sound.past row
  case opened =>
    intro u other found
    rcases found_txn found with ⟨rfl, same⟩ | ⟨_, before⟩
    · cases same
      exact ⟨(sound.opened u txn opened).1, (mono u txn opened).grown missing⟩
    · exact ⟨(sound.opened u other before).1, mono u other before⟩
  case apart =>
    have fresh : ∀ u other row, u ≠ t → db.txns u = some other → row ∈ other.insertRows →
        row ≠ db.store.curTabSize := by
      intro u other row _ found member
      exact (sound.insertRows_bounded found member).ne
    intro u v first second row found found' member member'
    rcases found_txn found with ⟨rfl, same⟩ | ⟨apart, before⟩
    · rcases found_txn found' with ⟨rfl, _⟩ | ⟨apart', before'⟩
      · rfl
      · cases same
        rcases List.mem_append.mp member with old | last
        · exact sound.apart u v txn second row opened before' old member'
        · exact absurd (List.mem_singleton.mp last) (fresh v second row apart' before' member')
    · rcases found_txn found' with ⟨rfl, same⟩ | ⟨_, before'⟩
      · cases same
        rcases List.mem_append.mp member' with old | last
        · exact sound.apart u v first txn row before opened member old
        · exact absurd (List.mem_singleton.mp last) (fresh u first row apart before member)
      · exact sound.apart u v first second row before before' member member'

theorem Sound.begun (sound : Sound db) :
    Sound { db.setTxn db.nextId (some (TxnMan.init db.store.timestamp)) with
      store := { db.store with timestamp := db.store.timestamp + 1 }, nextId := db.nextId + 1 } := by
  have extends_ : Extends db.store { db.store with timestamp := db.store.timestamp + 1 } :=
    ⟨Nat.le_succ _, fun _ _ found => found, fun _ _ => ⟨rfl, rfl⟩⟩
  refine ⟨sound.alloc, sound.free, fun row => (sound.past row).trans (Nat.lt_succ_self _), ?_, ?_⟩
  · intro u txn found
    rcases found_txn found with ⟨rfl, same⟩ | ⟨_, before⟩
    · cases same
      refine ⟨Nat.lt_succ_self _, Nat.lt_succ_self _, ?_, ?_, ?_, ?_, ?_⟩ <;> simp [TxnMan.init]
    · obtain ⟨bound, here⟩ := sound.opened u txn before
      exact ⟨bound.trans (Nat.lt_succ_self _),
        here.mono extends_ (sound.bounded before) (fun row member => (here.inserted row member).1)⟩
  · have earlier : ∀ u (txn : Txn) row, Function.update db.txns db.nextId
        (some (TxnMan.init db.store.timestamp)) u = some txn → row ∈ txn.insertRows →
        db.txns u = some txn := by
      intro u txn row found member
      rcases found_txn found with ⟨rfl, same⟩ | ⟨_, before⟩
      · cases same
        cases member
      · exact before
    intro u v first second row found found' member member'
    exact sound.apart u v first second row (earlier u first row found member)
      (earlier v second row found' member') member member'

theorem sound_did (sound : Sound db) (did : Did hash db event next) : Sound next := by
  cases did with
  | begun => exact sound.begun
  | closed => exact sound
  | missing => exact sound
  | getConflict => exact sound
  | putConflict => exact sound
  | getMismatch opened _ _ fetched | got opened _ _ fetched | putMismatch opened _ _ fetched =>
    exact sound.setTxn opened fetched.opened fetched.inserts
  | updated opened _ _ _ _ entered => exact sound.setTxn opened entered.opened entered.inserts
  | inserted opened absent => exact sound.grown _ opened absent
  | committed opened => exact sound.installed opened
  | failed opened => exact sound.dropped opened
  | aborted opened => exact sound.dropped opened

theorem Extends.of_did (sound : Sound db) (did : Did hash db event next) :
    Extends db.store next.store ∧ db.store.curTabSize ≤ next.store.curTabSize := by
  cases did with
  | begun => exact ⟨⟨Nat.le_succ _, fun _ _ found => found, fun _ _ => ⟨rfl, rfl⟩⟩, le_rfl⟩
  | inserted _ absent => exact ⟨extends_load _ absent, Nat.le_succ _⟩
  | committed opened => exact ⟨extends_installed sound opened, le_rfl⟩
  | failed => exact ⟨extends_dropped _ _, le_rfl⟩
  | aborted => exact ⟨extends_dropped _ _, le_rfl⟩
  | _ => exact ⟨Extends.refl _, le_rfl⟩

/-- A store without transactions. -/
structure Loaded (s : Store) : Prop where
  alloc : ∀ p, ∀ row ∈ s.entries p, row < s.curTabSize ∧ (s.rows row).primaryKey = p ∧
    (s.rows row).live = true
  fresh : ∀ row, (s.rows row).manager = RowOcc.init
  named : ∀ row, 0 ∉ (s.rows row).data.key
  positive : 0 < s.timestamp

theorem strncpy_no_nul (s : Bytes) (count : Nat) : 0 ∉ strncpy s count := by
  intro member
  have front := List.mem_takeWhile_imp (List.take_subset count _ member)
  exact of_decide_eq_true front rfl

theorem Loaded.load {s : Store} (loaded : Loaded s) (p : Nat) (columns : Columns)
    (name : 0 ∉ columns.key) : Loaded (s.load p columns) where
  alloc := by
    intro q row member
    have old : ∀ q, row ∈ s.entries q → row < s.curTabSize + 1 ∧
        ((s.load p columns).rows row).primaryKey = q ∧ ((s.load p columns).rows row).live = true := by
      intro q before
      obtain ⟨bound, key, live⟩ := loaded.alloc q row before
      rw [load_rows_old _ _ bound]
      exact ⟨bound.trans (Nat.lt_succ_self _), key, live⟩
    rw [load_entries] at member
    split at member
    next here =>
      subst here
      rcases List.mem_cons.mp member with rfl | before
      · rw [load_rows_new]
        exact ⟨Nat.lt_succ_self _, rfl, rfl⟩
      · exact old q before
    next => exact old q member
  fresh := by
    intro row
    rw [load_rows]
    split
    · rfl
    · exact loaded.fresh row
  named := by
    intro row
    rw [load_rows]
    split
    · exact name
    · exact loaded.named row
  positive := loaded.positive

theorem initEngine_snoc (hash : Bytes → Nat) (file : List (Bytes × Bytes)) (pair : Bytes × Bytes) :
    Store.initEngine hash (file ++ [pair]) = Store.loadPair hash (Store.initEngine hash file) pair :=
  List.foldl_concat _ _ _ _

theorem initEngine_loaded (hash : Bytes → Nat) (file : List (Bytes × Bytes)) :
    Loaded (Store.initEngine hash file) := by
  have digits : ∀ rid ∈ List.range 10, 0 ∉ bytes (toString rid) := by decide
  have table : Loaded Store.initTable :=
    List.foldlRecOn _ _
      ⟨fun _ _ member => (nomatch member), fun _ => rfl, fun _ member => (nomatch member), Nat.one_pos⟩
      (fun _ loaded rid member => loaded.load _ _ (digits rid member))
  refine List.foldlRecOn _ _ table (fun s loaded pair _ => ?_)
  obtain ⟨alloc, fresh, named, positive⟩ := loaded.load (hash pair.1)
    ⟨strncpy pair.1 127, strncpy pair.2 1023⟩ (strncpy_no_nul _ _)
  exact ⟨alloc, fresh, named, Nat.succ_pos _⟩

theorem initial_sound (hash : Bytes → Nat) (file : List (Bytes × Bytes)) : Sound (initial hash file) := by
  obtain ⟨alloc, fresh, _, positive⟩ := initEngine_loaded hash file
  refine ⟨fun p row member => ?_, fun row => ?_, fun row => ?_, fun _ _ found => (nomatch found),
    fun _ _ _ _ _ found => (nomatch found)⟩
  · obtain ⟨bound, key, -⟩ := alloc p row member
    exact ⟨bound, key⟩
  · exact congrArg RowOcc.latch (fresh row)
  · change ((Store.initEngine hash file).rows row).manager.wts < _
    rw [fresh row]
    exact positive

/-- Every call of a run, with the invariant where it starts. -/
theorem sound_run {allowed : List Event → Db → Event → Prop} {file : List (Bytes × Bytes)}
    {trace : List Event} (run : LabelledRun.Run (Step hash) allowed (initial hash file) trace db) :
    Sound db :=
  run.invariant (fun _ => Sound) (initial_sound hash file)
    (fun _ _ _ _ sound _ taken => sound_did sound (did_of_step sound taken))

end Kept

end DataAgentDB.Kv
