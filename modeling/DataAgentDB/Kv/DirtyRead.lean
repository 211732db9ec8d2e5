import DataAgentDB.Kv.Conflict

/-! Where the values that `get` returns come from. An insert fills the shared row before its
transaction commits, so a reader that finds the row in the index copies it. -/

namespace DataAgentDB.Kv
open Storage Server TxnMan LabelledRun

/-- The value was in the data the engine loaded, or a transaction that committed put it. -/
def Origin (hash : Bytes → Nat) (init : Db) (trace : List Event) (key value : Bytes) : Prop :=
  init.readable hash key = some value ∨
    ∃ u, ⟨.put u key value, .code .OK⟩ ∈ trace ∧ ⟨.commit u, .code .OK⟩ ∈ trace

/-- Strings fit their columns, and no call accesses for the first time a row that an open
transaction inserted and nobody has committed, unless to put the row's own key. -/
def ReadsCommitted (hash : Bytes → Nat) (_ : List Event) (db : Db) (event : Event) : Prop :=
  match event.call with
  | .get t key => 0 ∉ key ∧ ∀ row ∈ db.firstAccess hash t key, db.uncommitted row = false
  | .put t key value => Fits 127 key ∧ Fits 1023 value ∧
      ∀ row ∈ db.firstAccess hash t key, db.uncommitted row = true → (db.store.rows row).data.key = key
  | _ => True

instance (hash : Bytes → Nat) (trace : List Event) (db : Db) :
    (event : Event) → Decidable (ReadsCommitted hash trace db event)
  | ⟨.get t key, _⟩ => inferInstanceAs (Decidable (_ ∧ ∀ row ∈ db.firstAccess hash t key, _))
  | ⟨.put t key _, _⟩ => inferInstanceAs (Decidable (_ ∧ _ ∧ ∀ row ∈ db.firstAccess hash t key, _))
  | ⟨.begin_txn, _⟩ | ⟨.commit _, _⟩ | ⟨.abort_txn _, _⟩ => .isTrue trivial

/-- Every value `get` returned was put before by the reader itself, or has an origin. -/
def NoDirtyRead (hash : Bytes → Nat) (init : Db) (trace : List Event) : Prop :=
  ∀ before t key value after, trace = before ++ ⟨.get t key, .value value⟩ :: after →
    ⟨.put t key value, .code .OK⟩ ∈ before ∨ Origin hash init before key value

/-- The value that a copy or a row has under its key in the index is accounted for. -/
structure Attributed (hash : Bytes → Nat) (init : Db) (trace : List Event) (db : Db) : Prop where
  rows : ∀ p row, db.store.indexRead p = some row → (db.store.rows row).live = true →
    db.uncommitted row = false → hash (db.store.rows row).data.key = p →
    Origin hash init trace (db.store.rows row).data.key (db.store.rows row).data.value
  copies : ∀ t txn, db.txns t = some txn → ∀ acc ∈ txn.accesses,
    db.store.indexRead (hash acc.data.key) = some acc.origRow →
    ⟨.put t acc.data.key acc.data.value, .code .OK⟩ ∈ trace ∨
      Origin hash init trace acc.data.key acc.data.value

section Steps
variable {hash : Bytes → Nat} {init db next : Db} {trace : List Event} {event : Event}

theorem Origin.mono {key value : Bytes} (origin : Origin hash init trace key value) (event : Event) :
    Origin hash init (trace ++ [event]) key value := by
  rcases origin with loaded | ⟨u, put, committed⟩
  · exact .inl loaded
  · exact .inr ⟨u, List.mem_append_left _ put, List.mem_append_left _ committed⟩

/-- The state has not changed. -/
theorem Attributed.idle (told : Attributed hash init trace db) (event : Event) :
    Attributed hash init (trace ++ [event]) db where
  rows := fun p row found live settled key => (told.rows p row found live settled key).mono event
  copies := fun t txn opened acc member head => (told.copies t txn opened acc member head).imp
    (fun put => List.mem_append_left _ put) (fun origin => origin.mono event)

/-- One transaction's table has one new copy. -/
theorem Attributed.replaced (told : Attributed hash init trace db) (sound : Sound db)
    {t row : Nat} {txn txn' : Txn} {kind : AccessT} {copy : Columns} (opened : db.txns t = some txn)
    (sound' : Sound (db.setTxn t (some txn'))) (replaces : Replaces row kind copy txn txn')
    (inserts : txn'.insertRows = txn.insertRows) (event : Event)
    (known : db.store.indexRead (hash copy.key) = some row →
      ⟨.put t copy.key copy.value, .code .OK⟩ ∈ trace ++ [event] ∨
        Origin hash init (trace ++ [event]) copy.key copy.value) :
    Attributed hash init (trace ++ [event]) (db.setTxn t (some txn')) where
  rows := by
    intro p row found live settled key
    rw [uncommitted_congr sound sound' rfl (inserts_kept opened (by rw [inserts]))] at settled
    exact (told.rows p row found live settled key).mono event
  copies := by
    intro u other found acc member head
    have old : ∀ other, db.txns u = some other → acc ∈ other.accesses →
        ⟨.put u acc.data.key acc.data.value, .code .OK⟩ ∈ trace ++ [event] ∨
          Origin hash init (trace ++ [event]) acc.data.key acc.data.value :=
      fun other opened' before => ((told.idle event).copies u other opened' acc before head)
    rcases found_txn found with ⟨rfl, same⟩ | ⟨_, before⟩
    · cases same
      rcases (replaces acc).mp member with rfl | ⟨before, _⟩
      · exact known head
      · exact old txn opened before
    · exact old other before member

/-- A copy just fetched is accounted for, unless its row was copied uncommitted. -/
theorem Attributed.fetched (told : Attributed hash init trace db) {t row : Nat} {txn txn' : Txn}
    {type kind : AccessT} {key : Bytes} {copy : Columns} (sound : Sound db)
    (opened : db.txns t = some txn) (found : db.store.indexRead (hash key) = some row)
    (live : (db.store.rows row).live = true)
    (fetched : Fetched db.store txn row type kind copy txn')
    (settled : ∀ row ∈ db.firstAccess hash t key, copy = (db.store.rows row).data →
      db.uncommitted row = false)
    (head : db.store.indexRead (hash copy.key) = some row) :
    ⟨.put t copy.key copy.value, .code .OK⟩ ∈ trace ∨ Origin hash init trace copy.key copy.value := by
  have here := (sound.opened t txn opened).2
  by_cases before : ∃ acc ∈ txn.accesses, acc.origRow = row
  · obtain ⟨acc, member, rfl⟩ := before
    obtain ⟨rfl, -⟩ := fetched.again acc member rfl
    exact told.copies t txn opened acc member head
  · have absent : ∀ acc ∈ txn.accesses, acc.origRow ≠ row :=
      fun acc member same => before ⟨acc, member, same⟩
    obtain ⟨rfl, -⟩ := fetched.first absent
    have first : row ∈ db.firstAccess hash t key := by
      rw [firstAccess_eq opened (here.missing found absent)]
      exact found
    exact .inr (told.rows _ row head live (settled row first rfl) rfl)

/-- The transaction's inserts and its own updates get an origin by its commit. -/
theorem Attributed.installed (told : Attributed hash init trace db) (sound : Sound db) {t : Nat}
    {txn : Txn} (opened : db.txns t = some txn) :
    Attributed hash init (trace ++ [⟨.commit t, .code .OK⟩]) (db.installed t txn) where
  rows := by
    intro p row found live settled key
    have here := (sound.opened t txn opened).2
    have sound' := sound.installed opened
    rcases wroteBack_cases here.nodup db.store.rows db.store.timestamp row with
      ⟨acc, member, rfl, _, same⟩ | ⟨unwritten, same⟩
    · have data : ((db.installed t txn).store.rows acc.origRow).data = acc.data := congrArg Row.data same
      rw [data] at key ⊢
      rcases told.copies t txn opened acc member (key ▸ found) with put | origin
      · exact .inr ⟨t, List.mem_append_left _ put, List.mem_append_right _ (List.mem_singleton.mpr rfl)⟩
      · exact origin.mono _
    · have whole : (db.installed t txn).store.rows row = db.store.rows row := same
      rw [whole] at live key ⊢
      have outside : row ∉ txn.insertRows := by
        intro member
        obtain ⟨_, acc, inTable, origin, kind⟩ := here.inserted row member
        exact unwritten acc inTable origin kind
      rw [uncommitted_congr sound sound' (congrArg (fun row => row.manager.wts) whole)
        (inserts_ended opened outside)] at settled
      exact (told.rows p row found live settled key).mono _
  copies := by
    intro u other found acc member head
    rcases found_txn found with ⟨_, gone⟩ | ⟨_, before⟩
    · cases gone
    · exact (told.idle _).copies u other before acc member head

theorem Attributed.dropped (told : Attributed hash init trace db) (sound : Sound db) {t : Nat}
    {txn : Txn} (opened : db.txns t = some txn) (event : Event) :
    Attributed hash init (trace ++ [event]) (db.dropped t txn) where
  rows := by
    intro p row found live settled key
    have sound' := sound.dropped opened
    obtain ⟨_, _, _, kept⟩ := freed_frame txn.insertRows db.store.rows row
    have outside : row ∉ txn.insertRows := by
      intro gone
      have freed : ((db.dropped t txn).store.rows row).live = false := by
        simp [Db.dropped, Db.setTxn, freed, gone, Row.freeRow]
      rw [freed] at live
      cases live
    have whole : (db.dropped t txn).store.rows row = db.store.rows row := kept outside
    rw [whole] at live key ⊢
    rw [uncommitted_congr sound sound' (congrArg (fun row => row.manager.wts) whole)
      (inserts_ended opened outside)] at settled
    exact (told.rows p row found live settled key).mono event
  copies := by
    intro u other found acc member head
    rcases found_txn found with ⟨_, gone⟩ | ⟨_, before⟩
    · cases gone
    · exact (told.idle event).copies u other before acc member head

theorem Attributed.grown (told : Attributed hash init trace db) (sound : Sound db) {t : Nat} {txn : Txn}
    {key value : Bytes} (opened : db.txns t = some txn)
    (absent : db.store.indexRead (hash key) = none) :
    Attributed hash init (trace ++ [⟨.put t key value, .code .OK⟩])
      (db.grown t txn (hash key) { key := key, value := value }) := by
  have sound' := sound.grown ⟨key, value⟩ opened absent
  have heads : ∀ p row, (db.grown t txn (hash key) ⟨key, value⟩).store.indexRead p = some row →
      (p = hash key ∧ row = db.store.curTabSize) ∨ (row ≠ db.store.curTabSize ∧
        db.store.indexRead p = some row ∧
        (db.grown t txn (hash key) ⟨key, value⟩).store.rows row = db.store.rows row) := by
    intro p row found
    change (db.store.load (hash key) ⟨key, value⟩).indexRead p = some row at found
    rw [load_indexRead] at found
    split at found
    next here => cases found; exact .inl ⟨here, rfl⟩
    next =>
      have bound := (sound.alloc p row (Store.entries_of_indexRead found)).1
      exact .inr ⟨bound.ne, found, load_rows_old _ _ bound⟩
  refine ⟨?_, ?_⟩
  · intro p row found live settled name
    rcases heads p row found with ⟨rfl, rfl⟩ | ⟨apart, before, whole⟩
    · rw [Bool.eq_false_iff] at settled
      refine absurd ((uncommitted_iff sound').mpr ⟨⟨t, _, Function.update_self _ _ _, ?_⟩, ?_⟩) settled
      · exact List.mem_append_right _ (List.mem_singleton.mpr rfl)
      · exact congrArg (fun row => row.manager.wts) (load_rows_new db.store (hash key) ⟨key, value⟩)
    · rw [whole] at live name ⊢
      rw [uncommitted_congr sound sound' (congrArg (fun row => row.manager.wts) whole)
        (inserts_kept opened (by simp [apart]))] at settled
      exact (told.rows p row before live settled name).mono _
  · intro u other found acc member head
    have old : ∀ other, db.txns u = some other → acc ∈ other.accesses →
        ⟨.put u acc.data.key acc.data.value, .code .OK⟩ ∈ trace ++ [⟨.put t key value, .code .OK⟩] ∨
          Origin hash init (trace ++ [⟨.put t key value, .code .OK⟩]) acc.data.key acc.data.value := by
      intro other opened' before
      have bound := sound.bounded opened' _ (List.mem_map_of_mem before)
      rcases heads _ _ head with ⟨_, new⟩ | ⟨_, before', _⟩
      · exact absurd new bound.ne
      · exact (told.idle _).copies u other opened' acc before before'
    rcases found_txn found with ⟨rfl, same⟩ | ⟨_, before⟩
    · cases same
      rcases List.mem_append.mp member with before | last
      · exact old txn opened before
      · cases List.mem_singleton.mp last
        exact .inl (List.mem_append_right _ (List.mem_singleton.mpr rfl))
    · exact old other before member

theorem Attributed.begun (told : Attributed hash init trace db) (sound : Sound db) (event : Event) :
    Attributed hash init (trace ++ [event])
      { db.setTxn db.nextId (some (TxnMan.init db.store.timestamp)) with
        store := { db.store with timestamp := db.store.timestamp + 1 }, nextId := db.nextId + 1 } where
  rows := by
    intro p row found live settled key
    rw [uncommitted_congr sound sound.begun rfl (inserts_begun sound)] at settled
    exact (told.rows p row found live settled key).mono event
  copies := by
    intro u other found acc member head
    rcases found_txn found with ⟨rfl, same⟩ | ⟨_, before⟩
    · cases same
      cases member
    · exact (told.idle event).copies u other before acc member head

theorem attributed_did (told : Attributed hash init trace db) (sound : Sound db)
    (fits : ReadsCommitted hash trace db event) (did : Did hash db event next) :
    Attributed hash init (trace ++ [event]) next := by
  have sound' := sound_did sound did
  cases did with
  | begun => exact told.begun sound _
  | closed => exact told.idle _
  | missing => exact told.idle _
  | getConflict => exact told.idle _
  | putConflict => exact told.idle _
  | getMismatch opened found live fetched | got opened found live fetched =>
    refine told.replaced sound opened sound' fetched.replaces fetched.inserts _ (fun head => ?_)
    exact (told.fetched sound opened found live fetched (fun row first _ => fits.2 row first) head).imp
      (fun put => List.mem_append_left _ put) (fun origin => origin.mono _)
  | putMismatch opened found live fetched differs =>
    obtain ⟨short, _, clean⟩ := fits
    refine told.replaced sound opened sound' fetched.replaces fetched.inserts _ (fun head => ?_)
    refine (told.fetched sound opened found live fetched ?_ head).imp
      (fun put => List.mem_append_left _ put) (fun origin => origin.mono _)
    intro row first same
    rw [Bool.eq_false_iff]
    intro dirty
    refine differs ?_
    rw [cStr_of_no_nul short.2, same]
    exact clean row first dirty
  | updated opened _ _ _ same entered =>
    obtain ⟨short, short', _⟩ := fits
    refine told.replaced sound opened sound' entered.replaces entered.inserts _ (fun _ => .inl ?_)
    rw [same, cStr_of_no_nul short.2, strncpy_of_fits short']
    exact List.mem_append_right _ (List.mem_singleton.mpr rfl)
  | inserted opened absent =>
    obtain ⟨short, short', _⟩ := fits
    rw [strncpy_of_fits short, strncpy_of_fits short']
    exact told.grown sound opened absent
  | committed opened => exact told.installed sound opened
  | failed opened => exact told.dropped sound opened _
  | aborted opened => exact told.dropped sound opened _

theorem readable_head {p row : Nat} (found : db.store.indexRead p = some row)
    (live : (db.store.rows row).live = true) (named : 0 ∉ (db.store.rows row).data.key)
    (name : hash (db.store.rows row).data.key = p) :
    db.readable hash (db.store.rows row).data.key = some (db.store.rows row).data.value := by
  simp [Db.readable, name, found, live, cStr_of_no_nul named]

theorem attributed_run {file : List (Bytes × Bytes)}
    (run : Run (Step hash) (ReadsCommitted hash) (initial hash file) trace db) :
    Sound db ∧ Attributed hash (initial hash file) trace db := by
  refine run.invariant (fun trace db => Sound db ∧ Attributed hash (initial hash file) trace db)
    ⟨initial_sound hash file, ?_, fun _ _ found => (nomatch found)⟩ ?_
  · intro p row found live _ name
    exact .inl (readable_head found live ((initEngine_loaded hash file).named row) name)
  · rintro trace db event next ⟨sound, told⟩ fits taken
    have did := did_of_step sound taken
    exact ⟨sound_did sound did, attributed_did told sound fits did⟩

end Steps

/-- No call reads dirty data in a run whose strings fit and whose transactions access no row
for the first time while another transaction's insert of it is uncommitted. -/
theorem no_dirty_reads {hash : Bytes → Nat} {file : List (Bytes × Bytes)} {trace : List Event} {db : Db}
    (run : Run (Step hash) (ReadsCommitted hash) (initial hash file) trace db) :
    NoDirtyRead hash (initial hash file) trace := by
  intro before t key value after split
  obtain ⟨_, first, _⟩ := run.split (before ++ [⟨.get t key, .value value⟩]) after (by simp [split])
  obtain ⟨middle, earlier, fits, taken⟩ := first.last
  obtain ⟨sound, told⟩ := attributed_run earlier
  cases did_of_step sound taken with
  | got opened found live fetched same =>
    rw [cStr_of_no_nul fits.1] at same
    subst same
    exact told.fetched sound opened found live fetched (fun row first _ => fits.2 row first) found

/-- A reader that updates a row while its insert is uncommitted, and one that reads it after. -/
theorem no_dirty_reads_update :
    ∃ trace, NoDirtyRead numeral (initial numeral []) trace ∧
      ⟨.get 2 (bytes "a"), .value (bytes "y")⟩ ∈ trace ∧ ⟨.get 3 (bytes "a"), .value (bytes "x")⟩ ∈ trace := by
  have played : (playUnder (Db.next numeral) (ReadsCommitted numeral) [] (initial numeral [])
      [⟨.begin_txn, .begun 1⟩, ⟨.begin_txn, .begun 2⟩, ⟨.put 1 (bytes "a") (bytes "x"), .code .OK⟩,
        ⟨.put 2 (bytes "a") (bytes "y"), .code .OK⟩, ⟨.get 2 (bytes "a"), .value (bytes "y")⟩,
        ⟨.commit 1, .code .OK⟩, ⟨.begin_txn, .begun 3⟩, ⟨.get 3 (bytes "a"), .value (bytes "x")⟩]).isSome =
      true := by decide +kernel
  obtain ⟨db, ran⟩ := Option.isSome_iff_exists.mp played
  exact ⟨_, no_dirty_reads (run_of_playUnder ran), by simp, by simp⟩

/-- Two transactions, of which one puts a new key and stays open. -/
def insertOpen : List Event :=
  [⟨.begin_txn, .begun 1⟩, ⟨.begin_txn, .begun 2⟩, ⟨.put 1 (bytes "a") (bytes "x"), .code .OK⟩]

/-- A transaction reads what another has put and not committed. -/
theorem dirty_read_of_insert :
    ∃ db, Run (Step numeral) Always (initial numeral [])
        (insertOpen ++ [⟨.get 2 (bytes "a"), .value (bytes "x")⟩]) db ∧
      ¬ NoDirtyRead numeral (initial numeral [])
        (insertOpen ++ [⟨.get 2 (bytes "a"), .value (bytes "x")⟩]) := by
  have played : (play (Db.next numeral) (initial numeral [])
      (insertOpen ++ [⟨.get 2 (bytes "a"), .value (bytes "x")⟩])).isSome = true := by decide +kernel
  have absent : (initial numeral []).readable numeral (bytes "a") = none := by decide +kernel
  obtain ⟨db, ran⟩ := Option.isSome_iff_exists.mp played
  refine ⟨db, run_of_play ran, fun clean => ?_⟩
  rcases clean insertOpen 2 (bytes "a") (bytes "x") [] rfl with own | loaded | ⟨u, _, commit⟩
  · simp [insertOpen] at own
  · rw [absent] at loaded
    cases loaded
  · simp [insertOpen] at commit

end DataAgentDB.Kv
