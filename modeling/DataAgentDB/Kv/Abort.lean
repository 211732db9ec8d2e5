import DataAgentDB.Kv.Sound

/-! What a transaction that ends without committing leaves behind. `cleanup` frees the rows it
inserted and leaves their index entries in place. -/

namespace DataAgentDB.Kv
open Storage Server TxnMan LabelledRun

/-- A row of the transaction fails its check in `OptCC::validate`. -/
def Store.outdated (s : Store) (txn : Txn) : Bool :=
  txn.accesses.any (fun acc => decide (txn.startTs < (s.rows acc.origRow).manager.wts))

/-- The open transaction that a call ends without committing it. -/
def Db.discards (db : Db) : Call → Option Txn
  | .abort_txn t => db.txns t
  | .commit t => (db.txns t).filter db.store.outdated
  | _ => none

/-- Nothing but the rows the transaction did not insert is left, as they were. -/
structure Undone (hash : Bytes → Nat) (before after : Db) (txn : Txn) : Prop where
  unlisted : ∀ row ∈ txn.insertRows, (before.store.rows row).manager.wts = 0 →
    ∀ p, row ∉ after.store.entries p
  live : ∀ p, ∀ row ∈ after.store.entries p, (after.store.rows row).live = true
  others : ∀ p, (after.store.entries p).filter (fun row => row ∉ txn.insertRows) =
    (before.store.entries p).filter (fun row => row ∉ txn.insertRows)
  rows : ∀ row, row ∉ txn.insertRows → (after.store.rows row).data = (before.store.rows row).data ∧
    (after.store.rows row).manager.wts = (before.store.rows row).manager.wts
  absent : ∀ key value row, before.store.indexRead (hash key) = some row → row ∈ txn.insertRows →
    (before.store.rows row).manager.wts = 0 → after.store.indexRead (hash key) = none ∧
    (play (Db.next hash) after [⟨.begin_txn, .begun after.nextId⟩,
      ⟨.put after.nextId key value, .code .OK⟩, ⟨.commit after.nextId, .code .OK⟩]).isSome = true

/-- The index leads to no freed row. -/
def Store.AllLive (s : Store) : Prop := ∀ p, ∀ row ∈ s.entries p, (s.rows row).live = true

/-- A transaction that ends without committing has inserted no row. -/
def DropsNoInsert (_ : List Event) (db : Db) (event : Event) : Prop :=
  ∀ txn ∈ db.discards event.call, txn.insertRows = []

instance (trace : List Event) (db : Db) (event : Event) : Decidable (DropsNoInsert trace db event) :=
  inferInstanceAs (Decidable (∀ txn ∈ db.discards event.call, txn.insertRows = []))

section Discards
variable {hash : Bytes → Nat} {db next : Db} {event : Event} {txn : Txn}

theorem Store.outdated_iff (s : Store) (txn : Txn) : s.outdated txn = true ↔
    ∃ acc ∈ txn.accesses, txn.startTs < (s.rows acc.origRow).manager.wts := by
  simp [Store.outdated]

theorem discards_open {call : Call} (ends : db.discards call = some txn) :
    ∃ t, call.target = some t ∧ db.txns t = some txn := by
  cases call with
  | abort_txn t => exact ⟨t, rfl, ends⟩
  | commit t => exact ⟨t, rfl, (Option.filter_eq_some_iff.mp ends).1⟩
  | _ => cases ends

theorem discards_failed {t : Nat} {acc : Access Nat Columns} (opened : db.txns t = some txn)
    (member : acc ∈ txn.accesses) (newer : txn.startTs < (db.store.rows acc.origRow).manager.wts) :
    db.discards (.commit t) = some txn := by
  rw [Db.discards, opened, Option.filter_eq_some_iff]
  exact ⟨rfl, (Store.outdated_iff _ _).mpr ⟨acc, member, newer⟩⟩

/-- The call that discards a transaction drops it. -/
theorem discards_did (did : Did hash db event next) (ends : db.discards event.call = some txn) :
    ∃ t, db.txns t = some txn ∧ next = db.dropped t txn := by
  obtain ⟨t, target, found⟩ := discards_open ends
  cases did with
  | closed target' closed =>
    rw [target] at target'
    cases target'
    rw [found] at closed
    cases closed
  | committed opened _ current =>
    cases target
    rw [found] at opened
    cases opened
    obtain ⟨acc, member, newer⟩ := (Store.outdated_iff _ _).mp (Option.filter_eq_some_iff.mp ends).2
    exact absurd newer (Nat.not_lt.mpr (current acc member))
  | failed opened =>
    cases target
    rw [found] at opened
    cases opened
    exact ⟨_, found, rfl⟩
  | aborted opened =>
    cases target
    rw [found] at opened
    cases opened
    exact ⟨_, found, rfl⟩
  | _ => cases ends

theorem dropped_nothing (db : Db) (t : Nat) (kept : txn.insertRows = []) :
    (db.dropped t txn).store = db.store := by
  have rows : freed txn.insertRows db.store.rows = db.store.rows := by
    funext row
    simp [freed, kept]
  simp only [Db.dropped, Db.setTxn, rows]

theorem Store.AllLive.load {s : Store} (live : s.AllLive)
    (bounded : ∀ p, ∀ row ∈ s.entries p, row < s.curTabSize) (p : Nat) (columns : Columns) :
    (s.load p columns).AllLive := by
  intro q row member
  have old : ∀ q, row ∈ s.entries q → ((s.load p columns).rows row).live = true := by
    intro q before
    rw [load_rows_old _ _ (bounded q row before)]
    exact live q row before
  rw [load_entries] at member
  split at member
  next =>
    rcases List.mem_cons.mp member with rfl | before
    · rw [load_rows_new]
    · exact old p before
  next => exact old q member

/-- A call that frees nothing keeps the index free of freed rows. -/
theorem allLive_did (sound : Sound db) (did : Did hash db event next) (live : db.store.AllLive)
    (kept : ∀ txn, db.discards event.call = some txn → txn.insertRows = []) : next.store.AllLive := by
  have same : ∀ {txn t}, db.discards event.call = some txn → (db.dropped t txn).store.AllLive :=
    fun ends => (dropped_nothing _ _ (kept _ ends)).symm ▸ live
  cases did with
  | inserted => exact live.load (fun p row member => (sound.alloc p row member).1) _ _
  | committed opened _ _ =>
    intro p row member
    have here := (sound.opened _ _ opened).2
    have frame := wroteBack_frame _ db.store.rows db.store.timestamp row here.key here.nodup
    exact frame.2.2.1.trans (live p row member)
  | failed opened member newer => exact same (discards_failed opened member newer)
  | aborted opened => exact same opened
  | _ => exact live

theorem allLive_run {file : List (Bytes × Bytes)} {trace : List Event}
    (run : Run (Step hash) DropsNoInsert (initial hash file) trace db) : db.store.AllLive := by
  have both := run.invariant (fun _ db => Sound db ∧ db.store.AllLive)
    ⟨initial_sound hash file, fun p row member => ((initEngine_loaded hash file).alloc p row member).2.2⟩
    (fun _ _ _ _ held fits taken => by
      obtain ⟨sound, live⟩ := held
      have did := did_of_step sound taken
      exact ⟨sound_did sound did, allLive_did sound did live fits⟩)
  exact both.2

/-- A row a transaction inserted is in the index. -/
theorem Sound.listed (sound : Sound db) {t row : Nat} (opened : db.txns t = some txn)
    (member : row ∈ txn.insertRows) : ∃ p, row ∈ db.store.entries p := by
  have here := (sound.opened t txn opened).2
  obtain ⟨_, acc, found, rfl, _⟩ := here.inserted row member
  exact ⟨_, Store.entries_of_indexRead (here.head _ (List.mem_map_of_mem found))⟩

theorem undone_iff (sound : Sound db) (did : Did hash db event next)
    (ends : db.discards event.call = some txn) :
    Undone hash db next txn ↔ txn.insertRows = [] ∧ db.store.AllLive := by
  obtain ⟨t, opened, rfl⟩ := discards_did did ends
  constructor
  · intro undone
    have kept : txn.insertRows = [] := by
      apply List.eq_nil_iff_forall_not_mem.mpr
      intro row member
      obtain ⟨p, listed⟩ := sound.listed opened member
      have alive := undone.live p row listed
      have gone : ((db.dropped t txn).store.rows row).live = false := by
        simp [Db.dropped, Db.setTxn, freed, member, Row.freeRow]
      rw [gone] at alive
      cases alive
    refine ⟨kept, fun p row member => ?_⟩
    have alive := undone.live p row
    rw [dropped_nothing db t kept] at alive
    exact alive member
  · rintro ⟨kept, live⟩
    have same := dropped_nothing db t kept
    refine ⟨?_, by rw [same]; exact live, by simp [same], by simp [same], ?_⟩
    · intro row member
      rw [kept] at member
      cases member
    · intro key value row _ member
      rw [kept] at member
      cases member

/-- Ending a transaction that inserted nothing completes. -/
theorem discards_completes (hash : Bytes → Nat) (sound : Sound db) (live : db.store.AllLive) {call : Call}
    (ends : db.discards call = some txn) (kept : txn.insertRows = []) :
    ∃ answer next, Step hash db ⟨call, answer⟩ next := by
  obtain ⟨t, target, opened⟩ := discards_open ends
  have here := (sound.opened t txn opened).2
  have alive : ∀ acc ∈ txn.accesses, (db.store.rows acc.origRow).live = true :=
    fun acc member => live _ _ (Store.entries_of_indexRead (here.head _ (List.mem_map_of_mem member)))
  have completes : ∀ rc, rc = .RCOK ∨ rc = .Abort → ∃ result, db.finish t txn rc = some result := by
    intro rc kind
    obtain ⟨⟨rc', rows, ts, _⟩, done⟩ :=
      finish_completes t kind (fun _ _ => sound.free _) (fun _ _ => sound.past _) here.nodup kept alive
    exact ⟨_, by rw [Db.finish, done]⟩
  cases call with
  | commit t' =>
    cases target
    obtain ⟨⟨rc, after⟩, done⟩ := completes .RCOK (.inl rfl)
    exact ⟨.code (Rc.ofFinish rc), after, step_of_perform (by simp [Db.perform, Db.commit, opened, done])⟩
  | abort_txn t' =>
    cases target
    obtain ⟨⟨rc, after⟩, done⟩ := completes .Abort (.inr rfl)
    exact ⟨.code .OK, after, step_of_perform (by simp [Db.perform, Db.abort_txn, opened, done])⟩
  | _ => cases ends

end Discards

/-- In any reachable state, a transaction that ends without committing is undone exactly when
it inserted no row and no freed row was left in the index before. So it is in every run whose
discarded transactions inserted nothing. -/
theorem discard_undone_iff (hash : Bytes → Nat) (file : List (Bytes × Bytes)) :
    (∀ trace db, Run (Step hash) Always (initial hash file) trace db →
      ∀ event next txn, db.discards event.call = some txn → Step hash db event next →
        (Undone hash db next txn ↔ txn.insertRows = [] ∧ db.store.AllLive)) ∧
    (∀ trace db, Run (Step hash) DropsNoInsert (initial hash file) trace db → db.store.AllLive ∧
      ∀ call txn, db.discards call = some txn → txn.insertRows = [] →
        ∃ answer next, Step hash db ⟨call, answer⟩ next ∧ Undone hash db next txn) := by
  refine ⟨?_, ?_⟩
  · intro trace db run event next txn ends taken
    have sound := sound_run run
    exact undone_iff sound (did_of_step sound taken) ends
  · intro trace db run
    have sound := sound_run run
    have live := allLive_run run
    refine ⟨live, fun call txn ends kept => ?_⟩
    obtain ⟨answer, next, taken⟩ := discards_completes hash sound live ends kept
    exact ⟨answer, next, taken, (undone_iff sound (did_of_step sound taken) ends).mpr ⟨kept, live⟩⟩

/-- An aborted update of a committed key. -/
theorem discard_undone_update :
    ∃ db txn next answer, db.discards (.abort_txn 2) = some txn ∧
      Step numeral db ⟨.abort_txn 2, answer⟩ next ∧ Undone numeral db next txn := by
  have played : ((playUnder (Db.next numeral) DropsNoInsert [] (initial numeral [])
      [⟨.begin_txn, .begun 1⟩, ⟨.put 1 (bytes "a") (bytes "x"), .code .OK⟩, ⟨.commit 1, .code .OK⟩,
        ⟨.begin_txn, .begun 2⟩, ⟨.put 2 (bytes "a") (bytes "y"), .code .OK⟩]).map (fun db =>
      (db.discards (.abort_txn 2)).any (fun txn => txn.insertRows = []))) = some true := by decide +kernel
  obtain ⟨db, ran, checked⟩ := Option.map_eq_some_iff.mp played
  obtain ⟨txn, ends, kept⟩ := (Option.any_eq_true _ _).mp checked
  obtain ⟨_, completes⟩ := (discard_undone_iff numeral []).2 _ db (run_of_playUnder ran)
  obtain ⟨answer, next, taken, undone⟩ := completes _ txn ends (of_decide_eq_true kept)
  exact ⟨db, txn, next, answer, ends, taken, undone⟩

/-- A put of a new key and an abort leave the key's index entry behind, leading to a freed row. -/
theorem discard_leaves_entry :
    ∃ db txn next, Run (Step numeral) Always (initial numeral [])
        [⟨.begin_txn, .begun 1⟩, ⟨.put 1 (bytes "a") (bytes "x"), .code .OK⟩] db ∧
      db.discards (.abort_txn 1) = some txn ∧ Step numeral db ⟨.abort_txn 1, .code .OK⟩ next ∧
      ¬ Undone numeral db next txn := by
  have played : ((play (Db.next numeral) (initial numeral [])
      [⟨.begin_txn, .begun 1⟩, ⟨.put 1 (bytes "a") (bytes "x"), .code .OK⟩]).bind (fun db =>
      (db.next numeral ⟨.abort_txn 1, .code .OK⟩).map (fun next => (db.discards (.abort_txn 1)).isSome &&
        (next.store.entries (numeral (bytes "a"))).contains 10 && !(next.store.rows 10).live))) =
      some true := by decide +kernel
  obtain ⟨db, first, rest⟩ := Option.bind_eq_some_iff.mp played
  obtain ⟨next, second, checked⟩ := Option.map_eq_some_iff.mp rest
  simp only [Bool.and_eq_true, List.contains_iff_mem, Bool.not_eq_true'] at checked
  obtain ⟨⟨opened, listed⟩, gone⟩ := checked
  obtain ⟨txn, found⟩ := Option.isSome_iff_exists.mp opened
  refine ⟨db, txn, next, run_of_play first, found, second, fun undone => ?_⟩
  rw [undone.live _ 10 listed] at gone
  cases gone

end DataAgentDB.Kv
