import DataAgentDB.Kv.Sound
import DataAgentDB.Occ.Release

/-! What a commit of the store releases. `cleanup` frees the rows an aborted transaction inserted
before `OptCC::validate` releases the latches it holds on them. -/

namespace DataAgentDB.Kv
open Storage Server TxnMan LabelledRun Occ

theorem Opened.distinct {s : Store} {txn : Txn} (opened : Opened s txn) : Distinct s.rows txn.accesses := by
  refine opened.nodup.imp_of_mem (fun {a b} first second apart same => apart ?_)
  have key := ((sortKey_eq_iff _ _).mp same).2
  have heads : some a = some b := by
    rw [← opened.head a first, ← opened.head b second, key]
  exact Option.some.inj heads

instance (check : Nat → Bool) (txn : Txn) (rows : Nat → Row Columns) : Decidable (Spared check txn rows) :=
  inferInstanceAs (Decidable (∀ acc ∈ txn.accesses, _ → _ ∧ _))

/-- In any reachable state and for any outcome of the row checks, `OptCC::validate` of an open
transaction releases what it latched exactly when the latched rows are live and, if a check
fails, not its own new rows. A commit that completes has done so. -/
theorem commit_releases_iff (hash : Bytes → Nat) (file : List (Bytes × Bytes)) (trace : List Event) (db : Db)
    (run : Run (Step hash) Always (initial hash file) trace db) (t : Nat) (txn : Txn)
    (opened : db.txns t = some txn) :
    (∀ check, ReleasesOnce check txn db.store.rows ↔ Spared check txn db.store.rows) ∧
    ∀ answer next, Step hash db ⟨.commit t, answer⟩ next →
      ReleasesOnce (fun row => (db.store.rows row).validate txn.startTs) txn db.store.rows := by
  have distinct := ((sound_run run).opened t txn opened).2.distinct
  refine ⟨fun check => releasesOnce_iff check distinct, fun answer next taken => ?_⟩
  have performed := perform_of_step taken
  simp only [Db.perform, Db.commit, opened, Db.finish, finish, ↓reduceIte] at performed
  split at performed
  next => cases performed
  next rc db' finished =>
    split at finished
    next => cases finished
    next rc' rows ts txn' done => exact releasesOnce_of_validate distinct done

/-- A read row and an updated row, the read one committed by another client since. -/
theorem commit_releases_update :
    ∃ (db : Db) (txn : Txn), db.txns 1 = some txn ∧
      (db.next numeral ⟨.commit 1, .code .ABORT⟩).isSome = true ∧
      ReleasesOnce (fun row => (db.store.rows row).validate txn.startTs) txn db.store.rows := by
  have played : ((play (Db.next numeral) (initial numeral [(bytes "a", bytes "x"), (bytes "b", bytes "y")])
      [⟨.begin_txn, .begun 1⟩, ⟨.get 1 (bytes "b"), .value (bytes "y")⟩,
        ⟨.put 1 (bytes "a") (bytes "z"), .code .OK⟩, ⟨.begin_txn, .begun 2⟩,
        ⟨.put 2 (bytes "b") (bytes "w"), .code .OK⟩, ⟨.commit 2, .code .OK⟩]).map (fun db =>
      (db.txns 1).any (fun txn => Spared (fun row => (db.store.rows row).validate txn.startTs) txn
        db.store.rows) && (db.next numeral ⟨.commit 1, .code .ABORT⟩).isSome)) = some true := by
    decide +kernel
  obtain ⟨db, ran, checked⟩ := Option.map_eq_some_iff.mp played
  obtain ⟨spared, completes⟩ := (Bool.and_eq_true _ _).mp checked
  obtain ⟨txn, opened, spared⟩ := (Option.any_eq_true _ _).mp spared
  have releases := (commit_releases_iff numeral _ _ db (run_of_play ran) 1 txn opened).1
  exact ⟨db, txn, opened, completes, (releases _).mpr (of_decide_eq_true spared)⟩

/-- A new row that sorts before the row failing its check is latched, freed, and then released. -/
theorem commit_releases_freed :
    ∃ db txn, Run (Step numeral) Always (initial numeral [(bytes "b", bytes "y")])
        [⟨.begin_txn, .begun 1⟩, ⟨.get 1 (bytes "b"), .value (bytes "y")⟩,
          ⟨.put 1 (bytes "a") (bytes "z"), .code .OK⟩, ⟨.begin_txn, .begun 2⟩,
          ⟨.put 2 (bytes "b") (bytes "w"), .code .OK⟩, ⟨.commit 2, .code .OK⟩] db ∧
      db.txns 1 = some txn ∧
      touches (fun row => (db.store.rows row).validate txn.startTs) txn db.store.rows =
        [.latch 11, .latch 10, .free 11, .release 11, .release 10] ∧
      ¬ ReleasesOnce (fun row => (db.store.rows row).validate txn.startTs) txn db.store.rows := by
  have played : ((play (Db.next numeral) (initial numeral [(bytes "b", bytes "y")])
      [⟨.begin_txn, .begun 1⟩, ⟨.get 1 (bytes "b"), .value (bytes "y")⟩,
        ⟨.put 1 (bytes "a") (bytes "z"), .code .OK⟩, ⟨.begin_txn, .begun 2⟩,
        ⟨.put 2 (bytes "b") (bytes "w"), .code .OK⟩, ⟨.commit 2, .code .OK⟩]).map (fun db =>
      (db.txns 1).any (fun txn =>
        decide (touches (fun row => (db.store.rows row).validate txn.startTs) txn db.store.rows =
          [.latch 11, .latch 10, .free 11, .release 11, .release 10])))) = some true := by
    decide +kernel
  obtain ⟨db, ran, checked⟩ := Option.map_eq_some_iff.mp played
  obtain ⟨txn, opened, trail⟩ := (Option.any_eq_true _ _).mp checked
  have trail := of_decide_eq_true trail
  refine ⟨db, txn, run_of_play ran, opened, trail, fun once => ?_⟩
  have alive := once.alive [.latch 11, .latch 10, .free 11] 11 [.release 10] trail
  simp [liveAfter] at alive

end DataAgentDB.Kv
