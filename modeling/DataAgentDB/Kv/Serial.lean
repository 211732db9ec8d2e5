import DataAgentDB.Kv.Durability
import DataAgentDB.Kv.Observed
import DataAgentDB.Lib.CommitReplay
import Mathlib.Data.List.Permutation

/-! Serializability of the calls, with absent keys. A lookup that finds nothing leaves nothing
for `OptCC::validate` to check, and one that finds an uncommitted insert finds it unversioned. -/

namespace DataAgentDB.Kv
open Storage Server TxnMan LabelledRun CommitReplay

/-- What a committed key holds; a row nobody has committed counts as absent. -/
def Db.settled (hash : Bytes → Nat) (db : Db) (key : Bytes) : Option Bytes :=
  if (db.store.indexRead (hash key)).any db.uncommitted then none else db.readable hash key

/-- What a transaction leaves under a key. -/
def installs (trace : List Event) (t : Nat) (key : Bytes) : Option (Option Bytes) :=
  (lastPut trace t key).map some

/-- Every get of the transaction answered with its own last put, or else with what the map has. -/
def Answered (trace : List Event) (t : Nat) (map : Bytes → Option Bytes) : Prop :=
  ∀ got ∈ gets trace t, got.answer = Answer.ofGet (got.own.or (map got.key))

instance (trace : List Event) (t : Nat) (map : Bytes → Option Bytes) : Decidable (Answered trace t map) :=
  inferInstanceAs (Decidable (∀ got ∈ gets trace t, _))

/-- Some order of the committed transactions, run one after another, gives every answer of
their gets and, once all handles are closed, the contents of the store. -/
def Serializable (hash : Bytes → Nat) (init : Db) (trace : List Event) (db : Db) : Prop :=
  ∃ order, order.Perm (committed trace) ∧
    Serial (installs trace) (Answered trace) (init.readable hash) order ∧
    ((∀ t, db.txns t = none) → ∀ key, 0 ∉ key →
      db.readable hash key = replay (installs trace) (init.readable hash) order key)

/-- The open transaction whose commit passes `OptCC::validate`. -/
def Db.passes (db : Db) : Call → Option Nat
  | .commit t => if (db.txns t).any (fun txn => !db.store.outdated txn) then some t else none
  | _ => none

/-- At a commit, the keys whose gets found a value are committed, and those whose gets found
none are not. Nobody discards a row that another has committed. -/
def ReadsStand (hash : Bytes → Nat) (trace : List Event) (db : Db) (event : Event) : Prop :=
  Calm hash db event ∧ SparesCommitted trace db event ∧
    ∀ t ∈ db.passes event.call, ∀ got ∈ gets trace t, got.own = none →
      (got.answer = .code .NOT_FOUND ↔ db.settled hash got.key = none)

instance (hash : Bytes → Nat) (trace : List Event) (db : Db) (event : Event) :
    Decidable (ReadsStand hash trace db event) :=
  inferInstanceAs (Decidable (_ ∧ _ ∧ ∀ t ∈ db.passes event.call, ∀ got ∈ gets trace t, _))

structure Replayed (hash : Bytes → Nat) (init : Db) (trace : List Event) (db : Db) : Prop where
  ended : ∀ t ∈ committed trace, db.txns t = none ∧ t < db.nextId
  map : ∀ key, 0 ∉ key → db.settled hash key =
    replay (installs trace) (init.readable hash) (committed trace) key
  serial : Serial (installs trace) (Answered trace) (init.readable hash) (committed trace)

section Steps
variable {hash : Bytes → Nat} {init db next : Db} {trace : List Event} {event : Event}

/-- Without open transactions everything in the store is settled. -/
theorem settled_closed (sound : Sound db) (closed : ∀ t, db.txns t = none) (key : Bytes) :
    db.settled hash key = db.readable hash key := by
  have clear : ∀ row, db.uncommitted row = false := by
    intro row
    rw [Bool.eq_false_iff]
    intro dirty
    obtain ⟨⟨t, txn, opened, _⟩, _⟩ := (uncommitted_iff sound).mp dirty
    rw [closed t] at opened
    cases opened
  unfold Db.settled
  cases db.store.indexRead (hash key) <;> simp [clear]

theorem settled_absent {key : Bytes} (absent : db.store.indexRead (hash key) = none) :
    db.settled hash key = none := by
  simp [Db.settled, Db.readable, absent]

theorem settled_head (db : Db) {key : Bytes} {row : Nat} (found : db.store.indexRead (hash key) = some row)
    (clean : 0 ∉ key) : db.settled hash key =
      if db.uncommitted row = false ∧ (db.store.rows row).live ∧ (db.store.rows row).data.key = key then
        some (db.store.rows row).data.value else none := by
  unfold Db.settled Db.readable
  rw [found, cStr_of_no_nul clean]
  cases dirty : db.uncommitted row <;> simp [dirty]

/-- A key whose head and its row stay as they were. -/
theorem settled_congr {key : Bytes} (clean : 0 ∉ key)
    (head : next.store.indexRead (hash key) = db.store.indexRead (hash key))
    (rows : ∀ row, db.store.indexRead (hash key) = some row →
      next.store.rows row = db.store.rows row ∧ next.uncommitted row = db.uncommitted row) :
    next.settled hash key = db.settled hash key := by
  cases found : db.store.indexRead (hash key) with
  | none => rw [settled_absent found, settled_absent (head.trans found)]
  | some row =>
    obtain ⟨same, dirty⟩ := rows row found
    rw [settled_head db found clean, settled_head next (head.trans found) clean, same, dirty]

/-- Discarding a transaction takes back what it alone has seen. -/
theorem settled_dropped {t : Nat} {txn : Txn} {key : Bytes} (sound : Sound db)
    (opened : db.txns t = some txn) (clean : 0 ∉ key)
    (spared : ∀ row ∈ txn.insertRows, (db.store.rows row).manager.wts = 0) :
    (db.dropped t txn).settled hash key = db.settled hash key := by
  cases found : db.store.indexRead (hash key) with
  | none =>
    rw [settled_absent found]
    exact settled_absent found
  | some row =>
    by_cases own : row ∈ txn.insertRows
    · have dirty : db.uncommitted row = true :=
        (uncommitted_iff sound).mpr ⟨⟨t, txn, opened, own⟩, spared row own⟩
      have gone : ((db.dropped t txn).store.rows row).live = false := by
        simp [Db.dropped, Db.setTxn, freed, own, Row.freeRow]
      rw [settled_head db found clean, settled_head (db.dropped t txn) found clean, dirty, gone]
      simp
    · refine settled_congr clean rfl (fun row' found' => ?_)
      rw [found] at found'
      cases found'
      have whole := (freed_frame txn.insertRows db.store.rows row).2.2.2 own
      exact ⟨whole, uncommitted_congr sound (sound.dropped opened)
        (congrArg (fun row => row.manager.wts) whole) (inserts_ended opened own)⟩

/-- A new row is not there for others. -/
theorem settled_grown {t : Nat} {txn : Txn} {p : Nat} {columns : Columns} {key : Bytes} (sound : Sound db)
    (opened : db.txns t = some txn) (absent : db.store.indexRead p = none) (clean : 0 ∉ key) :
    (db.grown t txn p columns).settled hash key = db.settled hash key := by
  have sound' := sound.grown columns opened absent
  have head : (db.grown t txn p columns).store.indexRead (hash key) =
      if hash key = p then some db.store.curTabSize else db.store.indexRead (hash key) :=
    load_indexRead db.store p (hash key) columns
  by_cases here : hash key = p
  · rw [if_pos here] at head
    have dirty : (db.grown t txn p columns).uncommitted db.store.curTabSize = true := by
      refine (uncommitted_iff sound').mpr ⟨⟨t, _, Function.update_self _ _ _, ?_⟩, ?_⟩
      · exact List.mem_append_right _ (List.mem_singleton.mpr rfl)
      · exact congrArg (fun row => row.manager.wts) (load_rows_new db.store p columns)
    have before : db.store.indexRead (hash key) = none := by rw [here, absent]
    rw [settled_absent before, settled_head _ head clean, dirty]
    simp
  · rw [if_neg here] at head
    refine settled_congr clean head (fun row found => ?_)
    have old := (sound.alloc _ row (Store.entries_of_indexRead found)).1
    have whole : (db.grown t txn p columns).store.rows row = db.store.rows row := load_rows_old _ _ old
    exact ⟨whole, uncommitted_congr sound sound' (congrArg (fun row => row.manager.wts) whole)
      (inserts_kept opened (by simp [old.ne]))⟩

/-- Only commits change what is settled. -/
theorem settled_did (sound : Sound db) (spares : SparesCommitted trace db event)
    (did : Did hash db event next) (quiet : event.commits = none) {key : Bytes} (clean : 0 ∉ key) :
    next.settled hash key = db.settled hash key := by
  cases did with
  | begun =>
    exact settled_congr clean rfl (fun row _ =>
      ⟨rfl, uncommitted_congr sound sound.begun rfl (inserts_begun sound)⟩)
  | closed | missing | getConflict | putConflict => rfl
  | getMismatch opened _ _ fetched | got opened _ _ fetched | putMismatch opened _ _ fetched =>
    exact settled_congr clean rfl (fun row _ => ⟨rfl, uncommitted_congr sound
      (sound.setTxn opened fetched.opened fetched.inserts) rfl (inserts_kept opened (by rw [fetched.inserts]))⟩)
  | updated opened _ _ _ _ entered =>
    exact settled_congr clean rfl (fun row _ => ⟨rfl, uncommitted_congr sound
      (sound.setTxn opened entered.opened entered.inserts) rfl (inserts_kept opened (by rw [entered.inserts]))⟩)
  | inserted opened absent => exact settled_grown sound opened absent clean
  | committed => cases quiet
  | failed opened member newer =>
    exact settled_dropped sound opened clean (spares.2 _ (discards_failed opened member newer))
  | aborted opened => exact settled_dropped sound opened clean (spares.2 _ opened)

/-- A row that has been committed. -/
theorem uncommitted_of_stamped (sound : Sound db) {row : Nat} (stamped : (db.store.rows row).manager.wts ≠ 0) :
    db.uncommitted row = false := by
  rw [Bool.eq_false_iff]
  exact fun dirty => stamped ((uncommitted_iff sound).mp dirty).2

theorem install_unput {t : Nat} {key : Bytes} (last : lastPut trace t key = none) (map : Bytes → Option Bytes) :
    install (installs trace) map t key = map key :=
  install_untouched _ (by simp [installs, last]) _

section Commit
variable {t : Nat} {txn : Txn} {key : Bytes}

/-- A key whose row the commit writes back. -/
theorem settled_wrote (sound : Sound db) (recorded : Recorded hash trace db) (observed : Observed hash trace db)
    (opened : db.txns t = some txn) (clean : 0 ∉ key) {acc : Access Nat Columns} (member : acc ∈ txn.accesses)
    (written : acc.type = .WR) (found : db.store.indexRead (hash key) = some acc.origRow)
    (live : (db.store.rows acc.origRow).live = true)
    (current : (db.store.rows acc.origRow).manager.wts ≤ txn.startTs)
    (whole : (db.installed t txn).store.rows acc.origRow =
      (db.store.rows acc.origRow).write acc.data db.store.timestamp) :
    (db.installed t txn).settled hash key = install (installs trace) (db.settled hash) t key := by
  have here := (sound.opened t txn opened).2
  have tracked := recorded.tracked t txn opened
  have clear : (db.installed t txn).uncommitted acc.origRow = false := by
    refine uncommitted_of_stamped (sound.installed opened) ?_
    rw [whole]
    exact (Nat.zero_lt_of_lt (sound.past acc.origRow)).ne'
  rw [settled_head (db.installed t txn) found clean, clear, whole]
  cases last : lastPut trace t key with
  | some value =>
    have only : acc = ⟨.WR, acc.origRow, ⟨key, value⟩⟩ :=
      List.inj_on_of_nodup_map here.nodup member (tracked.put_at found last) rfl
    have put : installs trace t key = some (some value) := by simp [installs, last]
    rw [install_written _ put]
    simp [Row.write, live, congrArg Access.data only]
  | none =>
    rw [install_unput last, settled_head db found clean]
    by_cases name : acc.data.key = key
    · have foreign : ¬ OwnPut hash trace db.store t acc := fun own => own.2 (name ▸ last)
      have data := tracked.unput acc member foreign current
      have committed : db.uncommitted acc.origRow = false := by
        rw [Bool.eq_false_iff]
        intro dirty
        have inserted := ((uncommitted_iff sound).mp dirty).1
        exact foreign (observed.authored t txn opened acc member written inserted)
      rw [← data, committed]
      simp [Row.write]
    · have name' : (db.store.rows acc.origRow).data.key ≠ key := here.key acc member ▸ name
      simp [Row.write, name, name']

/-- A key whose row the commit leaves as it is. -/
theorem settled_unwritten (sound : Sound db) (recorded : Recorded hash trace db) (opened : db.txns t = some txn)
    (clean : 0 ∉ key) {row : Nat} (found : db.store.indexRead (hash key) = some row)
    (unwritten : ∀ acc ∈ txn.accesses, acc.origRow = row → acc.type ≠ .WR)
    (same : (db.installed t txn).store.rows row = db.store.rows row) :
    (db.installed t txn).settled hash key = install (installs trace) (db.settled hash) t key := by
  have foreign : lastPut trace t key = none := by
    by_contra put
    obtain ⟨value, last⟩ := Option.ne_none_iff_exists'.mp put
    exact unwritten _ ((recorded.tracked t txn opened).put_at found last) rfl rfl
  have outside : row ∉ txn.insertRows := by
    intro member
    obtain ⟨_, acc, inTable, origin, kind⟩ := (sound.opened t txn opened).2.inserted row member
    exact unwritten acc inTable origin kind
  rw [install_unput foreign]
  refine settled_congr clean rfl (fun row' found' => ?_)
  rw [found] at found'
  cases found'
  exact ⟨same, uncommitted_congr sound (sound.installed opened) (congrArg (fun row => row.manager.wts) same)
    (inserts_ended opened outside)⟩

/-- A commit settles its transaction's puts. -/
theorem settled_installed (sound : Sound db) (recorded : Recorded hash trace db) (observed : Observed hash trace db)
    (opened : db.txns t = some txn) (live : ∀ acc ∈ txn.accesses, (db.store.rows acc.origRow).live = true)
    (current : ∀ acc ∈ txn.accesses, (db.store.rows acc.origRow).manager.wts ≤ txn.startTs) (clean : 0 ∉ key) :
    (db.installed t txn).settled hash key = install (installs trace) (db.settled hash) t key := by
  cases found : db.store.indexRead (hash key) with
  | none =>
    rw [install_unput ((recorded.tracked t txn opened).unput_of_absent found), settled_absent found]
    exact settled_absent found
  | some row =>
    rcases wroteBack_cases (sound.opened t txn opened).2.nodup db.store.rows db.store.timestamp row with
      ⟨acc, member, rfl, written, same⟩ | ⟨unwritten, same⟩
    · exact settled_wrote sound recorded observed opened clean member written found (live acc member)
        (current acc member) same
    · exact settled_unwritten sound recorded opened clean found unwritten same

end Commit

/-- At its commit, what a transaction's gets answered is what is settled. -/
theorem answered_commit {t : Nat} {txn : Txn} (observed : Observed hash trace db)
    (opened : db.txns t = some txn)
    (current : ∀ acc ∈ txn.accesses, (db.store.rows acc.origRow).manager.wts ≤ txn.startTs)
    (stand : ∀ got ∈ gets trace t, got.own = none →
      (got.answer = .code .NOT_FOUND ↔ db.settled hash got.key = none))
    {map : Bytes → Option Bytes} (same : ∀ key, 0 ∉ key → db.settled hash key = map key) :
    Answered trace t map := by
  intro got member
  have found := stand got member
  cases observed.seen t txn opened got member with
  | own => rfl
  | missing clean =>
    have absent := (found rfl).mp rfl
    rw [same _ clean] at absent
    simp [absent, Answer.ofGet]
  | @copied key value row clean head held unchanged =>
    obtain ⟨acc, inTable, rfl⟩ := List.mem_map.mp held
    have data := unchanged (current acc inTable)
    have settled : db.settled hash key = some value := by
      have present : db.settled hash key ≠ none := fun absent => by simpa using (found rfl).mpr absent
      rw [settled_head db head clean] at present ⊢
      split at present
      next holds => rw [if_pos holds, data]
      next => exact absurd rfl present
    rw [same _ clean] at settled
    simp [settled, Answer.ofGet]

theorem commits_did {t : Nat} (did : Did hash db event next) (commit : event.commits = some t) :
    ∃ txn, db.txns t = some txn ∧ event = ⟨.commit t, .code .OK⟩ ∧ next = db.installed t txn ∧
      (∀ acc ∈ txn.accesses, (db.store.rows acc.origRow).live = true) ∧
      ∀ acc ∈ txn.accesses, (db.store.rows acc.origRow).manager.wts ≤ txn.startTs := by
  cases did with
  | committed opened live current =>
    cases commit
    exact ⟨_, opened, rfl, rfl, live, current⟩
  | closed target closed =>
    unfold Event.commits at commit
    split at commit
    next same => cases same
    next => cases commit
  | _ => cases commit

theorem replayed_did (replayed : Replayed hash init trace db) (sound : Sound db)
    (recorded : Recorded hash trace db) (observed : Observed hash trace db)
    (stands : ReadsStand hash trace db event) (did : Did hash db event next) :
    Replayed hash init (trace ++ [event]) next := by
  have ended : ∀ t ∈ committed trace, next.txns t = none ∧ t < next.nextId :=
    fun t member => ended_did (replayed.ended t member) did
  have installed : ∀ t ∈ committed trace, installs (trace ++ [event]) t = installs trace t := by
    intro t member
    funext key
    have silent := silent_of_closed (replayed.ended t member).1 did trace
    simp only [installs, lastPut_silent trace (silent.1 key)]
  have answered : ∀ t ∈ committed trace, Answered (trace ++ [event]) t = Answered trace t := by
    intro t member
    have silent := silent_of_closed (replayed.ended t member).1 did trace
    funext map
    simp only [Answered, gets_snoc, silent.2, Option.toList_none, List.append_nil]
  have front : replay (installs (trace ++ [event])) (init.readable hash) (committed trace) =
      replay (installs trace) (init.readable hash) (committed trace) := replay_congr _ _ _ installed
  have serial : Serial (installs (trace ++ [event])) (Answered (trace ++ [event])) (init.readable hash)
      (committed trace) := (serial_congr _ _ _ installed answered).mpr replayed.serial
  cases commit : event.commits with
  | none =>
    have same : committed (trace ++ [event]) = committed trace := by rw [committed_snoc, commit]; simp
    rw [← same] at ended serial
    refine ⟨ended, fun key clean => ?_, serial⟩
    rw [same, front, settled_did sound stands.2.1 did commit clean]
    exact replayed.map key clean
  | some t =>
    have same : committed (trace ++ [event]) = committed trace ++ [t] := by rw [committed_snoc, commit]; simp
    obtain ⟨txn, opened, rfl, rfl, live, current⟩ := commits_did did commit
    have quiet : installs (trace ++ [⟨.commit t, .code .OK⟩]) t = installs trace t := by
      funext key
      have silent : Event.puts t key ⟨.commit t, .code .OK⟩ = none := rfl
      simp only [installs, lastPut_silent trace silent]
    have passes : t ∈ db.passes (.commit t) := by
      have valid : db.store.outdated txn = false := by
        rw [Bool.eq_false_iff]
        intro outdated
        obtain ⟨acc, member, newer⟩ := (Store.outdated_iff _ _).mp outdated
        exact absurd newer (Nat.not_lt.mpr (current acc member))
      simp [Db.passes, opened, valid]
    refine ⟨?_, ?_, ?_⟩
    · intro u member
      rw [same, List.mem_append] at member
      rcases member with before | last
      · exact ended u before
      · cases List.mem_singleton.mp last
        exact ⟨Function.update_self _ _ _, (sound.opened t txn opened).1⟩
    · intro key clean
      rw [same, replay_snoc, front, settled_installed sound recorded observed opened live current clean]
      simp only [install, quiet, replayed.map key clean]
    · rw [same, serial_snoc, front]
      refine ⟨serial, ?_⟩
      have answers := answered_commit observed opened current (stands.2.2 t passes) replayed.map
      intro got member
      rw [gets_snoc] at member
      exact answers got (by simpa [Event.got] using member)

end Steps

/-- Every run is serializable in which no call conflicts, the lookups of each commit still
stand, and no committed row is discarded: in the order of the commits. -/
theorem serializable_calls {hash : Bytes → Nat} {file : List (Bytes × Bytes)} {trace : List Event} {db : Db}
    (run : Run (Step hash) (ReadsStand hash) (initial hash file) trace db)
    (distinct : Set.InjOn hash {key | key ∈ keysUsed trace}) :
    Serializable hash (initial hash file) trace db := by
  have invariant := run.invariant (fun trace db => Sound db ∧ Recorded hash trace db ∧
      (Set.InjOn hash {key | key ∈ keysUsed trace} →
        Observed hash trace db ∧ Replayed hash (initial hash file) trace db)) ?_ ?_
  · obtain ⟨sound, _, both⟩ := invariant
    obtain ⟨_, replayed⟩ := both distinct
    refine ⟨committed trace, .refl _, replayed.serial, fun closed key clean => ?_⟩
    rw [← replayed.map key clean, settled_closed sound closed]
  · refine ⟨initial_sound hash file, ⟨fun _ _ _ => rfl, fun _ _ found => (nomatch found)⟩, fun _ => ⟨?_, ?_⟩⟩
    · exact ⟨fun _ _ => rfl, fun _ _ found => (nomatch found), fun _ _ found => (nomatch found)⟩
    · exact ⟨fun _ member => (nomatch member),
        fun key _ => settled_closed (initial_sound hash file) (fun _ => rfl) key, trivial⟩
  · rintro trace db event next ⟨sound, recorded, both⟩ stands taken
    have did := did_of_step sound taken
    refine ⟨sound_did sound did, recorded_did recorded sound stands.1.1 did, fun distinct => ?_⟩
    have earlier : Set.InjOn hash {key | key ∈ keysUsed trace} :=
      distinct.mono (fun key used => keysUsed_snoc ▸ List.mem_append_left _ used)
    obtain ⟨observed, replayed⟩ := both earlier
    exact ⟨observed_did observed recorded sound stands.1 distinct did,
      replayed_did replayed sound recorded observed stands did⟩

/-- An insert that another transaction had looked for is committed after it. -/
theorem serializable_calls_absent :
    ∃ trace db, Serializable numeral (initial numeral []) trace db ∧
      ⟨.get 1 (bytes "b"), .code .NOT_FOUND⟩ ∈ trace ∧ ⟨.get 3 (bytes "b"), .value (bytes "z")⟩ ∈ trace := by
  have played : (playUnder (Db.next numeral) (ReadsStand numeral) [] (initial numeral [])
      [⟨.begin_txn, .begun 1⟩, ⟨.begin_txn, .begun 2⟩, ⟨.get 1 (bytes "b"), .code .NOT_FOUND⟩,
        ⟨.put 2 (bytes "b") (bytes "z"), .code .OK⟩, ⟨.put 1 (bytes "a") (bytes "x"), .code .OK⟩,
        ⟨.commit 1, .code .OK⟩, ⟨.commit 2, .code .OK⟩, ⟨.begin_txn, .begun 3⟩,
        ⟨.get 3 (bytes "b"), .value (bytes "z")⟩, ⟨.commit 3, .code .OK⟩]).isSome = true := by decide +kernel
  obtain ⟨db, ran⟩ := Option.isSome_iff_exists.mp played
  exact ⟨_, db, serializable_calls (run_of_playUnder ran) (injOn_keysUsed (by decide +kernel)), by simp, by simp⟩

/-- Each transaction looks for the key that the other then puts. -/
def skew : List Event :=
  [⟨.begin_txn, .begun 1⟩, ⟨.begin_txn, .begun 2⟩, ⟨.get 1 (bytes "a"), .code .NOT_FOUND⟩,
    ⟨.get 2 (bytes "b"), .code .NOT_FOUND⟩, ⟨.put 1 (bytes "b") (bytes "x"), .code .OK⟩,
    ⟨.put 2 (bytes "a") (bytes "y"), .code .OK⟩, ⟨.commit 1, .code .OK⟩, ⟨.commit 2, .code .OK⟩]

/-- Both commit, and neither can have been the second. -/
theorem absent_write_skew :
    Set.InjOn numeral {key | key ∈ keysUsed skew} ∧
    ∃ db, Run (Step numeral) (fun _ => Calm numeral) (initial numeral []) skew db ∧
      ¬ Serializable numeral (initial numeral []) skew db := by
  have played : (playUnder (Db.next numeral) (fun _ => Calm numeral) [] (initial numeral []) skew).isSome =
      true := by decide +kernel
  obtain ⟨db, ran⟩ := Option.isSome_iff_exists.mp played
  refine ⟨injOn_keysUsed (by decide +kernel), db, run_of_playUnder ran, ?_⟩
  rintro ⟨order, perm, serial, _⟩
  have listed : order ∈ [1, 2].permutations' := List.mem_permutations'.mpr perm
  have orders : [1, 2].permutations' = [[1, 2], [2, 1]] := by decide
  simp only [orders, List.mem_cons, List.not_mem_nil, or_false] at listed
  rcases listed with rfl | rfl
  · have answered : ¬ Answered skew 2 (install (installs skew) ((initial numeral []).readable numeral) 1) := by
      decide +kernel
    exact answered serial.2.1
  · have answered : ¬ Answered skew 1 (install (installs skew) ((initial numeral []).readable numeral) 2) := by
      decide +kernel
    exact answered serial.2.1

end DataAgentDB.Kv
