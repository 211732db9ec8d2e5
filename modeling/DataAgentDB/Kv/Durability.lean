import DataAgentDB.Kv.Abort
import DataAgentDB.Kv.Recorded

/-! What a commit leaves for later readers. Aborting the transaction that inserted a row frees
it, also after another transaction updated and committed it. -/

namespace DataAgentDB.Kv
open Storage Server TxnMan LabelledRun

/-- Strings fit their columns, and no transaction ends without committing after another
committed a row it inserted. -/
def SparesCommitted (_ : List Event) (db : Db) (event : Event) : Prop :=
  StringsFit event ∧ ∀ txn ∈ db.discards event.call, ∀ row ∈ txn.insertRows,
    (db.store.rows row).manager.wts = 0

instance (trace : List Event) (db : Db) (event : Event) : Decidable (SparesCommitted trace db event) :=
  inferInstanceAs (Decidable (_ ∧ ∀ txn ∈ db.discards event.call, ∀ row ∈ txn.insertRows, _))

/-- A new transaction reads what the last transaction to commit the key put last. -/
def Durable (hash : Bytes → Nat) (trace : List Event) (db : Db) : Prop :=
  ∀ before t after key value, trace = before ++ ⟨.commit t, .code .OK⟩ :: after →
    lastPut before t key = some value →
    (∀ u other, u ≠ t → ⟨.put u key other, .code .OK⟩ ∈ trace → ⟨.commit u, .code .OK⟩ ∉ after) →
    (play (Db.next hash) db [⟨.begin_txn, .begun db.nextId⟩,
      ⟨.get db.nextId key, .value value⟩]).isSome = true

/-- The key's head is committed with the value. -/
def Held (hash : Bytes → Nat) (db : Db) (key value : Bytes) : Prop :=
  ∃ row, db.store.indexRead (hash key) = some row ∧ (db.store.rows row).live = true ∧
    (db.store.rows row).data = ⟨key, value⟩ ∧ (db.store.rows row).manager.wts ≠ 0

section Steps
variable {hash : Bytes → Nat} {db next : Db} {trace : List Event} {event : Event} {key value : Bytes}

/-- An ended transaction's id is not used again. -/
theorem ended_did {t : Nat} (ended : db.txns t = none ∧ t < db.nextId) (did : Did hash db event next) :
    next.txns t = none ∧ t < next.nextId := by
  obtain ⟨closed, used⟩ := ended
  have apart : ∀ {u txn}, db.txns u = some txn → t ≠ u := by
    rintro u txn opened rfl
    rw [closed] at opened
    cases opened
  have kept : ∀ {u txn} (changed : Option Txn), db.txns u = some txn →
      Function.update db.txns u changed t = none :=
    fun changed opened => (Function.update_of_ne (apart opened) _ _).trans closed
  cases did with
  | begun => exact ⟨(Function.update_of_ne used.ne _ _).trans closed, used.trans (Nat.lt_succ_self _)⟩
  | closed | missing | getConflict | putConflict => exact ⟨closed, used⟩
  | getMismatch opened | got opened | putMismatch opened | updated opened | inserted opened
  | committed opened | failed opened | aborted opened => exact ⟨kept _ opened, used⟩

theorem Held.dropped (held : Held hash db key value) {t : Nat} {txn : Txn}
    (spared : ∀ row ∈ txn.insertRows, (db.store.rows row).manager.wts = 0) :
    Held hash (db.dropped t txn) key value := by
  obtain ⟨row, head, live, data, version⟩ := held
  have outside : row ∉ txn.insertRows := fun member => version (spared row member)
  have whole : (db.dropped t txn).store.rows row = db.store.rows row :=
    (freed_frame txn.insertRows db.store.rows row).2.2.2 outside
  exact ⟨row, head, by rw [whole]; exact live, by rw [whole]; exact data, by rw [whole]; exact version⟩

/-- A commit of a transaction that did not put the key writes the value back, if anything. -/
theorem Held.installed (held : Held hash db key value) (sound : Sound db)
    (recorded : Recorded hash trace db) {t : Nat} {txn : Txn} (opened : db.txns t = some txn)
    (current : ∀ acc ∈ txn.accesses, (db.store.rows acc.origRow).manager.wts ≤ txn.startTs)
    (foreign : lastPut trace t key = none) : Held hash (db.installed t txn) key value := by
  obtain ⟨row, head, live, data, version⟩ := held
  have here := (sound.opened t txn opened).2
  rcases wroteBack_cases here.nodup db.store.rows db.store.timestamp row with
    ⟨acc, member, rfl, _, same⟩ | ⟨_, same⟩
  · have name : acc.data.key = key := by rw [here.key acc member, data]
    have copied : acc.data = ⟨key, value⟩ := by
      rw [← data]
      refine (recorded.tracked t txn opened).unput acc member (fun own => own.2 ?_) (current acc member)
      rw [name]
      exact foreign
    have positive := Nat.zero_lt_of_lt (sound.past acc.origRow)
    exact ⟨acc.origRow, head, (congrArg Row.live same).trans live, (congrArg Row.data same).trans copied,
      (congrArg (fun row => row.manager.wts) same).trans_ne positive.ne'⟩
  · exact ⟨row, head, (congrArg Row.live same).trans live, (congrArg Row.data same).trans data,
      (congrArg (fun row => row.manager.wts) same).trans_ne version⟩

theorem held_did (held : Held hash db key value) (sound : Sound db) (recorded : Recorded hash trace db)
    (spares : SparesCommitted trace db event)
    (foreign : ∀ t, event = ⟨.commit t, .code .OK⟩ → lastPut trace t key = none)
    (did : Did hash db event next) : Held hash next key value := by
  cases did with
  | inserted opened absent =>
    obtain ⟨row, head, kept⟩ := held
    have bound := (sound.alloc _ row (Store.entries_of_indexRead head)).1
    refine ⟨row, (extends_load _ absent).kept _ _ head, ?_⟩
    rw [show (Db.grown _ _ _ _ _).store.rows row = db.store.rows row from load_rows_old _ _ bound]
    exact kept
  | committed opened _ current => exact held.installed sound recorded opened current (foreign _ rfl)
  | failed opened member newer => exact held.dropped (spares.2 _ (discards_failed opened member newer))
  | aborted opened => exact held.dropped (spares.2 _ opened)
  | _ => exact held

/-- What a commit wrote is held. -/
theorem held_commit {t : Nat} (sound : Sound db) (recorded : Recorded hash trace db)
    (last : lastPut trace t key = some value) (did : Did hash db ⟨.commit t, .code .OK⟩ next) :
    Held hash next key value ∧ next.txns t = none ∧ t < next.nextId := by
  cases did with
  | @committed _ txn opened live _ =>
    obtain ⟨used, here⟩ := sound.opened t txn opened
    obtain ⟨row, head, member⟩ := (recorded.tracked t txn opened).put key value last
    have written := wroteBack_of_mem db.store.rows db.store.timestamp
      here.nodup member rfl
    have positive := Nat.zero_lt_of_lt (sound.past row)
    refine ⟨⟨row, head, ?_, congrArg Row.data written, ?_⟩, Function.update_self _ _ _, used⟩
    · exact (congrArg Row.live written).trans (live _ member)
    · exact (congrArg (fun row => row.manager.wts) written).trans_ne positive.ne'

/-- A new transaction finds a held value. -/
theorem Held.readable (held : Held hash db key value) (sound : Sound db) (clean : 0 ∉ key) :
    (play (Db.next hash) db [⟨.begin_txn, .begun db.nextId⟩,
      ⟨.get db.nextId key, .value value⟩]).isSome = true := by
  obtain ⟨row, head, live, data, _⟩ := held
  have current : (db.store.rows row).access db.store.timestamp = some (some ⟨key, value⟩) :=
    Row.access_copy.mpr ⟨sound.free row, (sound.past row).le, data⟩
  have copied : (TxnMan.init db.store.timestamp : Txn).getRow db.store.rows row .RD = some (some ⟨key, value⟩,
      (TxnMan.init db.store.timestamp).record (db.store.rows row).primaryKey row .RD ⟨key, value⟩) := by
    unfold getRow
    rw [if_pos live]
    simp [TxnMan.init, rowCnt, MAX_ROW_PER_TXN, current]
  have named : strcmp key (cStr key) = 0 := (strcmp_eq_zero _ _).mpr (cStr_of_no_nul clean).symm
  have read : ({ db.store with timestamp := db.store.timestamp + 1 } : Store).read
      (TxnMan.init db.store.timestamp) (hash key) key = some (.RCOK, value,
        (TxnMan.init db.store.timestamp).record (db.store.rows row).primaryKey row .RD ⟨key, value⟩) := by
    have found : ({ db.store with timestamp := db.store.timestamp + 1 } : Store).indexRead (hash key) =
        some row := head
    simp [Store.read, found, copied, named]
  simp [play, Db.next, Db.perform, Db.begin_txn, Db.setTxn, Db.get, read, Rc.ofRead]

end Steps

/-- The rest of a run, from a commit that put the key. -/
theorem held_rest {hash : Bytes → Nat} {front later : List Event} {middle db : Db} {t : Nat}
    {key value : Bytes} (sound : Sound middle) (recorded : Recorded hash front middle)
    (held : Held hash middle key value) (ended : middle.txns t = none ∧ t < middle.nextId)
    (run : Run (Step hash) (fun rest => SparesCommitted (front ++ rest)) middle later db)
    (undisturbed : ∀ u other, u ≠ t → ⟨.put u key other, .code .OK⟩ ∈ front ++ later →
      ⟨.commit u, .code .OK⟩ ∉ later) : Sound db ∧ Held hash db key value := by
  have whole := run.invariant (fun later db => Sound db ∧ Recorded hash (front ++ later) db ∧
      (db.txns t = none ∧ t < db.nextId) ∧
      ((∀ u other, u ≠ t → ⟨.put u key other, .code .OK⟩ ∈ front ++ later →
        ⟨.commit u, .code .OK⟩ ∉ later) → Held hash db key value)) ?_ ?_
  · exact ⟨whole.1, whole.2.2.2 undisturbed⟩
  · rw [List.append_nil]
    exact ⟨sound, recorded, ended, fun _ => held⟩
  · rintro later db event next ⟨sound, recorded, ended, held⟩ spares taken
    have did := did_of_step sound taken
    rw [← List.append_assoc]
    refine ⟨sound_did sound did, recorded_did recorded sound spares.1 did, ended_did ended did, ?_⟩
    intro calm
    refine held_did (held ?_) sound recorded spares ?_ did
    · intro u other apart put commit
      exact calm u other apart (List.mem_append_left _ put) (List.mem_append_left _ commit)
    · rintro u rfl
      have apart : u ≠ t := by
        rintro rfl
        cases did with
        | committed opened =>
          rw [ended.1] at opened
          cases opened
      cases last : lastPut (front ++ later) u key with
      | none => rfl
      | some other =>
        have put := List.mem_append_left [⟨Call.commit u, Answer.code .OK⟩] (mem_of_lastPut last)
        exact absurd (List.mem_append_right _ (List.mem_singleton.mpr rfl)) (calm u other apart put)

/-- Commits last in every run in which no transaction ends without committing after another
has committed a row it inserted. -/
theorem commits_durable {hash : Bytes → Nat} {file : List (Bytes × Bytes)} {trace : List Event} {db : Db}
    (run : Run (Step hash) SparesCommitted (initial hash file) trace db) : Durable hash trace db := by
  intro before t after key value split last undisturbed
  have rejoin : trace = (before ++ [⟨.commit t, .code .OK⟩]) ++ after := by simp [split]
  obtain ⟨middle, first, second⟩ := run.split _ _ rejoin
  obtain ⟨earlier, prefix_, _, taken⟩ := first.last
  obtain ⟨sound, recorded⟩ := recorded_run (fun _ _ _ spares => spares.1) prefix_
  have did := did_of_step sound taken
  obtain ⟨held, ended⟩ := held_commit sound recorded last did
  obtain ⟨sound', recorded'⟩ := recorded_run (fun _ _ _ spares => spares.1) first
  obtain ⟨sound'', held'⟩ := held_rest sound' recorded' held ended second (rejoin ▸ undisturbed)
  have put := mem_of_lastPut last
  have fits := prefix_.forall_mem StringsFit (fun _ _ _ spares => spares.1) _ put
  exact held'.readable sound'' fits.1.2

/-- An update of a committed key is aborted, one of another key committed. -/
theorem commits_durable_update :
    ∃ trace db, Durable numeral trace db ∧ (play (Db.next numeral) db [⟨.begin_txn, .begun db.nextId⟩,
      ⟨.get db.nextId (bytes "a"), .value (bytes "x")⟩]).isSome = true := by
  have played : (playUnder (Db.next numeral) SparesCommitted [] (initial numeral [])
      ([⟨.begin_txn, .begun 1⟩, ⟨.begin_txn, .begun 2⟩, ⟨.put 1 (bytes "a") (bytes "x"), .code .OK⟩] ++
        ⟨.commit 1, .code .OK⟩ :: [⟨.begin_txn, .begun 3⟩, ⟨.put 3 (bytes "a") (bytes "y"), .code .OK⟩,
          ⟨.put 2 (bytes "b") (bytes "z"), .code .OK⟩, ⟨.commit 2, .code .OK⟩,
          ⟨.abort_txn 3, .code .OK⟩])).isSome = true := by decide +kernel
  obtain ⟨db, ran⟩ := Option.isSome_iff_exists.mp played
  have durable := commits_durable (run_of_playUnder ran)
  have apart : bytes "a" ≠ bytes "b" := by decide
  refine ⟨_, db, durable, durable _ 1 _ (bytes "a") (bytes "x") rfl (by decide) ?_⟩
  intro u other own put commit
  simp only [List.cons_append, List.nil_append, List.mem_cons, Event.mk.injEq, Call.put.injEq, apart,
    reduceCtorEq, false_and, and_false, and_true, false_or, or_false, List.not_mem_nil,
    Call.commit.injEq, true_and] at put commit
  omega

/-- The second transaction updates the row that the first has inserted, and commits it. -/
def adopted : List Event :=
  [⟨.begin_txn, .begun 1⟩, ⟨.begin_txn, .begun 2⟩, ⟨.put 1 (bytes "a") (bytes "x"), .code .OK⟩,
    ⟨.put 2 (bytes "a") (bytes "y"), .code .OK⟩]

/-- The abort of the transaction that inserted a row takes another's commit with it. -/
theorem commit_lost_to_abort :
    ∃ db, Run (Step numeral) Always (initial numeral [])
        (adopted ++ ⟨.commit 2, .code .OK⟩ :: [⟨.abort_txn 1, .code .OK⟩]) db ∧
      ¬ Durable numeral (adopted ++ ⟨.commit 2, .code .OK⟩ :: [⟨.abort_txn 1, .code .OK⟩]) db := by
  have played : (play (Db.next numeral) (initial numeral [])
      (adopted ++ ⟨.commit 2, .code .OK⟩ :: [⟨.abort_txn 1, .code .OK⟩])).map (fun db =>
        (play (Db.next numeral) db [⟨.begin_txn, .begun db.nextId⟩,
          ⟨.get db.nextId (bytes "a"), .value (bytes "y")⟩]).isSome) = some false := by decide +kernel
  obtain ⟨db, ran, unread⟩ := Option.map_eq_some_iff.mp played
  refine ⟨db, run_of_play ran, fun durable => ?_⟩
  have read := durable adopted 2 [⟨.abort_txn 1, .code .OK⟩] (bytes "a") (bytes "y") rfl (by decide) (by simp)
  rw [unread] at read
  cases read

end DataAgentDB.Kv
