import DataAgentDB.Kv.Abort

/-! A put that is rejected because the stored key differs. `get_row` has entered the row into the access
table, or raised its entry to a written one, before the keys are compared. -/

namespace DataAgentDB.Kv
open Storage Server TxnMan LabelledRun

/-- Calls one after another, whatever they answer. -/
def Db.performAll (hash : Bytes → Nat) (db : Db) (calls : List Call) : Option Db :=
  calls.foldlM (fun db call => (db.perform hash call).map Prod.snd) db

/-- The put finds a row, gets a copy of it, and the key in the copy is another. -/
structure Rejected (hash : Bytes → Nat) (db : Db) (t : Nat) (key value : Bytes) (txn : Txn) (row : Nat)
    (after : Db) : Prop where
  opened : db.txns t = some txn
  found : db.store.indexRead (hash key) = some row
  differs : ∃ copy txn', txn.getRow db.store.rows row .WR = some (some copy, txn') ∧ copy.key ≠ cStr key
  taken : Step hash db ⟨.put t key value, .code .ERROR⟩ after

/-- With any further calls, the same in both runs, a commit of the transaction answers the same and
leaves every row with the same contents and version, whether they start after the put or before it. -/
def Untraced (hash : Bytes → Nat) (t : Nat) (before after : Db) : Prop :=
  ∀ (calls : List Call) (actual without actual' without' : Db) (answer answer' : Answer),
    after.performAll hash calls = some actual → before.performAll hash calls = some without →
    actual.perform hash (.commit t) = some (answer, actual') →
    without.perform hash (.commit t) = some (answer', without') →
      answer = answer' ∧ ∀ row, (actual'.store.rows row).data = (without'.store.rows row).data ∧
        (actual'.store.rows row).manager.wts = (without'.store.rows row).manager.wts

/-- A row of the transaction is newer than it, or freed: it will not commit. -/
def Store.Spent (s : Store) (txn : Txn) : Prop :=
  ∃ acc ∈ txn.accesses, txn.startTs < (s.rows acc.origRow).manager.wts ∨ (s.rows acc.origRow).live = false

/-- The transaction has written the row, or will not commit. -/
def Settled (s : Store) (txn : Txn) (row : Nat) : Prop :=
  (∃ acc ∈ txn.accesses, acc.origRow = row ∧ acc.type = .WR) ∨ s.Spent txn

/-- A table with more rows. -/
structure Widens (txn txn' : Txn) : Prop where
  start : txn'.startTs = txn.startTs
  inserts : txn'.insertRows = txn.insertRows
  covers : ∀ acc ∈ txn.accesses, ∃ acc' ∈ txn'.accesses, acc'.origRow = acc.origRow

/-- Two states that differ in the access table of a transaction that will not commit. -/
structure Twin (t : Nat) (actual without : Db) (txn txn' : Txn) : Prop where
  opened : without.txns t = some txn
  same : actual = without.setTxn t (some txn')
  start : txn'.startTs = txn.startTs
  inserts : txn'.insertRows = txn.insertRows
  spent : without.store.Spent txn
  spent' : without.store.Spent txn'

section
variable {hash : Bytes → Nat} {db next : Db} {t u row : Nat} {key value : Bytes} {txn txn' : Txn} {call : Call}
  {answer : Answer} {event : Event}

theorem setTxn_setTxn (db : Db) (t : Nat) (first second : Option Txn) :
    (db.setTxn t first).setTxn t second = db.setTxn t second := by
  unfold Db.setTxn
  simp only [Function.update_idem]

theorem setTxn_comm (db : Db) (apart : t ≠ u) (first second : Option Txn) :
    (db.setTxn t first).setTxn u second = (db.setTxn u second).setTxn t first := by
  unfold Db.setTxn
  simp only [Function.update_comm apart]

theorem txns_setTxn (db : Db) (apart : u ≠ t) (given : Option Txn) : (db.setTxn t given).txns u = db.txns u :=
  Function.update_of_ne apart _ _

/-- A call about another transaction does not depend on this one. -/
theorem perform_setTxn (hash : Bytes → Nat) (given : Option Txn) (other : call.target ≠ some t) (old : t ≠ db.nextId) :
    (db.setTxn t given).perform hash call =
      (db.perform hash call).map (fun result => (result.1, result.2.setTxn t given)) := by
  have apart : ∀ u, call.target = some u → u ≠ t := by
    rintro u target rfl
    exact other target
  have moved : ∀ (db : Db) {u : Nat}, u ≠ t → ∀ first,
      (db.setTxn t given).setTxn u first = (db.setTxn u first).setTxn t given :=
    fun db _ apart first => setTxn_comm db (Ne.symm apart) given first
  cases call with
  | begin_txn =>
    simp only [Db.perform, Db.begin_txn, Db.setTxn, Option.map_some, Function.update_comm old]
  | get u key =>
    have here := apart u rfl
    simp only [Db.perform, Db.get, txns_setTxn db here]
    cases db.txns u with
    | none => rfl
    | some txn =>
      have store : (db.setTxn t given).store = db.store := rfl
      simp only [store]
      cases db.store.read txn (hash key) key with
      | none => rfl
      | some result => exact congrArg (fun next => some (_, next)) (moved db here _)
  | put u key value =>
    have here := apart u rfl
    simp only [Db.perform, Db.put, txns_setTxn db here]
    cases db.txns u with
    | none => rfl
    | some txn =>
      have store : (db.setTxn t given).store = db.store := rfl
      simp only [store]
      cases db.store.write txn (hash key) key value with
      | none => rfl
      | some result => exact congrArg (fun next => some (_, next)) (moved { db with store := result.2.1 } here _)
  | commit u =>
    have here := apart u rfl
    simp only [Db.perform, Db.commit, txns_setTxn db here]
    cases db.txns u with
    | none => rfl
    | some txn =>
      have store : (db.setTxn t given).store = db.store := rfl
      simp only [Db.finish, store]
      cases txn.finish db.store.rows db.store.timestamp u .RCOK with
      | none => rfl
      | some result => exact congrArg (fun next => some (_, next)) (moved { db with store := _ } here none)
  | abort_txn u =>
    have here := apart u rfl
    simp only [Db.perform, Db.abort_txn, txns_setTxn db here]
    cases db.txns u with
    | none => rfl
    | some txn =>
      have store : (db.setTxn t given).store = db.store := rfl
      simp only [Db.finish, store]
      cases txn.finish db.store.rows db.store.timestamp u .Abort with
      | none => rfl
      | some result => exact congrArg (fun next => some (_, next)) (moved { db with store := _ } here none)

/-- No call gives a row an older version or brings a freed row back. -/
theorem ages_did (sound : Sound db) (did : Did hash db event next) (old : row < db.store.curTabSize) :
    (db.store.rows row).manager.wts ≤ (next.store.rows row).manager.wts ∧
      ((db.store.rows row).live = false → (next.store.rows row).live = false) := by
  have dropped : ∀ (t : Nat) (txn : Txn),
      (db.store.rows row).manager.wts ≤ ((db.dropped t txn).store.rows row).manager.wts ∧
        ((db.store.rows row).live = false → ((db.dropped t txn).store.rows row).live = false) := by
    intro t txn
    have frame := freed_frame txn.insertRows db.store.rows row
    refine ⟨Nat.le_of_eq (congrArg RowOcc.wts frame.2.2.1.symm), fun gone => ?_⟩
    simp only [Db.dropped, Db.setTxn, freed]
    split
    next => rfl
    next => exact gone
  cases did with
  | @inserted t key value =>
    have same := load_rows_old (hash key) ⟨strncpy key 127, strncpy value 1023⟩ old
    exact ⟨Nat.le_of_eq (congrArg (fun row => row.manager.wts) same.symm), fun gone => (congrArg Row.live same).trans gone⟩
  | committed opened =>
    have here := (sound.opened _ _ opened).2
    obtain ⟨-, -, live, -, stamp⟩ := wroteBack_frame _ db.store.rows db.store.timestamp row here.key here.nodup
    refine ⟨?_, fun gone => live.trans gone⟩
    rcases stamp with same | later
    · exact Nat.le_of_eq same.symm
    · exact Nat.le_of_lt (Nat.lt_of_lt_of_eq (sound.past row) later.symm)
  | failed => exact dropped _ _
  | aborted => exact dropped _ _
  | _ => exact ⟨Nat.le_refl _, id⟩

theorem Store.Spent.widen {s : Store} (spent : s.Spent txn) (widens : Widens txn txn') : s.Spent txn' := by
  obtain ⟨acc, member, why⟩ := spent
  obtain ⟨acc', member', same⟩ := widens.covers acc member
  refine ⟨acc', member', ?_⟩
  rw [same, widens.start]
  exact why

theorem spent_did (sound : Sound db) (did : Did hash db event next) (opened : db.txns t = some txn)
    (spent : db.store.Spent txn) : next.store.Spent txn := by
  obtain ⟨acc, member, why⟩ := spent
  have old := sound.bounded opened acc.origRow (List.mem_map_of_mem member)
  obtain ⟨later, gone⟩ := ages_did sound did old
  exact ⟨acc, member, why.imp (fun newer => Nat.lt_of_lt_of_le newer later) gone⟩

theorem Widens.refl (txn : Txn) : Widens txn txn := ⟨rfl, rfl, fun acc member => ⟨acc, member, rfl⟩⟩

theorem Entered.widens {s : Store} {kind : AccessT} {copy : Columns} (entered : Entered s txn row kind copy txn') :
    Widens txn txn' := by
  refine ⟨entered.start, entered.inserts, fun acc member => ?_⟩
  by_cases here : acc.origRow = row
  · exact ⟨_, (entered.replaces _).mpr (.inl rfl), here.symm⟩
  · exact ⟨acc, (entered.replaces acc).mpr (.inr ⟨member, here⟩), rfl⟩

theorem get_own (did : Did hash db ⟨.get t key, answer⟩ next) (opened : db.txns t = some txn) :
    ∃ txn', next = db.setTxn t (some txn') ∧ Widens txn txn' := by
  cases did with
  | closed target closed => exact absurd closed (not_refused opened target)
  | missing | getConflict => exact ⟨txn, (Db.setTxn_self opened).symm, .refl txn⟩
  | getMismatch opened' _ _ fetched | got opened' _ _ fetched =>
    cases opened.symm.trans opened'
    exact ⟨_, rfl, fetched.widens⟩

theorem put_own (did : Did hash db ⟨.put t key value, answer⟩ next) (opened : db.txns t = some txn) :
    (db.store.indexRead (hash key) = none ∧
      next = db.grown t txn (hash key) { key := strncpy key 127, value := strncpy value 1023 }) ∨
    (db.store.indexRead (hash key) ≠ none ∧ ∃ txn', next = db.setTxn t (some txn') ∧ Widens txn txn') := by
  have there : ∀ {row}, db.store.indexRead (hash key) = some row → db.store.indexRead (hash key) ≠ none :=
    fun found absent => nomatch found.symm.trans absent
  cases did with
  | closed target closed => exact absurd closed (not_refused opened target)
  | putConflict opened' found => exact .inr ⟨there found, txn, (Db.setTxn_self opened).symm, .refl txn⟩
  | putMismatch opened' found _ fetched =>
    cases opened.symm.trans opened'
    exact .inr ⟨there found, _, rfl, fetched.widens⟩
  | updated opened' found _ _ _ entered =>
    cases opened.symm.trans opened'
    exact .inr ⟨there found, _, rfl, entered.widens⟩
  | inserted opened' absent =>
    cases opened.symm.trans opened'
    exact .inl ⟨absent, rfl⟩

section
variable {actual without actual' without' : Db} {answer' : Answer}

theorem Twin.actual_opened (twin : Twin t actual without txn txn') : actual.txns t = some txn' := by
  rw [twin.same]
  exact Function.update_self _ _ _

/-- A call of another transaction, or a begin. -/
theorem Twin.other (twin : Twin t actual without txn txn') (sound : Sound actual) (sound' : Sound without)
    (apart : call.target ≠ some t)
    (first : actual.perform hash call = some (answer, actual'))
    (second : without.perform hash call = some (answer', without')) :
    answer = answer' ∧ Twin t actual' without' txn txn' := by
  have old : t < without.nextId := (sound'.opened t txn twin.opened).1
  have framed := perform_setTxn hash (some txn') apart (Nat.ne_of_lt old)
  rw [← twin.same, first, second] at framed
  cases framed
  have did := did_of_step sound' (step_of_perform second)
  have did' := did_of_step sound (step_of_perform first)
  refine ⟨rfl, ?_, rfl, twin.start, twin.inserts, spent_did sound' did twin.opened twin.spent, ?_⟩
  · have kept := perform_setTxn hash (some txn) apart (Nat.ne_of_lt old)
    rw [Db.setTxn_self twin.opened, second] at kept
    have same : without' = without'.setTxn t (some txn) := congrArg Prod.snd (Option.some.inj kept)
    rw [same]
    exact Function.update_self _ _ _
  · have spent : actual.store.Spent txn' := by
      rw [twin.same]
      exact twin.spent'
    have kept := spent_did sound did' twin.actual_opened spent
    exact kept

/-- A get or a put of the transaction itself widens its table in both runs. -/
theorem Twin.widened (twin : Twin t actual without txn txn') {wide wide' : Txn} (widens : Widens txn wide)
    (widens' : Widens txn' wide') :
    Twin t (actual.setTxn t (some wide')) (without.setTxn t (some wide)) wide wide' := by
  constructor
  case opened =>
    exact Function.update_self _ _ _
  case same =>
    rw [twin.same, setTxn_setTxn, setTxn_setTxn]
  case start =>
    rw [widens'.start, widens.start, twin.start]
  case inserts =>
    rw [widens'.inserts, widens.inserts, twin.inserts]
  case spent =>
    exact twin.spent.widen widens
  case spent' =>
    exact twin.spent'.widen widens'

theorem Store.Spent.recorded {s : Store} (spent : s.Spent txn) (p row : Nat) (columns : Columns) (rows : List Nat) :
    s.Spent { txn.record p row .WR columns with insertRows := rows } := by
  obtain ⟨acc, member, why⟩ := spent
  exact ⟨acc, List.mem_append_left _ member, why⟩

/-- A put of the transaction that inserts a row inserts the same row in both runs. -/
theorem Twin.grown (twin : Twin t actual without txn txn') (p : Nat) (columns : Columns)
    (spent : (without.store.load p columns).Spent txn) (spent' : (without.store.load p columns).Spent txn') :
    ∃ wide wide', Twin t (actual.grown t txn' p columns) (without.grown t txn p columns) wide wide' := by
  let row := without.store.curTabSize
  refine ⟨{ txn.record p row .WR columns with insertRows := txn.insertRows ++ [row] },
    { txn'.record p row .WR columns with insertRows := txn'.insertRows ++ [row] }, ?_⟩
  constructor
  case opened =>
    exact Function.update_self _ _ _
  case same =>
    rw [twin.same]
    unfold Db.grown
    rw [setTxn_setTxn]
    exact setTxn_setTxn { without with store := without.store.load p columns } t (some txn') _
  case start =>
    exact twin.start
  case inserts =>
    exact congrArg (fun rows => rows ++ [row]) twin.inserts
  case spent =>
    exact spent.recorded _ _ _ _
  case spent' =>
    exact spent'.recorded _ _ _ _

theorem Twin.dropped (twin : Twin t actual without txn txn') : actual.dropped t txn' = without.dropped t txn := by
  rw [twin.same]
  unfold Db.dropped
  rw [twin.inserts]
  exact setTxn_setTxn { without with store := _ } t (some txn') none

/-- A transaction that is spent is dropped by its commit. -/
theorem dropped_of_commit (sound : Sound db) (opened : db.txns t = some txn) (spent : db.store.Spent txn)
    (performed : db.perform hash (.commit t) = some (answer, next)) :
    answer = .code .ABORT ∧ next = db.dropped t txn := by
  cases did_of_step sound (step_of_perform performed) with
  | closed target closed => exact absurd closed (not_refused opened target)
  | committed opened' live current =>
    cases opened.symm.trans opened'
    obtain ⟨acc, member, newer | gone⟩ := spent
    · exact absurd newer (Nat.not_lt.mpr (current acc member))
    · rw [live acc member] at gone
      cases gone
  | failed opened' =>
    cases opened.symm.trans opened'
    exact ⟨rfl, rfl⟩

theorem dropped_of_abort (sound : Sound db) (opened : db.txns t = some txn)
    (performed : db.perform hash (.abort_txn t) = some (answer, next)) :
    answer = .code .OK ∧ next = db.dropped t txn := by
  cases did_of_step sound (step_of_perform performed) with
  | closed target closed => exact absurd closed (not_refused opened target)
  | aborted opened' =>
    cases opened.symm.trans opened'
    exact ⟨rfl, rfl⟩

/-- Every call answers a commit alike in both runs, and leaves them alike but for the transaction's table. -/
theorem twin_step (twin : Twin t actual without txn txn') (sound : Sound actual) (sound' : Sound without)
    (first : actual.perform hash call = some (answer, actual'))
    (second : without.perform hash call = some (answer', without')) :
    (∀ u, call = .commit u → answer = answer') ∧
      (actual' = without' ∨ ∃ wide wide', Twin t actual' without' wide wide') := by
  have stored : actual.store = without.store := by
    rw [twin.same]
    rfl
  have did := did_of_step sound (step_of_perform first)
  have did' := did_of_step sound' (step_of_perform second)
  by_cases own : call.target = some t
  · cases call with
    | begin_txn => cases own
    | get u key =>
      cases own
      obtain ⟨wide', rfl, widens'⟩ := get_own did twin.actual_opened
      obtain ⟨wide, rfl, widens⟩ := get_own did' twin.opened
      exact ⟨nofun, .inr ⟨wide, wide', twin.widened widens widens'⟩⟩
    | put u key value =>
      cases own
      refine ⟨nofun, .inr ?_⟩
      rcases put_own did twin.actual_opened with ⟨absent, rfl⟩ | ⟨there, wide', rfl, widens'⟩
      · rcases put_own did' twin.opened with ⟨-, rfl⟩ | ⟨there, -⟩
        · exact twin.grown _ _ (spent_did sound' did' twin.opened twin.spent)
            (by
              have kept := spent_did sound did twin.actual_opened (by rw [stored]; exact twin.spent')
              rw [twin.same] at kept
              exact kept)
        · rw [stored] at absent
          exact absurd absent there
      · rcases put_own did' twin.opened with ⟨absent, -⟩ | ⟨-, wide, rfl, widens⟩
        · rw [stored] at there
          exact absurd absent there
        · exact ⟨wide, wide', twin.widened widens widens'⟩
    | commit u =>
      cases own
      obtain ⟨rfl, rfl⟩ := dropped_of_commit sound twin.actual_opened (by rw [stored]; exact twin.spent') first
      obtain ⟨rfl, rfl⟩ := dropped_of_commit sound' twin.opened twin.spent second
      exact ⟨fun _ _ => rfl, .inl twin.dropped⟩
    | abort_txn u =>
      cases own
      obtain ⟨rfl, rfl⟩ := dropped_of_abort sound twin.actual_opened first
      obtain ⟨rfl, rfl⟩ := dropped_of_abort sound' twin.opened second
      exact ⟨nofun, .inl twin.dropped⟩
  · obtain ⟨same, later⟩ := twin.other sound sound' own first second
    exact ⟨fun _ _ => same, .inr ⟨txn, txn', later⟩⟩

theorem performAll_cons {calls : List Call} {last : Db} : db.performAll hash (call :: calls) = some last ↔
    ∃ answer next, db.perform hash call = some (answer, next) ∧ next.performAll hash calls = some last := by
  rw [Db.performAll, List.foldlM_cons]
  constructor
  · intro ran
    obtain ⟨next, first, later⟩ := Option.bind_eq_some_iff.mp ran
    obtain ⟨⟨answer, same⟩, performed, rfl⟩ := Option.map_eq_some_iff.mp first
    exact ⟨answer, same, performed, later⟩
  · rintro ⟨answer, next, performed, later⟩
    rw [performed]
    exact later

theorem sound_perform (sound : Sound db) (performed : db.perform hash call = some (answer, next)) : Sound next :=
  sound_did sound (did_of_step sound (step_of_perform performed))

theorem twin_run {calls : List Call} (twin : Twin t actual without txn txn') (sound : Sound actual)
    (sound' : Sound without) (first : actual.performAll hash calls = some actual')
    (second : without.performAll hash calls = some without') :
    actual' = without' ∨ Sound actual' ∧ Sound without' ∧ ∃ wide wide', Twin t actual' without' wide wide' := by
  induction calls generalizing actual without txn txn' with
  | nil =>
    cases first
    cases second
    exact .inr ⟨sound, sound', txn, txn', twin⟩
  | cons call calls ih =>
    obtain ⟨_, next, performed, later⟩ := performAll_cons.mp first
    obtain ⟨_, next', performed', later'⟩ := performAll_cons.mp second
    rcases (twin_step twin sound sound' performed performed').2 with same | ⟨wide, wide', twin'⟩
    · rw [same, later'] at later
      exact .inl (Option.some.inj later).symm
    · exact ih twin' (sound_perform sound performed) (sound_perform sound' performed') later later'

theorem untraced_self (hash : Bytes → Nat) (t : Nat) (db : Db) : Untraced hash t db db := by
  intro calls actual without actual' without' answer answer' ran ran' first second
  cases ran.symm.trans ran'
  cases first.symm.trans second
  exact ⟨rfl, fun _ => ⟨rfl, rfl⟩⟩

theorem untraced_of_twin (twin : Twin t actual without txn txn') (sound : Sound actual) (sound' : Sound without) :
    Untraced hash t without actual := by
  intro calls actual₁ without₁ actual₂ without₂ answer answer' ran ran' first second
  rcases twin_run twin sound sound' ran ran' with rfl | ⟨sound₁, sound₁', wide, wide', twin₁⟩
  · cases first.symm.trans second
    exact ⟨rfl, fun _ => ⟨rfl, rfl⟩⟩
  · obtain ⟨answers, states⟩ := twin_step twin₁ sound₁ sound₁' first second
    have stored : actual₂.store = without₂.store := by
      rcases states with rfl | ⟨_, _, twin₂⟩
      · rfl
      · rw [twin₂.same]
        rfl
    exact ⟨answers t rfl, fun row => by rw [stored]; exact ⟨rfl, rfl⟩⟩

end

section
variable {after : Db}

theorem after_of_rejected (rejected : Rejected hash db t key value txn row after) : ∃ copy txn',
    txn.getRow db.store.rows row .WR = some (some copy, txn') ∧ after = db.setTxn t (some txn') := by
  obtain ⟨copy, txn', compared, differs⟩ := rejected.differs
  have performed : db.put hash t key value = some (.code .ERROR, after) := perform_of_step rejected.taken
  have other : strcmp copy.key (cStr key) ≠ 0 := fun same => differs ((strcmp_eq_zero _ _).mp same)
  simp only [Db.put, rejected.opened, Store.write, Store.writeAt, rejected.found, compared, if_pos other,
    Option.some.injEq, Prod.mk.injEq] at performed
  exact ⟨copy, txn', compared, performed.2.symm⟩

/-- The entry of a written row is not changed. -/
theorem getRow_written (opened : Opened db.store txn) (found : db.store.indexRead (hash key) = some row)
    (rowKey : (db.store.rows row).primaryKey = hash key) {acc : Access Nat Columns} (member : acc ∈ txn.accesses)
    (here : acc.origRow = row) (written : acc.type = .WR) {type : AccessT} {copy : Columns}
    (taken : txn.getRow db.store.rows row type = some (some copy, txn')) : txn' = txn := by
  obtain ⟨-, did⟩ := getRow_cases taken
  cases did with
  | @hit pos entry place there =>
    obtain ⟨entry', there', head⟩ := opened.entry (rowKey ▸ place)
    cases there.symm.trans there'
    rw [found] at head
    have same : entry = acc := List.inj_on_of_nodup_map opened.nodup (List.mem_of_getElem? there) member
      ((Option.some.inj head).symm.trans here.symm)
    rw [upgrade, if_neg (fun both => by rw [same, written] at both; exact nomatch both.1)]
  | copied missing =>
    obtain ⟨i, entry⟩ := List.mem_iff_getElem?.mp member
    have place := (opened.indexed _ i).mpr ⟨acc.origRow, by rw [List.getElem?_map, entry]; rfl, rfl⟩
    rw [here, missing] at place
    cases place

/-- A transaction that is not spent commits. -/
theorem commit_of_unspent (hash : Bytes → Nat) (sound : Sound db) (opened : db.txns t = some txn) (fit : ¬ db.store.Spent txn) :
    db.perform hash (.commit t) = some (.code .OK, db.installed t txn) := by
  refine commit_installs hash sound opened (fun acc member => ?_) (fun acc member => ?_)
  · by_contra gone
    exact fit ⟨acc, member, .inr (Bool.eq_false_of_not_eq_true gone)⟩
  · by_contra newer
    exact fit ⟨acc, member, .inl (Nat.lt_of_not_le newer)⟩

theorem untraced_iff (sound : Sound db) (rejected : Rejected hash db t key value txn row after) :
    Untraced hash t db after ↔ Settled db.store txn row := by
  have opened := (sound.opened t txn rejected.opened).2
  have rowKey := sound.key_of_indexRead rejected.found
  obtain ⟨copy, txn', taken, rfl⟩ := after_of_rejected rejected
  obtain ⟨live, got⟩ := getRow_cases taken
  obtain ⟨kind, fetched⟩ := opened.fetch rejected.found rowKey got (.inr rfl)
  obtain rfl := fetched.written rfl
  have sound' := sound.setTxn rejected.opened fetched.opened fetched.inserts
  have opened' : (db.setTxn t (some txn')).txns t = some txn' := Function.update_self _ _ _
  constructor
  · intro untraced
    by_contra unsettled
    obtain ⟨unwritten, fit⟩ := not_or.mp unsettled
    have fit' : ¬ db.store.Spent txn' := by
      rintro ⟨acc, member, why⟩
      rw [fetched.start] at why
      rcases (fetched.replaces acc).mp member with rfl | ⟨before, -⟩
      · rcases why with newer | gone
        · by_cases absent : ∀ acc ∈ txn.accesses, acc.origRow ≠ row
          · exact absurd newer (Nat.not_lt.mpr (fetched.first absent).2.1)
          · simp only [not_forall, not_not] at absent
            obtain ⟨old, listed, same⟩ := absent
            exact fit ⟨old, listed, .inl (by rw [same]; exact newer)⟩
        · rw [live] at gone
          cases gone
      · exact fit ⟨acc, before, why⟩
    have first := commit_of_unspent hash sound' opened' fit'
    have second := commit_of_unspent hash sound rejected.opened fit
    have same := ((untraced [] _ _ _ _ _ _ rfl rfl first second).2 row).2
    have wrote : (wroteBack txn'.accesses db.store.rows db.store.timestamp row).manager.wts = db.store.timestamp := by
      have member := (fetched.replaces ⟨.WR, row, copy⟩).mpr (.inl rfl)
      have written := wroteBack_of_mem db.store.rows db.store.timestamp fetched.opened.nodup member rfl
      rw [written]
      rfl
    have kept : wroteBack txn.accesses db.store.rows db.store.timestamp row = db.store.rows row :=
      wroteBack_of_not_mem (fun acc member here written => unwritten ⟨acc, member, here, written⟩)
    have past := sound.past row
    change (wroteBack txn'.accesses db.store.rows db.store.timestamp row).manager.wts =
      (wroteBack txn.accesses db.store.rows db.store.timestamp row).manager.wts at same
    rw [wrote, kept] at same
    omega
  · rintro (⟨acc, member, here, written⟩ | spent)
    · have same := getRow_written opened rejected.found rowKey member here written taken
      rw [same, Db.setTxn_self rejected.opened]
      exact untraced_self hash t db
    · have twin : Twin t (db.setTxn t (some txn')) db txn txn' :=
        ⟨rejected.opened, rfl, fetched.start, fetched.inserts, spent, spent.widen fetched.widens⟩
      exact untraced_of_twin twin sound' sound

end

end

/-- In any reachable state, a put rejected for its key leaves no trace exactly when the transaction has
already written the row it met, or will not commit: a row it accessed is newer than it, or freed. -/
theorem mismatch_untraced_iff (hash : Bytes → Nat) (file : List (Bytes × Bytes)) (trace : List Event) (db : Db)
    (run : Run (Step hash) Always (initial hash file) trace db) (t : Nat) (key value : Bytes) (txn : Txn) (row : Nat)
    (after : Db) (rejected : Rejected hash db t key value txn row after) :
    Untraced hash t db after ↔ Settled db.store txn row :=
  untraced_iff (sound_run run) rejected

/-- Every key under the primary key of the row "3". -/
def collide (_ : Bytes) : Nat := 3

/-- What makes a put a rejected one, computed. -/
def rejects (db : Db) (t : Nat) (key value : Bytes) (txn : Txn) (row : Nat) : Bool :=
  decide (db.store.indexRead (collide key) = some row) &&
    (txn.getRow db.store.rows row .WR).any (fun result => result.1.any (fun copy => copy.key ≠ cStr key)) &&
      (db.next collide ⟨.put t key value, .code .ERROR⟩).isSome

theorem rejected_of_rejects {db : Db} {t row : Nat} {key value : Bytes} {txn : Txn} (opened : db.txns t = some txn)
    (checked : rejects db t key value txn row = true) : ∃ after, Rejected collide db t key value txn row after := by
  simp only [rejects, Bool.and_eq_true, decide_eq_true_eq] at checked
  obtain ⟨⟨found, compared⟩, taken⟩ := checked
  obtain ⟨⟨result, txn'⟩, got, differs⟩ := (Option.any_eq_true _ _).mp compared
  obtain ⟨copy, rfl, differs⟩ := (Option.any_eq_true _ _).mp differs
  obtain ⟨after, next⟩ := Option.isSome_iff_exists.mp taken
  exact ⟨after, opened, found, ⟨copy, txn', got, of_decide_eq_true differs⟩, next⟩

/-- A transaction that has put the stored key. -/
theorem mismatch_untraced_written : ∃ db txn after,
    Rejected collide db 1 (bytes "a") (bytes "x") txn 3 after ∧ Untraced collide 1 db after := by
  have played : ((play (Db.next collide) (initial collide [])
      [⟨.begin_txn, .begun 1⟩, ⟨.put 1 (bytes "3") (bytes "y"), .code .OK⟩]).map (fun db =>
      (db.txns 1).any (fun txn => rejects db 1 (bytes "a") (bytes "x") txn 3 &&
        txn.accesses.any (fun acc => acc.origRow = 3 ∧ acc.type = .WR)))) = some true := by decide +kernel
  obtain ⟨db, ran, checked⟩ := Option.map_eq_some_iff.mp played
  obtain ⟨txn, opened, both⟩ := (Option.any_eq_true _ _).mp checked
  obtain ⟨rejects, entered⟩ := (Bool.and_eq_true _ _).mp both
  obtain ⟨after, rejected⟩ := rejected_of_rejects opened rejects
  obtain ⟨acc, member, written⟩ := List.any_eq_true.mp entered
  refine ⟨db, txn, after, rejected, ?_⟩
  exact (mismatch_untraced_iff collide [] _ db (run_of_play ran) 1 _ _ txn 3 after rejected).mpr
    (.inl ⟨acc, member, of_decide_eq_true written⟩)

/-- The rejected put of an otherwise unused transaction gives the row of the stored key a new version. -/
theorem mismatch_traced : ¬ ∀ (hash : Bytes → Nat) (file : List (Bytes × Bytes)) (trace : List Event) (db : Db),
    Run (Step hash) Always (initial hash file) trace db → ∀ t key value txn row after,
      Rejected hash db t key value txn row after → Untraced hash t db after := by
  intro untraced
  have played : ((play (Db.next collide) (initial collide []) [⟨.begin_txn, .begun 1⟩]).map (fun db =>
      (db.txns 1).any (fun txn => rejects db 1 (bytes "a") (bytes "x") txn 3 && txn.accesses.isEmpty))) =
        some true := by decide +kernel
  obtain ⟨db, ran, checked⟩ := Option.map_eq_some_iff.mp played
  obtain ⟨txn, opened, both⟩ := (Option.any_eq_true _ _).mp checked
  obtain ⟨rejects, unused⟩ := (Bool.and_eq_true _ _).mp both
  obtain ⟨after, rejected⟩ := rejected_of_rejects opened rejects
  have run := run_of_play ran
  have settled := (untraced_iff (sound_run run) rejected).mp (untraced collide [] _ db run 1 _ _ txn 3 after rejected)
  rw [Settled, Store.Spent, List.isEmpty_iff.mp unused] at settled
  rcases settled with ⟨acc, member, -⟩ | ⟨acc, member, -⟩ <;> cases member

end DataAgentDB.Kv
