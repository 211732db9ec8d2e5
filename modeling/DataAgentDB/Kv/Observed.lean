import DataAgentDB.Kv.Conflict
import DataAgentDB.Kv.Recorded
import Mathlib.Data.Set.Function

/-! What `get` answered the open transactions, and what of it their access tables still show. -/

namespace DataAgentDB.Kv
open Storage Server TxnMan LabelledRun

/-- The key a call names. -/
def Call.key : Call → Option Bytes
  | .get _ key | .put _ key _ => some key
  | _ => none

def keysUsed (trace : List Event) : List Bytes := trace.filterMap (fun event => event.call.key)

theorem keysUsed_snoc {trace : List Event} {event : Event} :
    keysUsed (trace ++ [event]) = keysUsed trace ++ event.call.key.toList := by
  unfold keysUsed
  rw [List.filterMap_append]
  cases value : event.call.key <;> simp [value]

/-- For a given trace the keys can be compared one by one. -/
theorem injOn_keysUsed {hash : Bytes → Nat} {trace : List Event}
    (checked : ∀ key ∈ keysUsed trace, ∀ key' ∈ keysUsed trace, hash key = hash key' → key = key') :
    Set.InjOn hash {key | key ∈ keysUsed trace} := fun key used key' used' => checked key used key' used'

/-- A get, with what its transaction had put for the key by then. -/
structure Got where
  own : Option Bytes
  key : Bytes
  answer : Answer
  deriving DecidableEq, Repr

/-- The answer of a get for what it finds under the key. -/
def Answer.ofGet : Option Bytes → Answer
  | some found => .value found
  | none => .code .NOT_FOUND

/-- A get of the transaction, its handle still valid, after a trace. -/
def Event.got (trace : List Event) (t : Nat) : Event → Option Got
  | ⟨.get t' key, answer⟩ =>
      if t' = t ∧ answer ≠ .code .ERROR then some ⟨lastPut trace t key, key, answer⟩ else none
  | _ => none

def gets (events : List Event) (t : Nat) : List Got :=
  (List.range events.length).filterMap (fun n => events[n]?.bind (Event.got (events.take n) t))

theorem gets_snoc (events : List Event) (event : Event) (t : Nat) :
    gets (events ++ [event]) t = gets events t ++ (event.got events t).toList := by
  have front : (List.range events.length).filterMap
      (fun n => (events ++ [event])[n]?.bind (Event.got ((events ++ [event]).take n) t)) =
        gets events t := by
    refine List.filterMap_congr (fun n member => ?_)
    have bound := List.mem_range.mp member
    rw [List.getElem?_append_left bound, List.take_append_of_le_length bound.le]
  unfold gets at front ⊢
  rw [List.length_append, List.length_singleton, List.range_succ, List.filterMap_append, front]
  cases value : event.got events t <;> simp [value]

section Steps
variable {hash : Bytes → Nat} {db next : Db} {trace : List Event} {event : Event}

/-- A closed handle's calls show and change nothing. -/
theorem silent_of_closed {t : Nat} (closed : db.txns t = none) (did : Did hash db event next)
    (trace : List Event) : (∀ key, event.puts t key = none) ∧ event.got trace t = none := by
  have apart : ∀ {u txn}, db.txns u = some txn → u ≠ t := by
    rintro u txn opened rfl
    rw [closed] at opened
    cases opened
  cases did with
  | closed =>
    refine ⟨silent_of_answer (by simp) t, ?_⟩
    unfold Event.got
    split
    next same => cases same; simp
    next => rfl
  | begun | committed | failed | aborted => exact ⟨fun _ => rfl, rfl⟩
  | missing opened | getConflict opened | getMismatch opened | got opened | putConflict opened
  | putMismatch opened | updated opened | inserted opened =>
    simp [Event.puts, Event.got, apart opened]

/-- A row that an open transaction has accessed keeps its data while it passes the validation. -/
theorem row_did (sound : Sound db) (did : Did hash db event next) {t row : Nat} {txn : Txn}
    (opened : db.txns t = some txn) (held : row ∈ txn.accesses.map Access.origRow)
    (current : (next.store.rows row).manager.wts ≤ txn.startTs) :
    (next.store.rows row).manager.wts = (db.store.rows row).manager.wts ∧
      (next.store.rows row).data = (db.store.rows row).data := by
  cases did with
  | inserted =>
    have same := fun p columns => load_rows_old p columns (sound.bounded opened row held)
    exact ⟨congrArg (fun row => row.manager.wts) (same _ _), congrArg Row.data (same _ _)⟩
  | @committed u other opened' =>
    have nodup := (sound.opened u other opened').2.nodup
    rcases wroteBack_cases nodup db.store.rows db.store.timestamp row with ⟨_, _, _, _, same⟩ | ⟨_, same⟩
    · change (wroteBack other.accesses db.store.rows db.store.timestamp row).manager.wts ≤ _ at current
      rw [same] at current
      exact absurd (sound.opened t txn opened).2.started (Nat.not_lt.mpr current)
    · exact ⟨congrArg (fun row => row.manager.wts) same, congrArg Row.data same⟩
  | failed | aborted =>
    obtain ⟨_, data, manager, _⟩ := freed_frame _ db.store.rows row
    exact ⟨congrArg RowOcc.wts manager, data⟩
  | _ => exact ⟨rfl, rfl⟩

theorem Replaces.rows {row held : Nat} {kind : AccessT} {copy : Columns} {txn txn' : Txn}
    (replaces : Replaces row kind copy txn txn') (member : held ∈ txn.accesses.map Access.origRow) :
    held ∈ txn'.accesses.map Access.origRow := by
  obtain ⟨acc, before, rfl⟩ := List.mem_map.mp member
  by_cases here : acc.origRow = row
  · exact List.mem_map.mpr ⟨_, (replaces _).mpr (.inl rfl), here.symm⟩
  · exact List.mem_map.mpr ⟨acc, (replaces acc).mpr (.inr ⟨before, here⟩), rfl⟩

theorem nextId_did (did : Did hash db event next) : db.nextId ≤ next.nextId := by
  cases did with
  | begun => exact Nat.le_succ _
  | _ => exact le_rfl

/-- An open transaction was opened just now, or keeps its start timestamp and its rows. -/
theorem table_did (did : Did hash db event next) {t : Nat} {txn' : Txn}
    (found : next.txns t = some txn') : t = db.nextId ∨ ∃ txn, db.txns t = some txn ∧
      txn'.startTs = txn.startTs ∧ ∀ row ∈ txn.accesses.map Access.origRow,
        row ∈ txn'.accesses.map Access.origRow := by
  cases did with
  | begun =>
    rcases found_txn found with ⟨same, _⟩ | ⟨_, before⟩
    · exact .inl same
    · exact .inr ⟨txn', before, rfl, fun _ member => member⟩
  | closed | missing | getConflict | putConflict => exact .inr ⟨txn', found, rfl, fun _ member => member⟩
  | getMismatch opened _ _ fetched | got opened _ _ fetched | putMismatch opened _ _ fetched =>
    rcases found_txn found with ⟨rfl, same⟩ | ⟨_, before⟩
    · cases same
      exact .inr ⟨_, opened, fetched.start, fun _ member => fetched.replaces.rows member⟩
    · exact .inr ⟨txn', before, rfl, fun _ member => member⟩
  | updated opened _ _ _ _ entered =>
    rcases found_txn found with ⟨rfl, same⟩ | ⟨_, before⟩
    · cases same
      exact .inr ⟨_, opened, entered.start, fun _ member => entered.replaces.rows member⟩
    · exact .inr ⟨txn', before, rfl, fun _ member => member⟩
  | inserted opened =>
    rcases found_txn found with ⟨rfl, same⟩ | ⟨_, before⟩
    · cases same
      refine .inr ⟨_, opened, rfl, fun _ member => ?_⟩
      simp only [record_accesses, List.map_append]
      exact List.mem_append_left _ member
    · exact .inr ⟨txn', before, rfl, fun _ member => member⟩
  | committed | failed | aborted =>
    rcases found_txn found with ⟨_, gone⟩ | ⟨_, before⟩
    · cases gone
    · exact .inr ⟨txn', before, rfl, fun _ member => member⟩

/-- What an answer says of the access table: the transaction's own put, nothing, or the data of a
row that is there. -/
inductive Seen (hash : Bytes → Nat) (s : Store) (txn : Txn) : Got → Prop
  | own {key value : Bytes} : Seen hash s txn ⟨some value, key, .value value⟩
  | missing {key : Bytes} (clean : 0 ∉ key) : Seen hash s txn ⟨none, key, .code .NOT_FOUND⟩
  | copied {key value : Bytes} {row : Nat} (clean : 0 ∉ key) (head : s.indexRead (hash key) = some row)
      (held : row ∈ txn.accesses.map Access.origRow)
      (unchanged : (s.rows row).manager.wts ≤ txn.startTs → (s.rows row).data = ⟨key, value⟩) :
      Seen hash s txn ⟨none, key, .value value⟩

def Db.Inserted (db : Db) (row : Nat) : Prop := ∃ t txn, db.txns t = some txn ∧ row ∈ txn.insertRows

/-- A written copy of a row that an open transaction inserted is of a key its holder put. -/
def Authored (hash : Bytes → Nat) (trace : List Event) (db : Db) (t : Nat) (txn : Txn) : Prop :=
  ∀ acc ∈ txn.accesses, acc.type = .WR → db.Inserted acc.origRow → OwnPut hash trace db.store t acc

structure Observed (hash : Bytes → Nat) (trace : List Event) (db : Db) : Prop where
  unseen : ∀ t, db.nextId ≤ t → gets trace t = []
  seen : ∀ t txn, db.txns t = some txn → ∀ got ∈ gets trace t, Seen hash db.store txn got
  authored : ∀ t txn, db.txns t = some txn → Authored hash trace db t txn

/-- No timestamp conflict, and keys are C strings. -/
def Calm (hash : Bytes → Nat) (db : Db) (event : Event) : Prop :=
  StringsFit event ∧ (∀ key ∈ event.call.key, 0 ∉ key) ∧ db.conflicts hash event.call = false

instance (hash : Bytes → Nat) (db : Db) (event : Event) : Decidable (Calm hash db event) :=
  inferInstanceAs (Decidable (_ ∧ (∀ key ∈ event.call.key, 0 ∉ key) ∧ _))

theorem seen_kept (sound : Sound db) (did : Did hash db event next) {t : Nat} {txn txn' : Txn} {got : Got}
    (opened : db.txns t = some txn) (start : txn'.startTs = txn.startTs)
    (rows : ∀ row ∈ txn.accesses.map Access.origRow, row ∈ txn'.accesses.map Access.origRow)
    (seen : Seen hash db.store txn got) : Seen hash next.store txn' got := by
  cases seen with
  | own => exact .own
  | missing clean => exact .missing clean
  | copied clean head held unchanged =>
    refine .copied clean ((Extends.of_did sound did).1.kept _ _ head) (rows _ held) (fun current => ?_)
    rw [start] at current
    obtain ⟨version, data⟩ := row_did sound did opened held current
    rw [data]
    exact unchanged (version ▸ current)

/-- The row of a key that the transaction has put is found with that value. -/
theorem own_found {t row : Nat} {txn txn' : Txn} {type kind : AccessT} {key value : Bytes} {copy : Columns}
    (tracked : Tracked hash trace db.store t txn) (last : lastPut trace t key = some value)
    (found : db.store.indexRead (hash key) = some row)
    (fetched : Fetched db.store txn row type kind copy txn') : copy = ⟨key, value⟩ :=
  (fetched.again _ (tracked.put_at found last) rfl).1.symm

/-- What a get answers is seen in the table it leaves. -/
theorem seen_new (recorded : Recorded hash trace db) (calm : Calm hash db event)
    (did : Did hash db event next) {t : Nat} {txn' : Txn} {got : Got} (opened' : next.txns t = some txn')
    (new : event.got trace t = some got) : Seen hash next.store txn' got := by
  obtain ⟨_, clean, free⟩ := calm
  have mine : ∀ {u key answer}, Event.got trace t ⟨.get u key, answer⟩ = some got →
      u = t ∧ got = ⟨lastPut trace t key, key, answer⟩ := by
    intro u key answer new
    simp only [Event.got] at new
    split at new
    next here => cases new; exact ⟨here.1, rfl⟩
    next => cases new
  cases did with
  | @closed call =>
    cases call with
    | get => simp [Event.got] at new
    | _ => cases new
  | begun | putConflict | putMismatch | updated | inserted | committed | failed | aborted => cases new
  | @missing _ key txn opened absent =>
    obtain ⟨rfl, rfl⟩ := mine new
    rw [(recorded.tracked _ txn opened).unput_of_absent absent]
    exact .missing (clean key rfl)
  | @getConflict u key txn row opened found first newer =>
    have refused : db.conflicts hash (.get u key) = true := by
      simp [Db.conflicts, opened, firstAccess_eq opened first, found, newer]
    exact absurd refused (Bool.eq_false_iff.mp free)
  | @getMismatch _ key txn _ row kind copy opened found _ fetched differs =>
    obtain ⟨rfl, rfl⟩ := mine new
    cases last : lastPut trace _ key with
    | none => exact .missing (clean key rfl)
    | some value =>
      have same := own_found (recorded.tracked _ txn opened) last found fetched
      exact absurd (by rw [same, cStr_of_no_nul (clean key rfl)]) differs
  | @got _ key txn txn₁ row kind copy opened found _ fetched same =>
    obtain ⟨rfl, rfl⟩ := mine new
    rw [cStr_of_no_nul (clean key rfl)] at same
    subst same
    have tracked := recorded.tracked _ txn opened
    have table := opened'.symm.trans (Function.update_self _ _ _)
    cases table
    cases last : lastPut trace _ copy.key with
    | some value =>
      have same := own_found tracked last found fetched
      rw [same]
      exact .own
    | none =>
      have member := (fetched.replaces _).mpr (.inl rfl)
      refine .copied (clean copy.key rfl) found (List.mem_map_of_mem member) (fun current => ?_)
      exact ((tracked.fetched fetched).unput _ member (fun own => own.2 last) current).symm

/-- A row that was there has been inserted by a transaction that is still open, if by any. -/
theorem inserted_did (did : Did hash db event next) (row : Nat) (old : row < db.store.curTabSize)
    (inserted : next.Inserted row) : db.Inserted row := by
  obtain ⟨t, txn, found, member⟩ := inserted
  cases did with
  | begun =>
    rcases found_txn found with ⟨_, same⟩ | ⟨_, before⟩
    · cases same
      cases member
    · exact ⟨t, txn, before, member⟩
  | closed | missing | getConflict | putConflict => exact ⟨t, txn, found, member⟩
  | getMismatch opened _ _ fetched | got opened _ _ fetched | putMismatch opened _ _ fetched =>
    rcases found_txn found with ⟨_, same⟩ | ⟨_, before⟩
    · cases same
      exact ⟨_, _, opened, fetched.inserts ▸ member⟩
    · exact ⟨t, txn, before, member⟩
  | updated opened _ _ _ _ entered =>
    rcases found_txn found with ⟨_, same⟩ | ⟨_, before⟩
    · cases same
      exact ⟨_, _, opened, entered.inserts ▸ member⟩
    · exact ⟨t, txn, before, member⟩
  | inserted opened =>
    rcases found_txn found with ⟨_, same⟩ | ⟨_, before⟩
    · cases same
      rcases List.mem_append.mp member with before | last
      · exact ⟨_, _, opened, before⟩
      · exact absurd (List.mem_singleton.mp last) old.ne
    · exact ⟨t, txn, before, member⟩
  | committed | failed | aborted =>
    rcases found_txn found with ⟨_, gone⟩ | ⟨_, before⟩
    · cases gone
    · exact ⟨t, txn, before, member⟩

theorem OwnPut.kept {t : Nat} {acc : Access Nat Columns} (sound : Sound db) (did : Did hash db event next)
    (own : OwnPut hash trace db.store t acc) : OwnPut hash (trace ++ [event]) next.store t acc := by
  refine ⟨(Extends.of_did sound did).1.kept _ _ own.1, ?_⟩
  rw [lastPut_snoc]
  cases value : event.puts t acc.data.key with
  | none => exact own.2
  | some _ => simp

/-- A table that a call leaves as it is. -/
theorem Authored.kept {t : Nat} {txn : Txn} (authored : Authored hash trace db t txn) (sound : Sound db)
    (opened : db.txns t = some txn) (did : Did hash db event next) :
    Authored hash (trace ++ [event]) next t txn := by
  intro acc member kind inserted
  have old := sound.bounded opened _ (List.mem_map_of_mem member)
  exact (authored acc member kind (inserted_did did _ old inserted)).kept sound did

theorem Authored.entered {t row : Nat} {txn txn' : Txn} {kind : AccessT} {copy : Columns}
    (authored : Authored hash trace next t txn) (entered : Entered db.store txn row kind copy txn')
    (own : kind = .WR → next.Inserted row → OwnPut hash trace next.store t ⟨kind, row, copy⟩) :
    Authored hash trace next t txn' := by
  intro acc member written inserted
  rcases (entered.replaces acc).mp member with rfl | ⟨before, _⟩
  · exact own written inserted
  · exact authored acc before written inserted

/-- A get raises no access. -/
theorem Authored.read {t row : Nat} {txn txn' : Txn} {kind : AccessT} {copy : Columns}
    (authored : Authored hash trace next t txn) (fetched : Fetched db.store txn row .RD kind copy txn') :
    Authored hash trace next t txn' := by
  refine authored.entered fetched.toEntered (fun written inserted => ?_)
  by_cases known : ∃ acc ∈ txn.accesses, acc.origRow = row
  · obtain ⟨acc, member, rfl⟩ := known
    obtain ⟨rfl, _, raised⟩ := fetched.again acc member rfl
    rcases raised written with reads | before
    · cases reads
    · exact authored acc member before inserted
  · obtain ⟨_, _, rfl⟩ := fetched.first (fun acc member here => known ⟨acc, member, here⟩)
    cases written

/-- An uncommitted row is of a key that was put. -/
theorem inserted_key (sound : Sound db)
    (authored : ∀ t txn, db.txns t = some txn → Authored hash trace db t txn) {row : Nat}
    (inserted : db.Inserted row) : (db.store.rows row).data.key ∈ keysUsed trace ∧
      db.store.indexRead (hash (db.store.rows row).data.key) = some row := by
  obtain ⟨u, other, opened, member⟩ := inserted
  have here := (sound.opened u other opened).2
  obtain ⟨_, acc, before, rfl, kind⟩ := here.inserted row member
  have own := authored u other opened acc before kind ⟨u, other, opened, member⟩
  obtain ⟨head, put⟩ := own
  rw [here.key acc before] at head put
  obtain ⟨value, last⟩ := Option.ne_none_iff_exists'.mp put
  exact ⟨List.mem_filterMap.mpr ⟨_, mem_of_lastPut last, rfl⟩, head⟩

theorem authored_did (sound : Sound db) (calm : Calm hash db event)
    (distinct : Set.InjOn hash {key | key ∈ keysUsed (trace ++ [event])}) (did : Did hash db event next)
    (authored : ∀ t txn, db.txns t = some txn → Authored hash trace db t txn) (t : Nat) (txn' : Txn)
    (found : next.txns t = some txn') : Authored hash (trace ++ [event]) next t txn' := by
  have kept := fun u txn opened => (authored u txn opened).kept sound opened did
  have earlier := inserted_did did
  obtain ⟨fits, clean, _⟩ := calm
  cases did with
  | begun =>
    rcases found_txn found with ⟨_, same⟩ | ⟨_, before⟩
    · cases same
      exact fun acc member => (nomatch member)
    · exact kept t txn' before
  | closed | missing | getConflict | putConflict => exact kept t txn' found
  | getMismatch opened _ _ fetched | got opened _ _ fetched =>
    rcases found_txn found with ⟨rfl, same⟩ | ⟨_, before⟩
    · cases same
      exact (kept _ _ opened).read fetched
    · exact kept t txn' before
  | @putMismatch _ key _ _ _ row kind copy opened head _ fetched differs =>
    rcases found_txn found with ⟨rfl, same⟩ | ⟨_, before⟩
    · cases same
      refine (kept _ _ opened).entered fetched.toEntered (fun _ inserted => absurd ?_ differs)
      -- The row is of a key that was put, and with an injective hash that is this key.
      have old := (sound.alloc _ _ (Store.entries_of_indexRead head)).1
      obtain ⟨used, head'⟩ := inserted_key sound authored (earlier row old inserted)
      have place := (sound.key_of_indexRead head').symm.trans (sound.key_of_indexRead head)
      have name := fetched.opened.key _ ((fetched.replaces _).mpr (.inl rfl))
      have same : (db.store.rows row).data.key = key := by
        refine distinct ?_ ?_ place
        · exact keysUsed_snoc ▸ List.mem_append_left _ used
        · exact keysUsed_snoc ▸ List.mem_append_right _ (List.mem_singleton.mpr rfl)
      rw [cStr_of_no_nul (clean key rfl)]
      exact name.trans same
    · exact kept t txn' before
  | updated opened head _ _ same entered =>
    rcases found_txn found with ⟨rfl, table⟩ | ⟨_, before⟩
    · cases table
      rw [cStr_of_no_nul (clean _ rfl)] at same
      subst same
      refine (kept _ _ opened).entered entered (fun _ _ => ⟨head, ?_⟩)
      simp [lastPut_put]
    · exact kept t txn' before
  | @inserted u key value txn opened absent =>
    rcases found_txn found with ⟨rfl, table⟩ | ⟨_, before⟩
    · cases table
      intro acc member written inserted
      rcases List.mem_append.mp member with before | last
      · exact kept _ txn opened acc before written inserted
      · cases List.mem_singleton.mp last
        refine ⟨?_, ?_⟩ <;> rw [show strncpy key 127 = key from strncpy_of_fits fits.1]
        · exact (load_indexRead _ _ _ _).trans (if_pos rfl)
        · simp [lastPut_put]
    · exact kept t txn' before
  | committed | failed | aborted =>
    rcases found_txn found with ⟨_, gone⟩ | ⟨_, before⟩
    · cases gone
    · exact kept t txn' before

theorem observed_did (observed : Observed hash trace db) (recorded : Recorded hash trace db)
    (sound : Sound db) (calm : Calm hash db event)
    (distinct : Set.InjOn hash {key | key ∈ keysUsed (trace ++ [event])}) (did : Did hash db event next) :
    Observed hash (trace ++ [event]) next where
  unseen := by
    intro t unused
    have before : db.nextId ≤ t := (nextId_did did).trans unused
    have closed : db.txns t = none := by
      cases opened : db.txns t with
      | none => rfl
      | some txn => exact absurd (sound.opened t txn opened).1 (Nat.not_lt.mpr before)
    rw [gets_snoc, observed.unseen t before, (silent_of_closed closed did trace).2]
    rfl
  seen := by
    intro t txn' opened' got member
    rw [gets_snoc, List.mem_append] at member
    rcases member with before | new
    · rcases table_did did opened' with rfl | ⟨txn, opened, start, rows⟩
      · rw [observed.unseen _ le_rfl] at before
        cases before
      · exact seen_kept sound did opened start rows (observed.seen t txn opened got before)
    · exact seen_new recorded calm did opened' (Option.mem_toList.mp new)
  authored := fun t txn' found => authored_did sound calm distinct did observed.authored t txn' found

end Steps

end DataAgentDB.Kv
