import DataAgentDB.Kv.AccessTable
import DataAgentDB.Kv.Abort
import DataAgentDB.Kv.History
import Mathlib.Data.List.TakeDrop

/-! A transaction's get of a key it has put. The copy in its access table answers it, as the C
strings that `strncpy` left in the columns. -/

namespace DataAgentDB.Kv
open Storage Server TxnMan LabelledRun

/-- A get of the key by the transaction answers with the value. -/
def ReadsBack (hash : Bytes → Nat) (db : Db) (t : Nat) (key value : Bytes) : Prop :=
  ∃ next, Step hash db ⟨.get t key, .value value⟩ next

/-- A get answers the value put before, and after a second put the value of that one. -/
def ReadsOwn (hash : Bytes → Nat) (db : Db) (t : Nat) (key value again : Bytes) : Prop :=
  ReadsBack hash db t key value ∧
    ∃ next, Step hash db ⟨.put t key again, .code .OK⟩ next ∧ ReadsBack hash next t key again

/-- A further call of anyone that neither puts the key in the transaction nor ends it, does not
put another key that shares index key and C string with it there, and does not discard a
transaction that inserted the key's row. -/
def Beside (hash : Bytes → Nat) (t : Nat) (key : Bytes) (_ : List Event) (db : Db) (event : Event) : Prop :=
  event.call ≠ .commit t ∧ event.call ≠ .abort_txn t ∧
  (∀ other value, event.call = .put t other value → hash other = hash key → cStr other ≠ cStr key) ∧
  ∀ txn, db.discards event.call = some txn → ∀ row ∈ txn.insertRows,
    db.store.indexRead (hash key) ≠ some row

/-- The open transaction holds a written copy of the live row under an index key. -/
structure Holds (db : Db) (t p row : Nat) (copy : Columns) (txn : Txn) : Prop where
  opened : db.txns t = some txn
  head : db.store.indexRead p = some row
  live : (db.store.rows row).live = true
  entry : ⟨.WR, row, copy⟩ ∈ txn.accesses

theorem strncpy_eq_self_iff (s : Bytes) (count : Nat) : strncpy s count = s ↔ Fits count s := by
  constructor
  · intro whole
    have short : (strncpy s count).length ≤ count := List.length_take_le _ _
    have clean : 0 ∉ strncpy s count := strncpy_no_nul s count
    rw [whole] at short clean
    exact ⟨short, clean⟩
  · exact strncpy_of_fits

section Steps
variable {hash : Bytes → Nat} {db next : Db} {t row : Nat} {key : Bytes} {copy : Columns} {txn : Txn}

/-- A written copy stays in a table whose row is fetched again. -/
theorem Fetched.keeps {s : Store} {row' : Nat} {type kind : AccessT} {other : Columns} {txn' : Txn}
    (fetched : Fetched s txn row' type kind other txn') (entry : ⟨.WR, row, copy⟩ ∈ txn.accesses) :
    ⟨.WR, row, copy⟩ ∈ txn'.accesses := by
  apply (fetched.replaces _).mpr
  by_cases here : row = row'
  · subst here
    obtain ⟨rfl, raised, -⟩ := fetched.again _ entry rfl
    rw [raised rfl]
    exact .inl rfl
  · exact .inr ⟨entry, here⟩

/-- A change of some transaction's table that leaves the copy in it. -/
theorem Holds.setTxn (holds : Holds db t (hash key) row copy txn) {u : Nat} {txn₁ txn₂ : Txn}
    (opened : db.txns u = some txn₁)
    (keeps : ⟨.WR, row, copy⟩ ∈ txn₁.accesses → ⟨.WR, row, copy⟩ ∈ txn₂.accesses) :
    ∃ txn', Holds (db.setTxn u (some txn₂)) t (hash key) row copy txn' := by
  by_cases own : u = t
  · subst own
    rw [holds.opened] at opened
    cases opened
    exact ⟨txn₂, Function.update_self _ _ _, holds.head, holds.live, keeps holds.entry⟩
  · have kept : (db.setTxn u (some txn₂)).txns t = some txn :=
      (Function.update_of_ne (Ne.symm own) _ _).trans holds.opened
    exact ⟨txn, kept, holds.head, holds.live, holds.entry⟩

/-- The end of another transaction that leaves the row alive. -/
theorem Holds.ended (holds : Holds db t (hash key) row copy txn) {u : Nat} (apart : u ≠ t)
    {rows : Nat → Row Columns} {ts : Nat} (live : (rows row).live = true) :
    Holds ({ db with store := { db.store with rows := rows, timestamp := ts } }.setTxn u none)
      t (hash key) row copy txn where
  opened := (Function.update_of_ne apart.symm _ _).trans holds.opened
  head := holds.head
  live := live
  entry := holds.entry

/-- The key of a held copy stays, and its value unless the copy has another key than it was
put under. -/
theorem holds_did (sound : Sound db) (holds : Holds db t (hash key) row copy txn) {trace : List Event}
    {event : Event} (beside : Beside hash t key trace db event) (did : Did hash db event next) :
    ∃ copy' txn', Holds next t (hash key) row copy' txn' ∧ copy'.key = copy.key ∧
      (copy.key = cStr key → copy' = copy) := by
  obtain ⟨noCommit, noAbort, noPut, spared⟩ := beside
  have rowKey := sound.key_of_indexRead holds.head
  have old : row < db.store.curTabSize := (sound.alloc _ row (Store.entries_of_indexRead holds.head)).1
  have same : ∀ {after : Db}, (∃ txn', Holds after t (hash key) row copy txn') →
      ∃ copy' txn', Holds after t (hash key) row copy' txn' ∧ copy'.key = copy.key ∧
        (copy.key = cStr key → copy' = copy) := by
    intro after ⟨txn', held⟩
    exact ⟨copy, txn', held, rfl, fun _ => rfl⟩
  cases did with
  | begun =>
    apply same
    have apart : t ≠ db.nextId := (sound.opened t txn holds.opened).1.ne
    exact ⟨txn, (Function.update_of_ne apart _ _).trans holds.opened, holds.head, holds.live, holds.entry⟩
  | closed | missing | getConflict | putConflict => exact same ⟨txn, holds⟩
  | getMismatch opened _ _ fetched | got opened _ _ fetched | putMismatch opened _ _ fetched =>
    exact same (holds.setTxn opened fetched.keeps)
  | @updated u other value txn₁ _ txn₂ row₁ kind copy₁ opened found _ fetched named entered =>
    by_cases here : u = t ∧ row₁ = row
    · obtain ⟨rfl, rfl⟩ := here
      rw [holds.opened] at opened
      cases opened
      obtain ⟨rfl, -⟩ := fetched.again _ holds.entry rfl
      have sameKey : hash other = hash key := (sound.key_of_indexRead found).symm.trans rowKey
      have member := (entered.replaces ⟨.WR, row₁, { copy with value := strncpy value 1023 }⟩).mpr
        (.inl (by rw [fetched.written rfl]))
      refine ⟨_, txn₂, ⟨Function.update_self _ _ _, holds.head, holds.live, member⟩, rfl, fun whole => ?_⟩
      exact absurd (named.symm.trans whole) (noPut other value rfl sameKey)
    · apply same
      by_cases own : u = t
      · have apart : row ≠ row₁ := fun equal => here ⟨own, equal.symm⟩
        exact holds.setTxn opened (fun entry => (entered.replaces _).mpr (.inr ⟨entry, apart⟩))
      · exact ⟨txn, (Function.update_of_ne (Ne.symm own) _ _).trans holds.opened, holds.head, holds.live,
          holds.entry⟩
  | @inserted u other value txn₁ opened absent =>
    apply same
    have grown : ∀ columns, Holds { db with store := db.store.load (hash other) columns } t (hash key)
        row copy txn := by
      intro columns
      exact ⟨holds.opened, (extends_load _ absent).kept _ _ holds.head,
        (congrArg Row.live (load_rows_old _ _ old)).trans holds.live, holds.entry⟩
    exact (grown _).setTxn opened (fun entry => List.mem_append_left _ entry)
  | @committed u txn₁ opened =>
    apply same
    have here := (sound.opened u txn₁ opened).2
    have frame := wroteBack_frame txn₁.accesses db.store.rows db.store.timestamp row here.key here.nodup
    exact ⟨txn, holds.ended (fun own => noCommit (by rw [own])) (frame.2.2.1.trans holds.live)⟩
  | @failed u txn₁ acc opened member newer =>
    apply same
    have kept : row ∉ txn₁.insertRows :=
      fun inserted => spared txn₁ (discards_failed opened member newer) row inserted holds.head
    have frame := (freed_frame txn₁.insertRows db.store.rows row).2.2.2 kept
    exact ⟨txn, holds.ended (fun own => noCommit (by rw [own])) ((congrArg Row.live frame).trans holds.live)⟩
  | @aborted u txn₁ opened =>
    apply same
    have kept : row ∉ txn₁.insertRows := fun inserted => spared txn₁ opened row inserted holds.head
    have frame := (freed_frame txn₁.insertRows db.store.rows row).2.2.2 kept
    exact ⟨txn, holds.ended (fun own => noAbort (by rw [own])) ((congrArg Row.live frame).trans holds.live)⟩

/-- A put that answered `OK` leaves a written copy. -/
theorem holds_of_put (sound : Sound db) {value : Bytes}
    (taken : Step hash db ⟨.put t key value, .code .OK⟩ next) :
    ∃ row copy txn, Holds next t (hash key) row copy txn ∧ copy.value = strncpy value 1023 ∧
      (copy.key = cStr key ↔ (db.store.indexRead (hash key) = none → (cStr key).length ≤ 127)) := by
  cases did_of_step sound taken with
  | @updated _ _ _ _ _ txn'' row _ copy opened found live fetched named entered =>
    refine ⟨row, { copy with value := strncpy value 1023 }, txn'', ?_, rfl, ?_⟩
    · refine ⟨Function.update_self _ _ _, found, live, (entered.replaces _).mpr (.inl ?_)⟩
      rw [fetched.written rfl]
    · rw [found]
      exact iff_of_true named (fun absent => (nomatch absent))
  | @inserted _ _ _ before opened absent =>
    have after : (db.grown t before (hash key) ⟨strncpy key 127, strncpy value 1023⟩).txns t = some _ :=
      Function.update_self _ _ _
    refine ⟨db.store.curTabSize, ⟨strncpy key 127, strncpy value 1023⟩, _, ⟨after, ?_, ?_, ?_⟩, rfl, ?_⟩
    · exact (load_indexRead _ _ _ _).trans (if_pos rfl)
    · exact congrArg Row.live (load_rows_new _ _ _)
    · exact List.mem_append_right _ (List.mem_singleton.mpr rfl)
    · simp only [absent, true_imp_iff, strncpy, List.take_eq_self_iff]

/-- A held key is in the table, so a get or a put of it needs no room. -/
theorem Holds.place (sound : Sound db) (holds : Holds db t (hash key) row copy txn) :
    txn.recordPos (hash key) ≠ none := by
  obtain ⟨i, entry⟩ := List.mem_iff_getElem?.mp holds.entry
  have listed : (txn.accesses.map Access.origRow)[i]? = some row := by rw [List.getElem?_map, entry]; rfl
  have indexed := (sound.opened t txn holds.opened).2.indexed (hash key) i
  rw [indexed.mpr ⟨row, listed, sound.key_of_indexRead holds.head⟩]
  simp

theorem Holds.completes (sound : Sound db) (bounds : txn.Bounded) (holds : Holds db t (hash key) row copy txn)
    {call : Call} (target : call.target = some t) (accesses : call.accesses = true)
    (accessed : db.store.accessed hash call = some (hash key)) :
    ∃ answer next, Step hash db ⟨call, answer⟩ next := by
  refine completes_of_hasRoom sound holds.opened bounds target accesses ?_ ?_
  · intro p same row' found
    rw [accessed] at same
    cases same
    rw [holds.head] at found
    cases found
    exact holds.live
  · intro p same missing
    rw [accessed] at same
    cases same
    exact absurd missing (holds.place sound)

/-- A fetch of the held row hands out the held copy. -/
theorem Holds.fetched (holds : Holds db t (hash key) row copy txn) {txn₁ txn₂ : Txn} {row₁ : Nat}
    {type kind : AccessT} {copy₁ : Columns} (opened : db.txns t = some txn₁)
    (found : db.store.indexRead (hash key) = some row₁)
    (fetched : Fetched db.store txn₁ row₁ type kind copy₁ txn₂) : copy₁ = copy := by
  rw [holds.opened] at opened
  cases opened
  rw [holds.head] at found
  cases found
  exact (fetched.again _ holds.entry rfl).1.symm

/-- The get of a held key completes, with the value of the copy if the keys agree. -/
theorem readsBack_iff (sound : Sound db) (bounds : txn.Bounded)
    (holds : Holds db t (hash key) row copy txn) (value : Bytes) :
    ReadsBack hash db t key value ↔ copy.key = cStr key ∧ copy.value = value := by
  have answers : ∀ answer next, Step hash db ⟨.get t key, answer⟩ next →
      answer = if copy.key = cStr key then .value copy.value else .code .NOT_FOUND := by
    intro answer next taken
    have own := holds.opened
    cases did_of_step sound taken with
    | closed target closed => exact absurd closed (not_refused own target)
    | missing opened absent =>
      rw [holds.head] at absent
      cases absent
    | getConflict opened found first =>
      rw [own] at opened
      cases opened
      exact absurd first (holds.place sound)
    | getMismatch opened found live fetched differs =>
      rw [if_neg (holds.fetched opened found fetched ▸ differs)]
    | got opened found live fetched same =>
      obtain rfl := holds.fetched opened found fetched
      rw [if_pos same]
  constructor
  · intro ⟨next, taken⟩
    have same := answers _ _ taken
    split at same
    next named =>
      cases same
      exact ⟨named, rfl⟩
    next => cases same
  · rintro ⟨named, rfl⟩
    have accessed : db.store.accessed hash (.get t key) = some (hash key) := by
      simp [Store.accessed, holds.head, sound.key_of_indexRead holds.head]
    obtain ⟨answer, next, taken⟩ := holds.completes sound bounds rfl rfl accessed
    have same := answers answer next taken
    rw [if_pos named] at same
    exact ⟨next, same ▸ taken⟩

/-- So does a second put of it. -/
theorem put_of_holds (sound : Sound db) (bounds : txn.Bounded)
    (holds : Holds db t (hash key) row copy txn) (named : copy.key = cStr key) (value : Bytes) :
    ∃ next, Step hash db ⟨.put t key value, .code .OK⟩ next := by
  have accessed : db.store.accessed hash (.put t key value) = some (hash key) := by
    simp [Store.accessed, holds.head, sound.key_of_indexRead holds.head]
  obtain ⟨answer, next, taken⟩ := holds.completes sound bounds rfl rfl accessed
  have own := holds.opened
  cases did_of_step sound taken with
  | closed target closed => exact absurd closed (not_refused own target)
  | putConflict opened found first =>
    rw [own] at opened
    cases opened
    exact absurd first (holds.place sound)
  | putMismatch opened found live fetched differs =>
    exact absurd named (holds.fetched opened found fetched ▸ differs)
  | updated => exact ⟨_, taken⟩
  | inserted => exact ⟨_, taken⟩

end Steps

/-- In any run, after a put that answered `OK` and any further calls beside it, the transaction
reads its own writes exactly when the key fits its column, in case the put inserted it, and both
values fit theirs. -/
theorem own_writes_iff (hash : Bytes → Nat) (file : List (Bytes × Bytes)) (trace : List Event) (db first : Db)
    (run : Run (Step hash) Always (initial hash file) trace db) (t : Nat) (key value again : Bytes)
    (put : Step hash db ⟨.put t key value, .code .OK⟩ first) (later : List Event) (last : Db)
    (beside : Run (Step hash) (Beside hash t key) first later last) :
    ReadsOwn hash last t key value again ↔
      (db.store.indexRead (hash key) = none → (cStr key).length ≤ 127) ∧ Fits 1023 value ∧ Fits 1023 again := by
  have sound := sound_run run
  obtain ⟨row, copy, txn, holds, stored, named⟩ := holds_of_put sound put
  have whole : Run (Step hash) Always (initial hash file) (trace ++ [_]) first := .snoc run trivial put
  have kept := beside.invariant (fun _ db => Sound db ∧ (∀ u txn, db.txns u = some txn → txn.Bounded) ∧
      ∃ copy' txn', Holds db t (hash key) row copy' txn' ∧ copy'.key = copy.key ∧
        (copy.key = cStr key → copy' = copy))
    ⟨sound_run whole, bounded_run whole, copy, txn, holds, rfl, fun _ => rfl⟩ (by
      rintro trace db event next ⟨sound, bounds, copy', txn', holds, key', value'⟩ fits taken
      have did := did_of_step sound taken
      obtain ⟨copy'', txn'', holds', key'', value''⟩ := holds_did sound holds fits did
      refine ⟨sound_did sound did, bounded_perform sound bounds (perform_of_step taken), copy'', txn'', holds',
        key''.trans key', fun same => ?_⟩
      exact (value'' (key'.trans same)).trans (value' same))
  obtain ⟨sound', bounds', copy', txn', holds', key', value'⟩ := kept
  have fits := fun value : Bytes => strncpy_eq_self_iff value 1023
  have reads := readsBack_iff sound' (bounds' t txn' holds'.opened) holds'
  constructor
  · rintro ⟨back, next, second, back'⟩
    obtain ⟨same, own⟩ := (reads value).mp back
    have same' := key'.symm.trans same
    cases value' same'
    obtain ⟨row₂, copy₂, txn₂, holds₂, stored₂, -⟩ := holds_of_put sound' second
    have sound₂ := sound_did sound' (did_of_step sound' second)
    have bounds₂ := bounded_perform sound' bounds' (perform_of_step second)
    have own₂ := ((readsBack_iff sound₂ (bounds₂ t txn₂ holds₂.opened) holds₂ again).mp back').2
    exact ⟨named.mp same', (fits value).mp (stored.symm.trans own), (fits again).mp (stored₂.symm.trans own₂)⟩
  · rintro ⟨short, fit, fit'⟩
    have same := named.mpr short
    cases value' same
    obtain ⟨next, second⟩ := put_of_holds sound' (bounds' t txn' holds'.opened) holds' same again
    obtain ⟨row₂, copy₂, txn₂, holds₂, stored₂, named₂⟩ := holds_of_put sound' second
    have sound₂ := sound_did sound' (did_of_step sound' second)
    have bounds₂ := bounded_perform sound' bounds' (perform_of_step second)
    have same₂ := named₂.mpr (fun absent => by rw [holds'.head] at absent; cases absent)
    refine ⟨(reads value).mpr ⟨same, stored.trans ((fits value).mpr fit)⟩, next, second, ?_⟩
    exact (readsBack_iff sound₂ (bounds₂ t txn₂ holds₂.opened) holds₂ again).mpr
      ⟨same₂, stored₂.trans ((fits again).mpr fit')⟩

/-- A new key, with a get and a put of another one in between. -/
theorem own_writes_beside :
    ∃ last, ReadsOwn numeral last 1 (bytes "a") (bytes "x") (bytes "y") := by
  have played : ((play (Db.next numeral) (initial numeral []) [⟨.begin_txn, .begun 1⟩]).bind (fun db =>
      (db.next numeral ⟨.put 1 (bytes "a") (bytes "x"), .code .OK⟩).bind (fun first =>
      (first.next numeral ⟨.get 1 (bytes "b"), .code .NOT_FOUND⟩).bind (fun middle =>
      (middle.next numeral ⟨.put 1 (bytes "b") (bytes "z"), .code .OK⟩))))).isSome = true := by decide +kernel
  obtain ⟨last, played⟩ := Option.isSome_iff_exists.mp played
  obtain ⟨db, ran, played⟩ := Option.bind_eq_some_iff.mp played
  obtain ⟨first, put, played⟩ := Option.bind_eq_some_iff.mp played
  obtain ⟨middle, other, another⟩ := Option.bind_eq_some_iff.mp played
  have beside : Run (Step numeral) (Beside numeral 1 (bytes "a")) first
      ([] ++ [⟨.get 1 (bytes "b"), .code .NOT_FOUND⟩] ++ [⟨.put 1 (bytes "b") (bytes "z"), .code .OK⟩]) last := by
    refine .snoc (.snoc .nil ?_ other) ?_ another
    · exact ⟨by simp, by simp, by simp, fun txn ends => (nomatch ends)⟩
    · refine ⟨by simp, by simp, fun key value same collides => ?_, fun txn ends => (nomatch ends)⟩
      cases same
      exact absurd collides (by decide +kernel)
  exact ⟨last, (own_writes_iff numeral [] _ db first (run_of_play ran) 1 (bytes "a") (bytes "x") (bytes "y")
    put _ last beside).mpr ⟨fun _ => by decide, by decide, by decide⟩⟩

/-- A new key of 128 bytes is stored cut to 127, and the get that follows does not find it. -/
theorem own_write_unread :
    ∃ db first, Run (Step numeral) Always (initial numeral []) [⟨.begin_txn, .begun 1⟩] db ∧
      Step numeral db ⟨.put 1 (List.replicate 128 97) (bytes "x"), .code .OK⟩ first ∧
      ¬ ReadsOwn numeral first 1 (List.replicate 128 97) (bytes "x") (bytes "y") := by
  have played : ((play (Db.next numeral) (initial numeral []) [⟨.begin_txn, .begun 1⟩]).bind (fun db =>
      (db.next numeral ⟨.put 1 (List.replicate 128 97) (bytes "x"), .code .OK⟩).bind (fun first =>
      first.next numeral ⟨.get 1 (List.replicate 128 97), .code .NOT_FOUND⟩))).isSome = true := by decide +kernel
  obtain ⟨last, played⟩ := Option.isSome_iff_exists.mp played
  obtain ⟨db, ran, played⟩ := Option.bind_eq_some_iff.mp played
  obtain ⟨first, put, missed⟩ := Option.bind_eq_some_iff.mp played
  refine ⟨db, first, run_of_play ran, put, fun own => ?_⟩
  obtain ⟨⟨next, read⟩, -⟩ := own
  have missed := perform_of_step missed
  have read := perform_of_step read
  dsimp only at missed read
  rw [missed] at read
  cases read

end DataAgentDB.Kv
