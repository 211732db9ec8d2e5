import DataAgentDB.Kv.History

/-! How a timestamp conflict is reported. `Row_occ::access` refuses a row newer than the
transaction, and the refusal reaches the client as `NOT_FOUND` or `ERROR`. -/

namespace DataAgentDB.Kv
open Storage Server TxnMan LabelledRun

/-- `Row_occ::access` would find `start_ts < wts` in this call. -/
def Db.conflicts (hash : Bytes → Nat) (db : Db) : Call → Bool
  | .get t key | .put t key _ =>
      match db.txns t, db.firstAccess hash t key with
      | some txn, some row => txn.startTs < (db.store.rows row).manager.wts
      | _, _ => false
  | _ => false

/-- The key has a loaded or committed value, or one the transaction put. -/
def HasValue (hash : Bytes → Nat) (init : Db) (trace : List Event) (t : Nat) (key : Bytes) : Prop :=
  init.readable hash key ≠ none ∨
    ∃ u value, ⟨.put u key value, .code .OK⟩ ∈ trace ∧ (u = t ∨ ⟨.commit u, .code .OK⟩ ∈ trace)

/-- A conflict is answered with `ABORT` and the transaction never commits; `NOT_FOUND` is said of
keys without a value only. -/
def ConflictsReported (hash : Bytes → Nat) (init : Db) (trace : List Event) : Prop :=
  ∀ before event after db, trace = before ++ event :: after →
    play (Db.next hash) init before = some db →
    (db.conflicts hash event.call = true → event.answer = .code .ABORT ∧
      ∀ t, event.call.target = some t → ⟨.commit t, .code .OK⟩ ∉ after) ∧
    ∀ t key, event = ⟨.get t key, .code .NOT_FOUND⟩ → ¬ HasValue hash init before t key

def ConflictFree (hash : Bytes → Nat) (init : Db) (trace : List Event) : Prop :=
  ∀ before event after db, trace = before ++ event :: after →
    play (Db.next hash) init before = some db → db.conflicts hash event.call = false

/-- The keys put are C strings the KEY column holds. -/
def KeysFit (_ : List Event) (_ : Db) (event : Event) : Prop :=
  match event.call with
  | .put _ key _ => Fits 127 key
  | _ => True

instance (trace : List Event) (db : Db) : (event : Event) → Decidable (KeysFit trace db event)
  | ⟨.put _ key _, _⟩ => inferInstanceAs (Decidable (Fits 127 key))
  | ⟨.begin_txn, _⟩ | ⟨.get .., _⟩ | ⟨.commit _, _⟩ | ⟨.abort_txn _, _⟩ => .isTrue trivial

/-- A key once put or loaded is the key of its head in the index. -/
structure Placed (hash : Bytes → Nat) (init : Db) (trace : List Event) (db : Db) : Prop where
  put : ∀ u key value, ⟨.put u key value, .code .OK⟩ ∈ trace → 0 ∉ key ∧
    ∃ row, db.store.indexRead (hash key) = some row ∧ (db.store.rows row).data.key = key
  loaded : ∀ key, init.readable hash key ≠ none →
    ∃ row, db.store.indexRead (hash key) = some row ∧ (db.store.rows row).data.key = cStr key

section Steps
variable {hash : Bytes → Nat} {init db next : Db} {trace : List Event} {event : Event}

/-- A key's head stays, with its name. -/
theorem head_kept (sound : Sound db) (extends_ : Extends db.store next.store) {p row : Nat}
    {name : Bytes} (found : db.store.indexRead p = some row) (named : (db.store.rows row).data.key = name) :
    next.store.indexRead p = some row ∧ (next.store.rows row).data.key = name := by
  have bound := (sound.alloc p row (Store.entries_of_indexRead found)).1
  exact ⟨extends_.kept p row found, (extends_.same row bound).2.trans named⟩

/-- A put that answers `OK` leaves its key at the head of its place in the index. -/
theorem placed_put {t : Nat} {key value : Bytes} (fits : Fits 127 key)
    (did : Did hash db ⟨.put t key value, .code .OK⟩ next) :
    ∃ row, next.store.indexRead (hash key) = some row ∧ (next.store.rows row).data.key = key := by
  cases did with
  | updated opened found live fetched same =>
    have named := fetched.opened.key _ ((fetched.replaces _).mpr (.inl rfl))
    exact ⟨_, found, named.symm.trans (same.trans (cStr_of_no_nul fits.2))⟩
  | inserted opened absent =>
    have new := load_rows_new db.store (hash key) ⟨strncpy key 127, strncpy value 1023⟩
    refine ⟨db.store.curTabSize, (load_indexRead _ _ _ _).trans (if_pos rfl), ?_⟩
    exact (congrArg (fun row => row.data.key) new).trans (strncpy_of_fits fits)

theorem placed_did (placed : Placed hash init trace db) (sound : Sound db) (fits : KeysFit trace db event)
    (did : Did hash db event next) : Placed hash init (trace ++ [event]) next := by
  have extends_ := (Extends.of_did sound did).1
  refine ⟨?_, ?_⟩
  · intro u key value member
    rcases List.mem_append.mp member with before | last
    · obtain ⟨clean, row, found, named⟩ := placed.put u key value before
      exact ⟨clean, row, head_kept sound extends_ found named⟩
    · cases List.mem_singleton.mp last
      exact ⟨fits.2, placed_put fits did⟩
  · intro key loaded
    obtain ⟨row, found, named⟩ := placed.loaded key loaded
    exact ⟨row, head_kept sound extends_ found named⟩

theorem placed_run {file : List (Bytes × Bytes)}
    (run : Run (Step hash) KeysFit (initial hash file) trace db) :
    Sound db ∧ Placed hash (initial hash file) trace db := by
  refine run.invariant (fun trace db => Sound db ∧ Placed hash (initial hash file) trace db)
    ⟨initial_sound hash file, fun _ _ _ member => (nomatch member), ?_⟩ ?_
  · intro key loaded
    unfold Db.readable at loaded
    split at loaded
    next => exact absurd rfl loaded
    next row found =>
      dsimp only at loaded
      split at loaded
      next named => exact ⟨row, found, named.2⟩
      next => exact absurd rfl loaded
  · rintro trace db event next ⟨sound, placed⟩ fits taken
    have did := did_of_step sound taken
    exact ⟨sound_did sound did, placed_did placed sound fits did⟩

/-- Only a failed commit is answered with `ABORT`. -/
theorem commit_of_abort {call : Call} (did : Did hash db ⟨call, .code .ABORT⟩ next) :
    ∃ t, call = .commit t := by
  cases did with
  | failed => exact ⟨_, rfl⟩

theorem commit_no_conflict (t : Nat) : db.conflicts hash (.commit t) = false := rfl

/-- Without a conflict, a key that has its head in the index is found. -/
theorem found_of_head {t row : Nat} {key : Bytes}
    (did : Did hash db ⟨.get t key, .code .NOT_FOUND⟩ next)
    (free : db.conflicts hash (.get t key) = false) (found : db.store.indexRead (hash key) = some row)
    (named : (db.store.rows row).data.key = cStr key) : False := by
  cases did with
  | missing _ absent =>
    rw [found] at absent
    cases absent
  | getConflict opened found' first newer =>
    rw [found] at found'
    cases found'
    have refused : db.conflicts hash (.get t key) = true := by
      simp [Db.conflicts, opened, firstAccess_eq opened first, found, newer]
    rw [free] at refused
    cases refused
  | getMismatch opened found' live fetched differs =>
    rw [found] at found'
    cases found'
    have same := fetched.opened.key _ ((fetched.replaces _).mpr (.inl rfl))
    exact differs (same.trans named)

end Steps

/-- Conflicts are reported as the name says exactly in the runs that have none. -/
theorem conflicts_reported_iff {hash : Bytes → Nat} {file : List (Bytes × Bytes)} {trace : List Event}
    {db : Db} (run : Run (Step hash) KeysFit (initial hash file) trace db) :
    ConflictsReported hash (initial hash file) trace ↔ ConflictFree hash (initial hash file) trace := by
  have reach : ∀ before event after db, trace = before ++ event :: after →
      play (Db.next hash) (initial hash file) before = some db →
      ∃ next, Run (Step hash) KeysFit (initial hash file) before db ∧ Step hash db event next := by
    intro before event after db split played
    obtain ⟨next, first, _⟩ := run.split (before ++ [event]) after (by simp [split])
    obtain ⟨middle, earlier, _, taken⟩ := first.last
    rw [play_of_run earlier] at played
    cases played
    exact ⟨next, earlier, taken⟩
  constructor
  · intro reported before event after db split played
    obtain ⟨next, earlier, taken⟩ := reach before event after db split played
    obtain ⟨sound, _⟩ := placed_run earlier
    by_contra conflict
    obtain ⟨answer, _⟩ := (reported before event after db split played).1 (by simpa using conflict)
    obtain ⟨call, _⟩ := event
    cases answer
    obtain ⟨t, rfl⟩ := commit_of_abort (did_of_step sound taken)
    exact conflict (commit_no_conflict t)
  · intro free before event after db split played
    obtain ⟨next, earlier, taken⟩ := reach before event after db split played
    obtain ⟨sound, placed⟩ := placed_run earlier
    have calm := free before event after db split played
    refine ⟨fun conflict => ?_, ?_⟩
    · rw [calm] at conflict
      cases conflict
    · rintro t key rfl (loaded | ⟨u, value, put, _⟩)
      · obtain ⟨row, found, named⟩ := placed.loaded key loaded
        exact found_of_head (did_of_step sound taken) calm found named
      · obtain ⟨clean, row, found, named⟩ := placed.put u key value put
        exact found_of_head (did_of_step sound taken) calm found
          (named.trans (cStr_of_no_nul clean).symm)

/-- A reader that commits before the writer, and one that starts after. -/
theorem conflicts_reported_late :
    ∃ trace, (ConflictsReported numeral (initial numeral []) trace ↔
        ConflictFree numeral (initial numeral []) trace) ∧
      ⟨.get 3 (bytes "a"), .value (bytes "y")⟩ ∈ trace := by
  have played : (playUnder (Db.next numeral) KeysFit [] (initial numeral [])
      [⟨.begin_txn, .begun 1⟩, ⟨.put 1 (bytes "a") (bytes "x"), .code .OK⟩, ⟨.commit 1, .code .OK⟩,
        ⟨.begin_txn, .begun 2⟩, ⟨.put 2 (bytes "a") (bytes "y"), .code .OK⟩, ⟨.commit 2, .code .OK⟩,
        ⟨.begin_txn, .begun 3⟩, ⟨.get 3 (bytes "a"), .value (bytes "y")⟩]).isSome = true := by
    decide +kernel
  obtain ⟨db, ran⟩ := Option.isSome_iff_exists.mp played
  exact ⟨_, conflicts_reported_iff (run_of_playUnder ran), by simp⟩

/-- The second transaction starts before the first commits the key it then reads. -/
def overtaken : List Event :=
  [⟨.begin_txn, .begun 1⟩, ⟨.put 1 (bytes "a") (bytes "x"), .code .OK⟩, ⟨.begin_txn, .begun 2⟩,
    ⟨.commit 1, .code .OK⟩]

/-- A conflict is answered with `NOT_FOUND` for a committed key, and the transaction commits. -/
theorem conflict_not_found :
    ∃ db, Run (Step numeral) Always (initial numeral [])
        (overtaken ++ [⟨.get 2 (bytes "a"), .code .NOT_FOUND⟩, ⟨.commit 2, .code .OK⟩]) db ∧
      ¬ ConflictsReported numeral (initial numeral [])
        (overtaken ++ [⟨.get 2 (bytes "a"), .code .NOT_FOUND⟩, ⟨.commit 2, .code .OK⟩]) := by
  have played : (play (Db.next numeral) (initial numeral [])
      (overtaken ++ [⟨.get 2 (bytes "a"), .code .NOT_FOUND⟩, ⟨.commit 2, .code .OK⟩])).isSome = true := by
    decide +kernel
  have conflict : (play (Db.next numeral) (initial numeral []) overtaken).map
      (fun db => db.conflicts numeral (.get 2 (bytes "a"))) = some true := by decide +kernel
  obtain ⟨db, ran⟩ := Option.isSome_iff_exists.mp played
  obtain ⟨middle, before, refused⟩ := Option.map_eq_some_iff.mp conflict
  refine ⟨db, run_of_play ran, fun reported => ?_⟩
  obtain ⟨answer, _⟩ := (reported overtaken ⟨.get 2 (bytes "a"), .code .NOT_FOUND⟩
    [⟨.commit 2, .code .OK⟩] middle rfl before).1 refused
  cases answer

end DataAgentDB.Kv
