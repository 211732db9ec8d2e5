import DataAgentDB.Kv.Serial

/-! Runs in which every put names a key the index already has. Conflicts may occur anywhere: what
the committed transactions were told, and what the store holds, is still that of running them
one after another in the order of their commits. -/

namespace DataAgentDB.Kv
open Storage Server TxnMan LabelledRun CommitReplay

/-- Strings are C strings that fit, and a put finds an item under its key's hash. -/
def Overwrites (hash : Bytes → Nat) (_ : List Event) (db : Db) (event : Event) : Prop :=
  StringsFit event ∧ (∀ key ∈ event.call.key, 0 ∉ key) ∧
    match event.call with
    | .put _ key _ => (db.store.indexRead (hash key)).isSome = true
    | _ => True

instance (hash : Bytes → Nat) (trace : List Event) (db : Db) :
    (event : Event) → Decidable (Overwrites hash trace db event)
  | ⟨.put .., _⟩ => inferInstanceAs (Decidable (_ ∧ (∀ key ∈ Call.key _, 0 ∉ key) ∧ _ = true))
  | ⟨.begin_txn, _⟩ | ⟨.get .., _⟩ | ⟨.commit _, _⟩ | ⟨.abort_txn _, _⟩ =>
      inferInstanceAs (Decidable (_ ∧ (∀ key ∈ Call.key _, 0 ∉ key) ∧ True))

/-- Every value a get of the transaction returned is its own last put or what the map has. -/
def Explained (trace : List Event) (t : Nat) (map : Bytes → Option Bytes) : Prop :=
  ∀ got ∈ gets trace t, ∀ value, got.answer = .value value → got.own.or (map got.key) = some value

/-- No open transaction has inserted a row. -/
def Db.Plain (db : Db) : Prop := ∀ t txn, db.txns t = some txn → txn.insertRows = []

/-- The committed transactions one after another, in the order of their commits. -/
structure Explains (hash : Bytes → Nat) (init : Db) (trace : List Event) (db : Db) : Prop where
  ended : ∀ t ∈ committed trace, db.txns t = none ∧ t < db.nextId
  map : ∀ key, 0 ∉ key → db.readable hash key =
    replay (installs trace) (init.readable hash) (committed trace) key
  serial : Serial (installs trace) (Explained trace) (init.readable hash) (committed trace)

section Steps
variable {hash : Bytes → Nat} {init db next : Db} {trace : List Event} {event : Event}

theorem Db.Plain.uninserted (plain : db.Plain) (row : Nat) : ¬ db.Inserted row := by
  rintro ⟨t, txn, opened, member⟩
  rw [plain t txn opened] at member
  cases member

theorem Db.Plain.settled (plain : db.Plain) (sound : Sound db) (key : Bytes) :
    db.settled hash key = db.readable hash key := by
  have clear : ∀ row, db.uncommitted row = false := by
    intro row
    rw [Bool.eq_false_iff]
    exact fun dirty => plain.uninserted row ((uncommitted_iff sound).mp dirty).1
  unfold Db.settled
  cases db.store.indexRead (hash key) <;> simp [clear]

/-- A transaction that inserted nothing leaves nothing behind when it is dropped. -/
theorem Db.Plain.dropped (plain : db.Plain) {t : Nat} {txn : Txn} (opened : db.txns t = some txn) :
    db.dropped t txn = db.setTxn t none := by
  have rows : freed txn.insertRows db.store.rows = db.store.rows := by
    rw [plain t txn opened]
    funext row
    exact (freed_frame [] db.store.rows row).2.2.2 (by simp)
  unfold Db.dropped
  rw [rows]

theorem plain_did (plain : db.Plain) (overwrites : Overwrites hash trace db event)
    (did : Did hash db event next) : next.Plain := by
  intro u txn' found
  cases did with
  | begun =>
    rcases found_txn found with ⟨_, same⟩ | ⟨_, before⟩
    · cases same
      rfl
    · exact plain u txn' before
  | closed | missing | getConflict | putConflict => exact plain u txn' found
  | getMismatch opened _ _ fetched | got opened _ _ fetched | putMismatch opened _ _ fetched =>
    rcases found_txn found with ⟨_, same⟩ | ⟨_, before⟩
    · cases same
      exact fetched.inserts.trans (plain _ _ opened)
    · exact plain u txn' before
  | updated opened _ _ _ _ entered =>
    rcases found_txn found with ⟨_, same⟩ | ⟨_, before⟩
    · cases same
      exact entered.inserts.trans (plain _ _ opened)
    · exact plain u txn' before
  | inserted _ absent =>
    have present := overwrites.2.2
    simp [absent] at present
  | committed | failed | aborted =>
    rcases found_txn found with ⟨_, gone⟩ | ⟨_, before⟩
    · cases gone
    · exact plain u txn' before

/-- Only commits change what is read. -/
theorem readable_did (plain : db.Plain) (overwrites : Overwrites hash trace db event)
    (did : Did hash db event next) (quiet : event.commits = none) (key : Bytes) :
    next.readable hash key = db.readable hash key := by
  cases did with
  | inserted _ absent =>
    have present := overwrites.2.2
    simp [absent] at present
  | committed => cases quiet
  | failed opened => rw [plain.dropped opened]; rfl
  | aborted opened => rw [plain.dropped opened]; rfl
  | _ => rfl

/-- A row the table does not know by its key is not in it. -/
theorem Opened.unlisted {txn : Txn} {p row : Nat} (here : Opened db.store txn)
    (rowKey : (db.store.rows row).primaryKey = p) (first : txn.recordPos p = none) :
    ∀ acc ∈ txn.accesses, acc.origRow ≠ row := by
  rintro acc member rfl
  obtain ⟨i, entry⟩ := List.mem_iff_getElem?.mp member
  have place := (here.indexed p i).mpr ⟨acc.origRow, by simp [entry], rowKey⟩
  rw [first] at place
  cases place

/-- A get that conflicts answers `NOT_FOUND`, and its key has no own put. -/
theorem conflict_answer {t : Nat} {key : Bytes} {answer : Answer} (sound : Sound db)
    (recorded : Recorded hash trace db) (conflict : db.conflicts hash (.get t key) = true)
    (did : Did hash db ⟨.get t key, answer⟩ next) :
    lastPut trace t key = none ∧ answer = .code .NOT_FOUND := by
  unfold Db.conflicts Db.firstAccess at conflict
  cases opened : db.txns t with
  | none => simp [opened] at conflict
  | some txn =>
    cases place : txn.recordPos (hash key) with
    | some => simp [opened, place] at conflict
    | none =>
      cases found : db.store.indexRead (hash key) with
      | none => simp [opened, place, found] at conflict
      | some row =>
        have newer : txn.startTs < (db.store.rows row).manager.wts := by
          simpa [opened, place, found] using conflict
        have unlisted := (sound.opened t txn opened).2.unlisted (sound.key_of_indexRead found) place
        have stale : ∀ {kind : AccessT} {copy : Columns} {txn' : Txn},
            ¬ Fetched db.store txn row .RD kind copy txn' :=
          fun fetched => absurd newer (Nat.not_lt.mpr (fetched.first unlisted).2.1)
        refine ⟨?_, ?_⟩
        · by_contra present
          obtain ⟨value, last⟩ := Option.ne_none_iff_exists'.mp present
          exact unlisted _ ((recorded.tracked t txn opened).put_at found last) rfl
        · cases did with
          | closed target closed =>
            cases target
            rw [opened] at closed
            cases closed
          | missing _ absent => rfl
          | getConflict => rfl
          | getMismatch => rfl
          | got opened' found' _ fetched =>
            rw [opened] at opened'
            rw [found] at found'
            cases opened'
            cases found'
            exact absurd fetched stale

theorem observed_kept (observed : Observed hash trace db) (recorded : Recorded hash trace db)
    (sound : Sound db) (plain : db.Plain) (overwrites : Overwrites hash trace db event)
    (did : Did hash db event next) : Observed hash (trace ++ [event]) next where
  unseen := by
    intro t unused
    have before : db.nextId ≤ t := (nextId_did did).trans unused
    have closed : db.txns t = none := by
      cases opened : db.txns t with
      | none => rfl
      | some txn => exact absurd (sound.opened t txn opened).1 (Nat.not_lt.mpr before)
    rw [gets_snoc, observed.unseen t before, (silent_of_closed closed did trace).2]
    rfl
  seen := by
    intro t txn' opened' got member
    rw [gets_snoc, List.mem_append] at member
    rcases member with before | new
    · rcases table_did did opened' with rfl | ⟨txn, opened, start, rows⟩
      · rw [observed.unseen _ le_rfl] at before
        cases before
      · exact seen_kept sound did opened start rows (observed.seen t txn opened got before)
    · have new := Option.mem_toList.mp new
      by_cases free : db.conflicts hash event.call = false
      · exact seen_new recorded ⟨overwrites.1, overwrites.2.1, free⟩ did opened' new
      · -- the conflict is the only thing the answer comes from
        obtain ⟨call, answer⟩ := event
        cases call with
        | get u key =>
          simp only [Event.got] at new
          split at new
          next same =>
            obtain ⟨rfl, _⟩ := same
            cases new
            obtain ⟨unput, rfl⟩ := conflict_answer sound recorded (by simpa using free) did
            rw [unput]
            exact .missing (overwrites.2.1 key rfl)
          next => cases new
        | _ => cases new
  authored := by
    intro t txn' _ acc _ _ inserted
    exact absurd inserted ((plain_did plain overwrites did).uninserted acc.origRow)

/-- A commit installs its transaction's puts. -/
theorem readable_installed (sound : Sound db) (plain : db.Plain) (recorded : Recorded hash trace db)
    (observed : Observed hash trace db) {t : Nat} {txn : Txn} (opened : db.txns t = some txn)
    (live : ∀ acc ∈ txn.accesses, (db.store.rows acc.origRow).live = true)
    (current : ∀ acc ∈ txn.accesses, (db.store.rows acc.origRow).manager.wts ≤ txn.startTs)
    (plain' : (db.installed t txn).Plain) {key : Bytes} (clean : 0 ∉ key) :
    (db.installed t txn).readable hash key = install (installs trace) (db.readable hash) t key := by
  rw [← plain'.settled (sound.installed opened),
    settled_installed sound recorded observed opened live current clean]
  simp only [install, plain.settled sound]

/-- At its commit, the values a transaction's gets returned are what the store has. -/
theorem explained_commit {t : Nat} {txn : Txn} (observed : Observed hash trace db)
    (opened : db.txns t = some txn)
    (live : ∀ acc ∈ txn.accesses, (db.store.rows acc.origRow).live = true)
    (current : ∀ acc ∈ txn.accesses, (db.store.rows acc.origRow).manager.wts ≤ txn.startTs)
    {map : Bytes → Option Bytes} (same : ∀ key, 0 ∉ key → db.readable hash key = map key) :
    Explained trace t map := by
  intro got member value answered
  cases observed.seen t txn opened got member with
  | own => cases answered; rfl
  | missing => cases answered
  | @copied key found row clean head held unchanged =>
    cases answered
    obtain ⟨acc, inTable, rfl⟩ := List.mem_map.mp held
    rw [Option.none_or, ← same key clean]
    simp [Db.readable, head, live acc inTable, unchanged (current acc inTable), cStr_of_no_nul clean]

theorem explains_did (explains : Explains hash init trace db) (sound : Sound db) (plain : db.Plain)
    (recorded : Recorded hash trace db) (observed : Observed hash trace db)
    (overwrites : Overwrites hash trace db event) (did : Did hash db event next) :
    Explains hash init (trace ++ [event]) next := by
  have ended : ∀ t ∈ committed trace, next.txns t = none ∧ t < next.nextId :=
    fun t member => ended_did (explains.ended t member) did
  have silent := fun t member => silent_of_closed (explains.ended t member).1 did trace
  have installed : ∀ t ∈ committed trace, installs (trace ++ [event]) t = installs trace t := by
    intro t member
    funext key
    simp only [installs, lastPut_silent trace ((silent t member).1 key)]
  have told : ∀ t ∈ committed trace, Explained (trace ++ [event]) t = Explained trace t := by
    intro t member
    funext map
    simp only [Explained, gets_snoc, (silent t member).2, Option.toList_none, List.append_nil]
  have front : replay (installs (trace ++ [event])) (init.readable hash) (committed trace) =
      replay (installs trace) (init.readable hash) (committed trace) := replay_congr _ _ _ installed
  have serial : Serial (installs (trace ++ [event])) (Explained (trace ++ [event])) (init.readable hash)
      (committed trace) := (serial_congr _ _ _ installed told).mpr explains.serial
  cases commit : event.commits with
  | none =>
    have same : committed (trace ++ [event]) = committed trace := by rw [committed_snoc, commit]; simp
    refine ⟨same ▸ ended, fun key clean => ?_, same ▸ serial⟩
    rw [same, front, readable_did plain overwrites did commit]
    exact explains.map key clean
  | some t =>
    have same : committed (trace ++ [event]) = committed trace ++ [t] := by rw [committed_snoc, commit]; simp
    have plain' := plain_did plain overwrites did
    obtain ⟨txn, opened, rfl, rfl, live, current⟩ := commits_did did commit
    have quiet : installs (trace ++ [⟨.commit t, .code .OK⟩]) t = installs trace t := by
      funext key
      have silent : Event.puts t key ⟨.commit t, .code .OK⟩ = none := rfl
      simp only [installs, lastPut_silent trace silent]
    refine ⟨?_, ?_, ?_⟩
    · intro u member
      rw [same, List.mem_append] at member
      rcases member with before | last
      · exact ended u before
      · cases List.mem_singleton.mp last
        exact ⟨Function.update_self _ _ _, (sound.opened t txn opened).1⟩
    · intro key clean
      rw [same, replay_snoc, front,
        readable_installed sound plain recorded observed opened live current plain' clean]
      simp only [install, quiet, explains.map key clean]
    · rw [same, serial_snoc, front]
      refine ⟨serial, ?_⟩
      have answers := explained_commit observed opened live current explains.map
      intro got member
      rw [gets_snoc] at member
      exact answers got (by simpa [Event.got] using member)

end Steps

/-- The invariants of a run of overwriting calls that starts without open transactions. -/
structure Overwritten (hash : Bytes → Nat) (init : Db) (trace : List Event) (db : Db) : Prop where
  sound : Sound db
  plain : db.Plain
  recorded : Recorded hash trace db
  observed : Observed hash trace db
  explains : Explains hash init trace db

theorem overwritten_run {hash : Bytes → Nat} {init db : Db} {trace : List Event} (sound : Sound init)
    (closed : ∀ t, init.txns t = none) (run : Run (Step hash) (Overwrites hash) init trace db) :
    Overwritten hash init trace db := by
  have none_open : ∀ t txn, init.txns t ≠ some txn := fun t txn opened => by simp [closed t] at opened
  refine run.invariant (Overwritten hash init) ?_ ?_
  · exact ⟨sound, fun t txn opened => absurd opened (none_open t txn),
      ⟨fun _ _ _ => rfl, fun t txn opened => absurd opened (none_open t txn)⟩,
      ⟨fun _ _ => rfl, fun t txn opened => absurd opened (none_open t txn),
        fun t txn opened => absurd opened (none_open t txn)⟩,
      ⟨fun _ member => (nomatch member), fun _ _ => rfl, trivial⟩⟩
  · rintro trace db event next ⟨sound, plain, recorded, observed, explains⟩ overwrites taken
    have did := did_of_step sound taken
    exact ⟨sound_did sound did, plain_did plain overwrites did,
      recorded_did recorded sound overwrites.1 did,
      observed_kept observed recorded sound plain overwrites did,
      explains_did explains sound plain recorded observed overwrites did⟩

/-- From any state without open transactions, while puts only overwrite: the committed transactions,
in the order of their commits, explain every value their gets returned and all that is in the store,
whatever conflicted. -/
theorem overwrites_serializable {hash : Bytes → Nat} {file : List (Bytes × Bytes)} {before trace : List Event}
    {init db : Db} (started : Run (Step hash) Always (initial hash file) before init)
    (closed : ∀ t, init.txns t = none) (run : Run (Step hash) (Overwrites hash) init trace db) :
    Serial (installs trace) (Explained trace) (init.readable hash) (committed trace) ∧
      ∀ key, 0 ∉ key → db.readable hash key =
        replay (installs trace) (init.readable hash) (committed trace) key := by
  have explains := (overwritten_run (sound_run started) closed run).explains
  exact ⟨explains.serial, explains.map⟩

/-- The second transaction meets the first one's commit, and commits too. -/
theorem overwrites_serializable_conflict :
    ∃ (trace : List Event) (db : Db),
      ⟨.get 2 (bytes "a"), .code .NOT_FOUND⟩ ∈ trace ∧ committed trace = [1, 2, 3] ∧
      Serial (installs trace) (Explained trace) ((initial numeral [(bytes "a", bytes "x")]).readable numeral)
        (committed trace) ∧
      ∀ key, 0 ∉ key → db.readable numeral key = replay (installs trace)
        ((initial numeral [(bytes "a", bytes "x")]).readable numeral) (committed trace) key := by
  have played : (playUnder (Db.next numeral) (Overwrites numeral) [] (initial numeral [(bytes "a", bytes "x")])
      [⟨.begin_txn, .begun 1⟩, ⟨.begin_txn, .begun 2⟩, ⟨.get 1 (bytes "a"), .value (bytes "x")⟩,
        ⟨.put 1 (bytes "a") (bytes "y"), .code .OK⟩, ⟨.commit 1, .code .OK⟩,
        ⟨.get 2 (bytes "a"), .code .NOT_FOUND⟩, ⟨.commit 2, .code .OK⟩, ⟨.begin_txn, .begun 3⟩,
        ⟨.get 3 (bytes "a"), .value (bytes "y")⟩, ⟨.commit 3, .code .OK⟩]).isSome = true := by decide +kernel
  obtain ⟨db, ran⟩ := Option.isSome_iff_exists.mp played
  exact ⟨_, db, by decide, rfl, overwrites_serializable .nil (fun _ => rfl) (run_of_playUnder ran)⟩

end DataAgentDB.Kv
