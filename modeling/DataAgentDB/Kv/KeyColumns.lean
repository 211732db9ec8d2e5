import DataAgentDB.Kv.AccessTable
import DataAgentDB.Kv.Abort
import DataAgentDB.Kv.History
import Mathlib.Data.List.Induction

/-! Index keys against KEY columns. `init_table` and `load` and `Write` compute the two on their own:
`init_table` indexes its rows by number, and the others by the hash of the whole key, of which
`strncpy` keeps the first 127 bytes in the column. -/

namespace DataAgentDB.Kv
open Storage Server TxnMan LabelledRun

/-- A new transaction that reads a row's own key accesses that row and gets its value. -/
def Store.Reaches (hash : Bytes → Nat) (s : Store) (row : Nat) : Prop :=
  ∃ txn, s.read (TxnMan.init s.timestamp) (hash (s.rows row).data.key) (s.rows row).data.key =
      some (.RCOK, (s.rows row).data.value, txn) ∧
    txn.accesses.map Access.origRow = [row]

/-- Every entry of the index leads to a row of that index key, whose KEY column has it as its hash.
So the row is reached by its own key, and a put of a key with another hash does not meet it. -/
structure KeysIndexed (hash : Bytes → Nat) (s : Store) : Prop where
  stored : ∀ p, ∀ row ∈ s.entries p,
    (s.rows row).live = true ∧ (s.rows row).primaryKey = p ∧ hash (s.rows row).data.key = p
  reaches : ∀ p, ∀ row ∈ s.entries p, s.Reaches hash row
  unblocked : ∀ p, ∀ row ∈ s.entries p, ∀ key, hash key ≠ hash (s.rows row).data.key →
    s.indexRead (hash key) ≠ some row

/-- The rows of `init_table` hash to their numbers, and the keys of the file keep their hash in the
column and have different ones, apart from these numbers. -/
structure FileFits (hash : Bytes → Nat) (file : List (Bytes × Bytes)) : Prop where
  table : ∀ rid < 10, hash (bytes (toString rid)) = rid
  keys : ∀ pair ∈ file, hash (strncpy pair.1 127) = hash pair.1
  fresh : ∀ pair ∈ file, 10 ≤ hash pair.1
  apart : (file.map (fun pair => hash pair.1)).Nodup

/-- A put that inserts a row has a key that keeps its hash in the column, and nobody discards a
transaction that inserted rows. -/
def CallFits (hash : Bytes → Nat) (_ : List Event) (db : Db) (event : Event) : Prop :=
  (∀ t key value, event.call = .put t key value → db.txns t ≠ none →
    db.store.indexRead (hash key) = none → hash (strncpy key 127) = hash key) ∧
  ∀ txn, db.discards event.call = some txn → txn.insertRows = []

/-- The index entries alone, with each a head. -/
def Aligned (hash : Bytes → Nat) (s : Store) : Prop :=
  ∀ p, ∀ row ∈ s.entries p, (s.rows row).live = true ∧ hash (s.rows row).data.key = p ∧
    s.indexRead p = some row

section Stores
variable {hash : Bytes → Nat} {db next : Db}

theorem reaches_iff (sound : Sound db) (named : ∀ row, 0 ∉ (db.store.rows row).data.key) (row : Nat) :
    db.store.Reaches hash row ↔
      db.store.indexRead (hash (db.store.rows row).data.key) = some row ∧ (db.store.rows row).live = true := by
  constructor
  · intro ⟨txn, read, accesses⟩
    unfold Store.read at read
    split at read
    next => cases read
    next row' found =>
      split at read
      next => cases read
      next => cases read
      next copy txn' taken =>
        obtain ⟨-, live, table⟩ := getRow_first sound taken
        split at read
        next => cases read
        next =>
          simp only [Option.some.injEq, Prod.mk.injEq, true_and] at read
          obtain ⟨-, rfl⟩ := read
          rw [table] at accesses
          cases accesses
          exact ⟨found, live⟩
  · intro ⟨found, live⟩
    obtain ⟨result, txn, taken⟩ := (bounded_init db.store.timestamp).getRow_completes .RD live (sound.free row)
      (fun _ => (by decide : 0 < MAX_ROW_PER_TXN))
    obtain ⟨rfl, -, table⟩ := getRow_first sound taken
    have same : strcmp (db.store.rows row).data.key (cStr (db.store.rows row).data.key) = 0 := by
      rw [strcmp_eq_zero, cStr_of_no_nul (named row)]
    refine ⟨txn, ?_, table⟩
    simp only [Store.read, found, taken, same, ne_eq, not_true_eq_false, ↓reduceIte]

theorem keysIndexed_iff (sound : Sound db) (named : ∀ row, 0 ∉ (db.store.rows row).data.key) :
    KeysIndexed hash db.store ↔ Aligned hash db.store := by
  constructor
  · intro indexed p row listed
    obtain ⟨live, -, key⟩ := indexed.stored p row listed
    have reached := ((reaches_iff sound named row).mp (indexed.reaches p row listed)).1
    rw [key] at reached
    exact ⟨live, key, reached⟩
  · intro aligned
    refine ⟨?_, ?_, ?_⟩
    · intro p row listed
      obtain ⟨live, key, -⟩ := aligned p row listed
      exact ⟨live, (sound.alloc p row listed).2, key⟩
    · intro p row listed
      obtain ⟨live, key, head⟩ := aligned p row listed
      exact (reaches_iff sound named row).mpr ⟨key.symm ▸ head, live⟩
    · intro p row listed key differs found
      obtain ⟨-, own, -⟩ := aligned (hash key) row (Store.entries_of_indexRead found)
      exact differs own.symm

/-- A load keeps the entries aligned when nothing was under its index key and its column has
that key as its hash. -/
theorem aligned_load {s : Store} (bounded : ∀ p, ∀ row ∈ s.entries p, row < s.curTabSize) (p : Nat)
    (columns : Columns) :
    Aligned hash (s.load p columns) ↔ Aligned hash s ∧ s.entries p = [] ∧ hash columns.key = p := by
  have new := load_rows_new s p columns
  constructor
  · intro aligned
    have apart : ∀ q, ∀ row ∈ s.entries q, q ≠ p := by
      rintro q row listed rfl
      have bound := bounded q row listed
      have within : row ∈ (s.load q columns).entries q := by
        rw [load_entries, if_pos rfl]
        exact List.mem_cons_of_mem _ listed
      have head := (aligned q row within).2.2
      rw [load_indexRead, if_pos rfl] at head
      cases head
      exact absurd bound (lt_irrefl _)
    refine ⟨?_, ?_, ?_⟩
    · intro q row listed
      have other := apart q row listed
      have within : row ∈ (s.load p columns).entries q := by
        rw [load_entries, if_neg other]
        exact listed
      have kept := aligned q row within
      rwa [load_rows_old _ _ (bounded q row listed), load_indexRead, if_neg other] at kept
    · exact List.eq_nil_iff_forall_not_mem.mpr (fun row listed => apart p row listed rfl)
    · have listed : s.curTabSize ∈ (s.load p columns).entries p := by
        rw [load_entries, if_pos rfl]
        exact List.mem_cons_self
      have key := (aligned p _ listed).2.1
      rwa [new] at key
  · rintro ⟨aligned, empty, key⟩ q row listed
    rw [load_entries] at listed
    rw [load_indexRead]
    split at listed
    next same =>
      rw [empty, List.mem_singleton] at listed
      subst listed same
      rw [new, if_pos rfl]
      exact ⟨rfl, key, rfl⟩
    next other =>
      rw [load_rows_old _ _ (bounded q row listed), if_neg other]
      exact aligned q row listed

/-- A store that was only loaded: the index keys in use, and when its entries are aligned. -/
structure Filled (hash : Bytes → Nat) (s : Store) (used : Nat → Prop) (fits : Prop) : Prop where
  bounded : ∀ p, ∀ row ∈ s.entries p, row < s.curTabSize
  unused : ∀ p, s.entries p = [] ↔ ¬ used p
  aligned : Aligned hash s ↔ fits

theorem Filled.load {s : Store} {used : Nat → Prop} {fits : Prop} (filled : Filled hash s used fits) (p : Nat)
    (columns : Columns) : Filled hash (s.load p columns) (fun q => used q ∨ q = p)
      (fits ∧ ¬ used p ∧ hash columns.key = p) where
  bounded := by
    intro q row listed
    change row < s.curTabSize + 1
    rw [load_entries] at listed
    split at listed
    next =>
      rcases List.mem_cons.mp listed with rfl | before
      · exact Nat.lt_succ_self _
      · exact Nat.lt_succ_of_lt (filled.bounded p row before)
    next => exact Nat.lt_succ_of_lt (filled.bounded q row listed)
  unused := by
    intro q
    rw [load_entries, not_or]
    split
    next same => simp [same]
    next other => simp [other, filled.unused]
  aligned := by rw [aligned_load filled.bounded, filled.aligned, filled.unused]

theorem Filled.congr {s : Store} {used used' : Nat → Prop} {fits fits' : Prop} (filled : Filled hash s used fits)
    (same : ∀ p, used p ↔ used' p) (same' : fits ↔ fits') : Filled hash s used' fits' where
  bounded := filled.bounded
  unused := fun p => (filled.unused p).trans (not_congr (same p))
  aligned := filled.aligned.trans same'

/-- The rows of `init_table`, for a table of any size. -/
theorem filled_table (hash : Bytes → Nat) (n : Nat) :
    Filled hash ((List.range n).foldl
      (fun s rid => s.load rid ⟨bytes (toString rid), bytes (toString rid)⟩) Store.empty)
      (fun p => p < n) (∀ rid < n, hash (bytes (toString rid)) = rid) := by
  induction n with
  | zero =>
    refine ⟨fun _ _ listed => (nomatch listed), fun p => iff_of_true rfl (Nat.not_lt_zero p), ?_⟩
    exact iff_of_true (fun _ _ listed => (nomatch listed)) (fun _ less => (nomatch less))
  | succ n ih =>
    rw [List.range_succ, List.foldl_append]
    refine (ih.load n _).congr (fun p => Nat.lt_succ_iff_lt_or_eq.symm) ⟨?_, ?_⟩
    · rintro ⟨before, -, last⟩ rid less
      rcases Nat.lt_succ_iff_lt_or_eq.mp less with lower | rfl
      · exact before rid lower
      · exact last
    · intro all
      exact ⟨fun rid less => all rid (Nat.lt_succ_of_lt less), Nat.lt_irrefl n, all n (Nat.lt_succ_self n)⟩

theorem filled_file (hash : Bytes → Nat) (file : List (Bytes × Bytes)) :
    Filled hash (Store.initEngine hash file) (fun p => p < 10 ∨ ∃ pair ∈ file, hash pair.1 = p)
      (FileFits hash file) := by
  induction file using List.reverseRecOn with
  | nil =>
    rw [Store.initEngine, List.foldl_nil, Store.initTable]
    refine (filled_table hash 10).congr (fun p => by simp) ⟨fun table => ?_, FileFits.table⟩
    exact ⟨table, by simp, by simp, by simp⟩
  | append_singleton file pair ih =>
    rw [initEngine_snoc]
    have filled := ih.load (hash pair.1) ⟨strncpy pair.1 127, strncpy pair.2 1023⟩
    refine Filled.congr ⟨filled.bounded, filled.unused, filled.aligned⟩ (fun p => ?_) ⟨?_, ?_⟩
    · simp [or_assoc, eq_comm, or_and_right, exists_or]
    · rintro ⟨fits, unused, key⟩
      obtain ⟨high, unseen⟩ := not_or.mp unused
      refine ⟨fits.table, ?_, ?_, ?_⟩
      · intro other member
        rcases List.mem_append.mp member with before | last
        · exact fits.keys other before
        · rw [List.mem_singleton.mp last]
          exact key
      · intro other member
        rcases List.mem_append.mp member with before | last
        · exact fits.fresh other before
        · rw [List.mem_singleton.mp last]
          exact Nat.le_of_not_lt high
      · rw [List.map_append, List.map_singleton, List.nodup_append]
        refine ⟨fits.apart, List.nodup_singleton _, ?_⟩
        intro p before q last same
        obtain ⟨other, member, rfl⟩ := List.mem_map.mp before
        exact unseen ⟨other, member, same.trans (List.mem_singleton.mp last)⟩
    · intro fits
      have here : pair ∈ file ++ [pair] := by simp
      have apart := fits.apart
      rw [List.map_append, List.map_singleton, List.nodup_append] at apart
      have earlier : ∀ other ∈ file, other ∈ file ++ [pair] := fun other => List.mem_append_left _
      refine ⟨⟨fits.table, fun other member => fits.keys other (earlier other member),
        fun other member => fits.fresh other (earlier other member), apart.1⟩, ?_, fits.keys pair here⟩
      rintro (low | ⟨other, member, same⟩)
      · exact absurd low (Nat.not_lt.mpr (fits.fresh pair here))
      · exact apart.2.2 _ (List.mem_map_of_mem member) _ (List.mem_singleton.mpr rfl) same

end Stores

section Steps
variable {hash : Bytes → Nat} {db next : Db} {event : Event}

/-- No KEY column has a NUL byte in it. -/
def Store.Named (s : Store) : Prop := ∀ row, 0 ∉ (s.rows row).data.key

theorem named_did (sound : Sound db) (named : db.store.Named) (did : Did hash db event next) :
    next.store.Named := by
  cases did with
  | inserted =>
    intro row
    change 0 ∉ ((db.store.load _ _).rows row).data.key
    rw [load_rows]
    split
    next => exact strncpy_no_nul _ _
    next => exact named row
  | committed opened =>
    intro row
    have here := (sound.opened _ _ opened).2
    have frame := wroteBack_frame _ db.store.rows db.store.timestamp row here.key here.nodup
    exact frame.2.1 ▸ named row
  | failed opened =>
    intro row
    exact (freed_frame _ db.store.rows row).2.1 ▸ named row
  | aborted opened =>
    intro row
    exact (freed_frame _ db.store.rows row).2.1 ▸ named row
  | _ => exact named

/-- What a discarded transaction leaves aligned. -/
theorem aligned_dropped (sound : Sound db) (aligned : Aligned hash db.store) {t : Nat} {txn : Txn}
    (opened : db.txns t = some txn) : Aligned hash (db.dropped t txn).store ↔ txn.insertRows = [] := by
  constructor
  · intro after
    apply List.eq_nil_iff_forall_not_mem.mpr
    intro row member
    obtain ⟨p, listed⟩ := sound.listed opened member
    have alive := (after p row listed).1
    simp [Db.dropped, Db.setTxn, freed, member, Row.freeRow] at alive
  · intro kept
    rw [dropped_nothing db t kept]
    exact aligned

theorem callFits_of_none {trace : List Event} (kept : ∀ t key value, event.call = .put t key value →
    db.txns t ≠ none → db.store.indexRead (hash key) ≠ none) (ends : db.discards event.call = none) :
    CallFits hash trace db event :=
  ⟨fun t key value call opened absent => absurd absent (kept t key value call opened),
    fun txn gone => by rw [ends] at gone; cases gone⟩

theorem callFits_of_discards {trace : List Event} {txn : Txn} (ends : db.discards event.call = some txn) :
    CallFits hash trace db event ↔ txn.insertRows = [] := by
  constructor
  · intro fits
    exact fits.2 txn ends
  · intro kept
    refine ⟨fun t key value call => ?_, fun other same => ?_⟩
    · rw [call] at ends
      cases ends
    · rw [ends] at same
      cases same
      exact kept

theorem aligned_did (sound : Sound db) (aligned : Aligned hash db.store) (did : Did hash db event next)
    (trace : List Event) : Aligned hash next.store ↔ CallFits hash trace db event := by
  cases did with
  | begun => exact iff_of_true aligned (callFits_of_none (fun _ _ _ call => (nomatch call)) rfl)
  | missing | getConflict | getMismatch | got =>
    exact iff_of_true aligned (callFits_of_none (fun _ _ _ call => (nomatch call)) rfl)
  | closed target closed =>
    refine iff_of_true aligned (callFits_of_none ?_ ?_)
    · intro t key value call opened
      dsimp only at call
      subst call
      cases target
      exact absurd closed opened
    · apply Option.eq_none_iff_forall_ne_some.mpr
      intro txn ends
      obtain ⟨t, same, opened⟩ := discards_open ends
      rw [target] at same
      cases same
      rw [closed] at opened
      cases opened
  | putConflict opened found | putMismatch opened found | updated opened found =>
    refine iff_of_true aligned (callFits_of_none ?_ rfl)
    intro t key value call _
    cases call
    rw [found]
    simp
  | @inserted t key value txn opened absent =>
    have empty : db.store.entries (hash key) = [] := by
      rwa [Store.indexRead_eq, List.head?_eq_none_iff] at absent
    change Aligned hash (db.store.load _ _) ↔ _
    rw [aligned_load (fun p row listed => (sound.alloc p row listed).1)]
    constructor
    · rintro ⟨-, -, whole⟩
      refine ⟨fun t key value call _ _ => ?_, fun txn ends => (nomatch ends)⟩
      cases call
      exact whole
    · intro fits
      exact ⟨aligned, empty, fits.1 t key value rfl (by rw [opened]; simp) absent⟩
  | @committed t txn opened live current =>
    have kept : Aligned hash (db.installed t txn).store := by
      intro p row listed
      have here := (sound.opened t txn opened).2
      have frame := wroteBack_frame txn.accesses db.store.rows db.store.timestamp row here.key here.nodup
      obtain ⟨alive, key, head⟩ := aligned p row listed
      exact ⟨frame.2.2.1.trans alive, (congrArg hash frame.2.1).trans key, head⟩
    refine iff_of_true kept (callFits_of_none (fun _ _ _ call => (nomatch call)) ?_)
    apply Option.eq_none_iff_forall_ne_some.mpr
    intro other ends
    obtain ⟨same, outdated⟩ := Option.filter_eq_some_iff.mp ends
    rw [opened] at same
    cases same
    obtain ⟨acc, member, newer⟩ := (Store.outdated_iff _ _).mp outdated
    exact absurd newer (Nat.not_lt.mpr (current acc member))
  | failed opened member newer =>
    rw [aligned_dropped sound aligned opened, callFits_of_discards (discards_failed opened member newer)]
  | aborted opened =>
    have ends : db.discards (.abort_txn _) = some _ := opened
    rw [aligned_dropped sound aligned opened, callFits_of_discards ends]

theorem named_run {allowed : List Event → Db → Event → Prop} {file : List (Bytes × Bytes)} {trace : List Event}
    (run : Run (Step hash) allowed (initial hash file) trace db) : Sound db ∧ db.store.Named :=
  run.invariant (fun _ db => Sound db ∧ db.store.Named)
    ⟨initial_sound hash file, (initEngine_loaded hash file).named⟩
    (fun _ _ _ _ held _ taken =>
      have did := did_of_step held.1 taken
      ⟨sound_did held.1 did, named_did held.1 held.2 did⟩)

end Steps

/-- The store starts with its keys indexed exactly when the file fits, and a call in any reachable
state with keys indexed leaves them so exactly when it fits. So they are in every run from such
a file whose calls fit. -/
theorem keys_indexed_iff (hash : Bytes → Nat) (file : List (Bytes × Bytes)) :
    (KeysIndexed hash (initial hash file).store ↔ FileFits hash file) ∧
    (∀ trace db, Run (Step hash) Always (initial hash file) trace db → KeysIndexed hash db.store →
      ∀ event next, Step hash db event next →
        (KeysIndexed hash next.store ↔ CallFits hash trace db event)) ∧
    (FileFits hash file → ∀ trace db, Run (Step hash) (CallFits hash) (initial hash file) trace db →
      KeysIndexed hash db.store) := by
  have start : KeysIndexed hash (initial hash file).store ↔ Aligned hash (initial hash file).store :=
    keysIndexed_iff (initial_sound hash file) (initEngine_loaded hash file).named
  refine ⟨start.trans (filled_file hash file).aligned, ?_, ?_⟩
  · intro trace db run indexed event next taken
    obtain ⟨sound, named⟩ := named_run run
    have did := did_of_step sound taken
    rw [keysIndexed_iff (sound_did sound did) (named_did sound named did)]
    exact aligned_did sound ((keysIndexed_iff sound named).mp indexed) did trace
  · intro fits trace db run
    obtain ⟨sound, named⟩ := named_run run
    rw [keysIndexed_iff sound named]
    have both := run.invariant (fun _ db => Sound db ∧ Aligned hash db.store)
      ⟨initial_sound hash file, (filled_file hash file).aligned.mpr fits⟩
      (fun trace _ _ _ held fits taken => by
        have did := did_of_step held.1 taken
        exact ⟨sound_did held.1 did, (aligned_did held.1 held.2 did trace).mpr fits⟩)
    exact both.2

/-- `numeral`, but a digit is its own hash. -/
def decimal (key : Bytes) : Nat :=
  match key with
  | [c] => if 48 ≤ c.toNat ∧ c.toNat < 58 then c.toNat - 48 else numeral key
  | _ => numeral key

/-- A file of one key, and a put of another. -/
theorem keys_indexed_put :
    ∃ db, Run (Step decimal) (CallFits decimal) (initial decimal [(bytes "k", bytes "v")])
        ([] ++ [⟨.begin_txn, .begun 1⟩] ++ [⟨.put 1 (bytes "a") (bytes "x"), .code .OK⟩]) db ∧
      KeysIndexed decimal db.store := by
  have played : (((initial decimal [(bytes "k", bytes "v")]).next decimal ⟨.begin_txn, .begun 1⟩).bind (fun db =>
      db.next decimal ⟨.put 1 (bytes "a") (bytes "x"), .code .OK⟩)).isSome = true := by decide +kernel
  obtain ⟨db, played⟩ := Option.isSome_iff_exists.mp played
  obtain ⟨middle, first, second⟩ := Option.bind_eq_some_iff.mp played
  have fits : FileFits decimal [(bytes "k", bytes "v")] :=
    ⟨by decide, by simp only [List.forall_mem_singleton]; decide, by
      simp only [List.forall_mem_singleton]; decide, by decide⟩
  have run : Run (Step decimal) (CallFits decimal) (initial decimal [(bytes "k", bytes "v")])
      ([] ++ [⟨.begin_txn, .begun 1⟩] ++ [⟨.put 1 (bytes "a") (bytes "x"), .code .OK⟩]) db := by
    refine .snoc (.snoc .nil ?_ first) ?_ second
    · exact ⟨fun _ _ _ call => (nomatch call), fun _ ends => (nomatch ends)⟩
    · refine ⟨fun t key value call _ _ => ?_, fun _ ends => (nomatch ends)⟩
      cases call
      decide
  exact ⟨db, run, (keys_indexed_iff decimal _).2.2 fits _ db run⟩

/-- The row 0 of `init_table` has the key "0" in its column, whose hash is not 0. -/
theorem keys_not_indexed :
    ∃ db, Run (Step numeral) Always (initial numeral []) [] db ∧ ¬ KeysIndexed numeral db.store := by
  refine ⟨_, .nil, fun indexed => ?_⟩
  have listed : 0 ∈ (initial numeral []).store.entries 0 := by decide +kernel
  have key := (indexed.stored 0 0 listed).2.2
  exact absurd key (by decide +kernel)

end DataAgentDB.Kv
