import DataAgentDB.Kv.KeyColumns
import DataAgentDB.Lib.Slots

/-! The loader of `init_engine` against the calls of clients. The loader puts a new row before all
others under its hash, a put finds the row that is there. -/

namespace DataAgentDB.Kv
open Storage Server TxnMan LabelledRun

/-- One transaction that puts a pair and commits. -/
def Db.putPair (hash : Bytes → Nat) (db : Db) (pair : Bytes × Bytes) : Option Db :=
  match db.begin_txn.2.put hash db.nextId pair.1 pair.2 with
  | none => none
  | some (_, after) => (after.commit db.nextId).map Prod.snd

def Db.putAll (hash : Bytes → Nat) : Db → List (Bytes × Bytes) → Option Db
  | db, [] => some db
  | db, pair :: rest => (db.putPair hash pair).bind (fun next => next.putAll hash rest)

/-- What a new transaction reads. -/
def Db.freshGet (hash : Bytes → Nat) (db : Db) (key : Bytes) : Option Bytes :=
  match db.begin_txn.2.get hash db.nextId key with
  | some (.value value, _) => some value
  | _ => none

/-- The file loaded and the file put pair by pair read alike; loading a key leaves the others
readable; and the last value of a key is read. -/
structure LoaderAgrees (hash : Bytes → Nat) (file : List (Bytes × Bytes)) : Prop where
  same : ∃ db, (initial hash []).putAll hash file = some db ∧
    ∀ key, (initial hash file).freshGet hash key = db.freshGet hash key
  kept : ∀ before pair after, file = before ++ pair :: after → ∀ key, key ≠ pair.1 →
    ((initial hash before).freshGet hash key).isSome →
      ((initial hash (before ++ [pair])).freshGet hash key).isSome
  last : ∀ before key value after, file = before ++ (key, value) :: after → (∀ pair ∈ after, pair.1 ≠ key) →
    (initial hash file).freshGet hash key = some value

/-- Keys with one hash are one key, which is the row's number if the hash is that of a row of
`init_table`. -/
def HashesApart (hash : Bytes → Nat) (file : List (Bytes × Bytes)) : Prop :=
  ∀ pair ∈ file, (∀ other ∈ file, hash other.1 = hash pair.1 → other.1 = pair.1) ∧
    (hash pair.1 < 10 → pair.1 = bytes (toString (hash pair.1)))

instance (hash : Bytes → Nat) (file : List (Bytes × Bytes)) : Decidable (HashesApart hash file) :=
  inferInstanceAs (Decidable (∀ pair ∈ file,
    (∀ other ∈ file, hash other.1 = hash pair.1 → other.1 = pair.1) ∧
      (hash pair.1 < 10 → pair.1 = bytes (toString (hash pair.1)))))

/-- What the index leads to under each index key. -/
def Store.slots (s : Store) (p : Nat) : Option (Bytes × Bytes) :=
  (s.indexRead p).map (fun row => ((s.rows row).data.key, (s.rows row).data.value))

section Loads
variable {hash : Bytes → Nat}

theorem slots_load {s : Store} (bounded : ∀ p, ∀ row ∈ s.entries p, row < s.curTabSize) (p : Nat)
    (columns : Columns) :
    (s.load p columns).slots = Function.update s.slots p (some (columns.key, columns.value)) := by
  funext q
  unfold Store.slots
  rw [load_indexRead]
  by_cases here : q = p
  · subst here
    rw [if_pos rfl, Function.update_self, Option.map_some, load_rows_new]
  · rw [if_neg here, Function.update_of_ne here]
    cases found : s.indexRead q with
    | none => rfl
    | some row =>
      have old := bounded q row (Store.entries_of_indexRead found)
      rw [Option.map_some, Option.map_some, load_rows_old _ _ old]

/-- The slots of a table of rows as `init_table` makes them. -/
def tableSlots (n p : Nat) : Option (Bytes × Bytes) :=
  if p < n then some (bytes (toString p), bytes (toString p)) else none

theorem slots_table (n : Nat) :
    ((List.range n).foldl (fun s rid => s.load rid ⟨bytes (toString rid), bytes (toString rid)⟩)
      Store.empty).slots = tableSlots n := by
  induction n with
  | zero => rfl
  | succ n ih =>
    rw [List.range_succ, List.foldl_append, List.foldl_cons, List.foldl_nil,
      slots_load (filled_table (fun _ => 0) n).bounded, ih]
    funext p
    by_cases here : p = n
    · subst here
      simp [tableSlots]
    · have same : p < n + 1 ↔ p < n := by omega
      simp [tableSlots, here, same]

theorem slots_initEngine {file : List (Bytes × Bytes)} (fits : ∀ pair ∈ file, Fits 127 pair.1 ∧ Fits 1023 pair.2) :
    (Store.initEngine hash file).slots = file.foldl (Slots.overwrite hash) (tableSlots 10) := by
  induction file using List.reverseRecOn with
  | nil =>
    rw [Store.initEngine, List.foldl_nil, List.foldl_nil, Store.initTable]
    exact slots_table 10
  | append_singleton file pair ih =>
    obtain ⟨short, short'⟩ := fits pair (by simp)
    have bounded : ∀ p, ∀ row ∈ (Store.initEngine hash file).entries p,
        row < (Store.initEngine hash file).curTabSize :=
      fun p row listed => ((initEngine_loaded hash file).alloc p row listed).1
    rw [initEngine_snoc, List.foldl_append, ← ih (fun other member => fits other (List.mem_append_left _ member))]
    have step := slots_load bounded (hash pair.1) ⟨strncpy pair.1 127, strncpy pair.2 1023⟩
    rw [strncpy_of_fits short, strncpy_of_fits short'] at step
    simp only [Store.loadPair, strncpy_of_fits short, strncpy_of_fits short']
    exact step

end Loads

section Calls
variable {hash : Bytes → Nat} {db : Db}

theorem freshGet_eq (sound : Sound db) (live : db.store.AllLive) (key : Bytes) :
    db.freshGet hash key = (db.store.slots (hash key)).bind
      (fun entry => if entry.1 = cStr key then some entry.2 else none) := by
  have opened : db.begin_txn.2.txns db.nextId = some (TxnMan.init db.store.timestamp) :=
    Function.update_self _ _ _
  have same : db.begin_txn.2.store.read = db.store.read := rfl
  unfold Db.freshGet Db.get
  rw [opened]
  dsimp only
  rw [same]
  unfold Store.read Store.slots
  cases found : db.store.indexRead (hash key) with
  | none => simp [Rc.ofRead]
  | some row =>
    obtain ⟨result, txn, taken⟩ := (bounded_init db.store.timestamp).getRow_completes .RD
      (live _ row (Store.entries_of_indexRead found)) (sound.free row) (fun _ => (by decide : 0 < MAX_ROW_PER_TXN))
    obtain ⟨rfl, -, -⟩ := getRow_first sound taken
    simp only [taken, Option.map_some, Option.bind_some]
    by_cases named : (db.store.rows row).data.key = cStr key
    · have equal := (strcmp_eq_zero _ _).mpr named
      rw [if_neg (not_not.mpr equal), if_pos named]
      simp [Rc.ofRead]
    · have differs := mt (strcmp_eq_zero _ _).mp named
      simp [differs, named, Rc.ofRead]

/-- The transaction after its put: one written copy, of the row that its key leads to. -/
structure PutOnce (hash : Bytes → Nat) (before after : Store) (pair : Bytes × Bytes) (txn : Txn) : Prop where
  table : ∃ row copy, (∀ acc, acc ∈ txn.accesses ↔ acc = ⟨.WR, row, copy⟩) ∧
    after.indexRead (hash pair.1) = some row ∧
    (copy.key, copy.value) = Slots.merge (before.slots (hash pair.1)) pair ∧
    (after.rows row).manager.wts ≤ txn.startTs
  others : ∀ p, p ≠ hash pair.1 → after.slots p = before.slots p

theorem putOnce_did {next : Db} {t : Nat} {answer : Answer} {pair : Bytes × Bytes} {start : Nat}
    (sound : Sound db)
    (fits : Fits 127 pair.1 ∧ Fits 1023 pair.2) (opened : db.txns t = some (TxnMan.init start))
    (current : ∀ row, (db.store.rows row).manager.wts ≤ start)
    (did : Did hash db ⟨.put t pair.1 pair.2, answer⟩ next) :
    ∃ txn, next.txns t = some txn ∧ PutOnce hash db.store next.store pair txn := by
  have only : ∀ {txn : Txn}, db.txns t = some txn → txn = TxnMan.init start :=
    fun opened' => Option.some.inj (opened'.symm.trans opened)
  have none_else : ∀ {txn' : Txn} {row : Nat} {kind : AccessT} {copy : Columns},
      Replaces row kind copy (TxnMan.init start) txn' → ∀ acc, acc ∈ txn'.accesses ↔ acc = ⟨kind, row, copy⟩ := by
    intro txn' row kind copy replaces acc
    rw [replaces acc]
    exact or_iff_left (fun old => (nomatch old.1))
  have named : cStr pair.1 = pair.1 := cStr_of_no_nul fits.1.2
  cases did with
  | closed target closed => exact absurd closed (not_refused opened target)
  | putConflict opened' found _ newer =>
    obtain rfl := only opened'
    exact absurd (current _) (Nat.not_le.mpr newer)
  | @putMismatch _ _ _ _ txn' row kind copy opened' found live fetched differs =>
    obtain rfl := only opened'
    obtain rfl : kind = .WR := fetched.written rfl
    obtain ⟨rfl, -⟩ := fetched.first (fun _ member => (nomatch member))
    rw [named] at differs
    refine ⟨txn', Function.update_self _ _ _, ⟨row, _, none_else fetched.replaces, found, ?_, ?_⟩,
      fun _ _ => rfl⟩
    · rw [Store.slots, found, Option.map_some, Slots.merge, if_neg differs]
    · rw [fetched.start]
      exact current row
  | @updated _ _ _ _ _ txn' row kind copy opened' found live fetched same entered =>
    obtain rfl := only opened'
    obtain rfl : kind = .WR := fetched.written rfl
    obtain ⟨rfl, -⟩ := fetched.first (fun _ member => (nomatch member))
    rw [named] at same
    refine ⟨txn', Function.update_self _ _ _, ⟨row, _, none_else entered.replaces, found, ?_, ?_⟩,
      fun _ _ => rfl⟩
    · rw [Store.slots, found, Option.map_some, Slots.merge, if_pos same, same, strncpy_of_fits fits.2]
    · rw [entered.start]
      exact current row
  | inserted opened' absent =>
    obtain rfl := only opened'
    have bounded := fun p row listed => (sound.alloc p row listed).1
    rw [strncpy_of_fits fits.1, strncpy_of_fits fits.2]
    refine ⟨_, Function.update_self _ _ _, ⟨db.store.curTabSize, ⟨pair.1, pair.2⟩, ?_, ?_, ?_, ?_⟩, ?_⟩
    · exact fun acc => List.mem_singleton
    · exact (load_indexRead _ _ _ _).trans (if_pos rfl)
    · rw [Store.slots, absent, Option.map_none, Slots.merge]
    · change ((db.store.load _ _).rows _).manager.wts ≤ _
      rw [load_rows_new]
      exact Nat.zero_le _
    · intro p other
      change (db.store.load _ _).slots p = _
      rw [slots_load bounded, Function.update_of_ne other]

/-- The slots after the commit of a transaction with one written copy. -/
theorem slots_installed (sound : Sound db) {t row : Nat} {txn : Txn} {copy : Columns}
    (opened : db.txns t = some txn) (held : ∀ acc, acc ∈ txn.accesses ↔ acc = ⟨.WR, row, copy⟩) {p : Nat}
    (head : db.store.indexRead p = some row) :
    (db.installed t txn).store.slots = Function.update db.store.slots p (some (copy.key, copy.value)) := by
  have nodup := (sound.opened t txn opened).2.nodup
  funext q
  change (db.store.indexRead q).map (fun row =>
    ((wroteBack txn.accesses db.store.rows db.store.timestamp row).data.key,
      (wroteBack txn.accesses db.store.rows db.store.timestamp row).data.value)) = _
  by_cases here : q = p
  · subst here
    have written := wroteBack_of_mem db.store.rows db.store.timestamp nodup ((held _).mpr rfl) rfl
    dsimp only at written
    rw [head, Option.map_some, Function.update_self, written]
    rfl
  · rw [Function.update_of_ne here]
    cases found : db.store.indexRead q with
    | none => simp [Store.slots, found]
    | some row' =>
      have apart : row' ≠ row := by
        rintro rfl
        exact here ((sound.key_of_indexRead found).symm.trans (sound.key_of_indexRead head))
      have unwritten : ∀ acc ∈ txn.accesses, acc.origRow = row' → acc.type ≠ .WR := by
        intro acc member same
        rw [(held acc).mp member] at same
        exact absurd same.symm apart
      rw [Option.map_some, wroteBack_of_not_mem unwritten, Store.slots, found, Option.map_some]

/-- A pair put and committed goes to the slot of its hash, unless that has another key. -/
theorem putPair_spec (sound : Sound db) (live : db.store.AllLive) {pair : Bytes × Bytes}
    (fits : Fits 127 pair.1 ∧ Fits 1023 pair.2) :
    ∃ next, db.putPair hash pair = some next ∧ Sound next ∧ next.store.AllLive ∧
      next.store.slots = Slots.upsert hash db.store.slots pair := by
  have opened : db.begin_txn.2.txns db.nextId = some (TxnMan.init db.store.timestamp) :=
    Function.update_self _ _ _
  have sound₁ : Sound db.begin_txn.2 := sound.begun
  have live₁ : db.begin_txn.2.store.AllLive := live
  have completes : ∃ answer after, Step hash db.begin_txn.2 ⟨.put db.nextId pair.1 pair.2, answer⟩ after :=
    completes_of_hasRoom sound₁ opened (bounded_init _) rfl rfl
      (fun p _ row found => live₁ p row (Store.entries_of_indexRead found))
      (fun _ _ _ => (by decide : 0 < MAX_ROW_PER_TXN))
  obtain ⟨answer, after, put⟩ := completes
  have did := did_of_step sound₁ put
  have sound₂ := sound_did sound₁ did
  have live₂ := allLive_did sound₁ did live₁ (fun _ ends => (nomatch ends))
  obtain ⟨txn, opened₂, ⟨row, copy, held, head, merged, current⟩, others⟩ :=
    putOnce_did sound₁ fits opened (fun row => Nat.le_of_lt (sound.past row)) did
  have alive : ∀ acc ∈ txn.accesses, (after.store.rows acc.origRow).live = true := by
    intro acc member
    rw [(held acc).mp member]
    exact live₂ _ row (Store.entries_of_indexRead head)
  have fresh : ∀ acc ∈ txn.accesses, (after.store.rows acc.origRow).manager.wts ≤ txn.startTs := by
    intro acc member
    rw [(held acc).mp member]
    exact current
  have committed := commit_installs hash sound₂ opened₂ alive fresh
  have did' : Did hash after ⟨.commit db.nextId, .code .OK⟩ (after.installed db.nextId txn) :=
    .committed opened₂ alive fresh
  have ends : ∀ txn', after.discards (.commit db.nextId) = some txn' → txn'.insertRows = [] := by
    intro txn' gone
    obtain ⟨same, outdated⟩ := Option.filter_eq_some_iff.mp gone
    rw [opened₂] at same
    cases same
    obtain ⟨acc, member, newer⟩ := (Store.outdated_iff _ _).mp outdated
    exact absurd newer (Nat.not_lt.mpr (fresh acc member))
  have installed := slots_installed sound₂ opened₂ held head
  simp only [Db.perform] at committed
  refine ⟨after.installed db.nextId txn, ?_, sound_did sound₂ did', allLive_did sound₂ did' live₂ ends, ?_⟩
  · have performed := perform_of_step put
    simp only [Db.perform] at performed
    simp only [Db.putPair, performed, committed, Option.map_some]
  · have same : db.begin_txn.2.store.slots = db.store.slots := rfl
    rw [same] at merged others
    rw [installed, Slots.upsert, ← merged]
    funext p
    by_cases here : p = hash pair.1
    · rw [here, Function.update_self, Function.update_self]
    · rw [Function.update_of_ne here, Function.update_of_ne here, others p here]

theorem putAll_spec (sound : Sound db) (live : db.store.AllLive) {file : List (Bytes × Bytes)}
    (fits : ∀ pair ∈ file, Fits 127 pair.1 ∧ Fits 1023 pair.2) :
    ∃ last, db.putAll hash file = some last ∧ Sound last ∧ last.store.AllLive ∧
      last.store.slots = file.foldl (Slots.upsert hash) db.store.slots := by
  induction file generalizing db with
  | nil => exact ⟨db, rfl, sound, live, rfl⟩
  | cons pair rest ih =>
    obtain ⟨next, put, sound', live', slots⟩ := putPair_spec sound live (fits pair List.mem_cons_self)
    obtain ⟨last, puts, sound'', live'', slots'⟩ :=
      ih sound' live' (fun other later => fits other (List.mem_cons_of_mem _ later))
    refine ⟨last, ?_, sound'', live'', ?_⟩
    · rw [Db.putAll, put, Option.bind_some, puts]
    · rw [slots', slots, List.foldl_cons]

end Calls

section Compare
variable {hash : Bytes → Nat} {file : List (Bytes × Bytes)}

/-- What a new transaction reads from slots. -/
def find (hash : Bytes → Nat) (slots : Nat → Option (Bytes × Bytes)) (key : Bytes) : Option Bytes :=
  (slots (hash key)).bind (fun entry => if entry.1 = cStr key then some entry.2 else none)

theorem find_isSome {slots : Nat → Option (Bytes × Bytes)} {key : Bytes} :
    (find hash slots key).isSome = true ↔ ∃ entry, slots (hash key) = some entry ∧ entry.1 = cStr key := by
  unfold find
  cases slots (hash key) with
  | none => simp
  | some entry => simp [Option.isSome_ite]

theorem freshGet_initial (fits : ∀ pair ∈ file, Fits 127 pair.1 ∧ Fits 1023 pair.2) (key : Bytes) :
    (initial hash file).freshGet hash key =
      find hash (file.foldl (Slots.overwrite hash) (tableSlots 10)) key := by
  have live : (initial hash file).store.AllLive :=
    fun p row listed => ((initEngine_loaded hash file).alloc p row listed).2.2
  rw [freshGet_eq (initial_sound hash file) live]
  change ((Store.initEngine hash file).slots (hash key)).bind _ = _
  rw [slots_initEngine fits]
  rfl

theorem noCollision_iff : Slots.NoCollision hash (tableSlots 10) file ↔ HashesApart hash file := by
  have numbered : ∀ key : Bytes, (∀ entry, tableSlots 10 (hash key) = some entry → entry.1 = key) ↔
      (hash key < 10 → key = bytes (toString (hash key))) := by
    intro key
    unfold tableSlots
    by_cases low : hash key < 10
    · simp [low, eq_comm]
    · simp [low]
  simp only [Slots.NoCollision, HashesApart, numbered]

variable (fits : ∀ pair ∈ file, Fits 127 pair.1 ∧ Fits 1023 pair.2)
include fits

/-- What the file put pair by pair leaves to be read. -/
theorem freshGet_puts {db : Db} (puts : (initial hash []).putAll hash file = some db) (key : Bytes) :
    db.freshGet hash key = find hash (file.foldl (Slots.upsert hash) (tableSlots 10)) key := by
  have live : (initial hash []).store.AllLive :=
    fun p row listed => ((initEngine_loaded hash []).alloc p row listed).2.2
  obtain ⟨last, puts', sound, live, slots⟩ := putAll_spec (initial_sound hash []) live fits
  rw [puts] at puts'
  cases puts'
  have start : (initial hash []).store.slots = tableSlots 10 := slots_initEngine (fun _ member => (nomatch member))
  rw [freshGet_eq sound live, slots, start]
  rfl

/-- When loading a key leaves the others readable, every key of the file can be read at the end. -/
theorem readable_of_agrees (agrees : LoaderAgrees hash file) {pair : Bytes × Bytes} (member : pair ∈ file) :
    ∃ entry, file.foldl (Slots.overwrite hash) (tableSlots 10) (hash pair.1) = some entry ∧
      entry.1 = pair.1 := by
  have stays : ∀ front back, file = front ++ back → ∀ pair ∈ front,
      ((initial hash front).freshGet hash pair.1).isSome = true := by
    intro front
    induction front using List.reverseRecOn with
    | nil => exact fun _ _ _ within => (nomatch within)
    | append_singleton front last ih =>
      intro back split pair within
      have fits' : ∀ other ∈ front ++ [last], Fits 127 other.1 ∧ Fits 1023 other.2 :=
        fun other listed => fits other (split ▸ List.mem_append_left _ listed)
      rw [List.append_assoc] at split
      by_cases same : pair.1 = last.1
      · rw [freshGet_initial fits', find_isSome, same, List.foldl_append, List.foldl_cons, List.foldl_nil]
        refine ⟨last, Function.update_self _ _ _, ?_⟩
        rw [cStr_of_no_nul (fits' last (by simp)).1.2]
      · have earlier : pair ∈ front := by
          rcases List.mem_append.mp within with earlier | only
          · exact earlier
          · exact absurd (congrArg Prod.fst (List.mem_singleton.mp only)) same
        exact agrees.kept front last back split pair.1 same (ih _ split pair earlier)
  have found := stays file [] (List.append_nil file).symm pair member
  rw [freshGet_initial fits, find_isSome, cStr_of_no_nul (fits pair member).1.2] at found
  exact found

theorem apart_of_agrees (agrees : LoaderAgrees hash file) : HashesApart hash file := by
  intro pair member
  obtain ⟨entry, slot, named⟩ := readable_of_agrees fits agrees member
  constructor
  · intro other within same
    obtain ⟨entry', slot', named'⟩ := readable_of_agrees fits agrees within
    rw [same, slot] at slot'
    cases slot'
    exact named'.symm.trans named
  · intro low
    obtain ⟨db, puts, alike⟩ := agrees.same
    have read : (find hash (file.foldl (Slots.overwrite hash) (tableSlots 10)) pair.1).isSome = true := by
      rw [find_isSome, cStr_of_no_nul (fits pair member).1.2]
      exact ⟨entry, slot, named⟩
    rw [← freshGet_initial fits, alike, freshGet_puts fits puts, find_isSome] at read
    have filled : tableSlots 10 (hash pair.1) =
        some (bytes (toString (hash pair.1)), bytes (toString (hash pair.1))) := if_pos low
    have keyed : ∃ value, file.foldl (Slots.upsert hash) (tableSlots 10) (hash pair.1) =
        some (bytes (toString (hash pair.1)), value) := Slots.foldl_upsert_key filled
    obtain ⟨value, kept⟩ := keyed
    obtain ⟨entry', slot', named'⟩ := read
    rw [kept] at slot'
    cases slot'
    rw [cStr_of_no_nul (fits pair member).1.2] at named'
    exact named'.symm

theorem agrees_of_apart (apart : HashesApart hash file) : LoaderAgrees hash file := by
  have collisionFree := noCollision_iff.mpr apart
  refine ⟨?_, ?_, ?_⟩
  · have live : (initial hash []).store.AllLive :=
      fun p row listed => ((initEngine_loaded hash []).alloc p row listed).2.2
    obtain ⟨db, puts, -⟩ := putAll_spec (initial_sound hash []) live fits
    refine ⟨db, puts, fun key => ?_⟩
    rw [freshGet_initial fits, freshGet_puts fits puts, Slots.foldl_upsert_eq collisionFree]
  · intro before pair after split key _ readable
    have fits' : ∀ other ∈ before ++ [pair], Fits 127 other.1 ∧ Fits 1023 other.2 := by
      intro other listed
      apply fits other
      rw [split, List.append_cons]
      exact List.mem_append_left _ listed
    rw [freshGet_initial (fun other listed => fits' other (List.mem_append_left _ listed)), find_isSome] at readable
    rw [freshGet_initial fits', find_isSome, List.foldl_append, List.foldl_cons, List.foldl_nil, Slots.overwrite]
    obtain ⟨entry, slot, named⟩ := readable
    by_cases here : hash key = hash pair.1
    · rw [split, List.append_cons] at collisionFree
      have same := Slots.key_of_overwritten collisionFree.front (here ▸ slot)
      exact ⟨pair, by rw [here, Function.update_self], same.symm.trans named⟩
    · exact ⟨entry, by rw [Function.update_of_ne here, slot], named⟩
  · intro before key value after split unrepeated
    have member : (key, value) ∈ file := by
      rw [split]
      simp
    rw [freshGet_initial fits, split, List.foldl_append, List.foldl_cons]
    rcases Slots.foldl_overwrite_cases hash (Slots.overwrite hash
        (before.foldl (Slots.overwrite hash) (tableSlots 10)) (key, value)) after (hash key) with
      ⟨same, -⟩ | ⟨front, last, back, parts, hashed, -, -⟩
    · rw [find, same, Slots.overwrite, Function.update_self, Option.bind_some,
        if_pos (cStr_of_no_nul (fits _ member).1.2).symm]
    · have later : last ∈ after := by
        rw [parts]
        simp
      have within : last ∈ file := by
        rw [split]
        simp [later]
      exact absurd ((apart (key, value) member).1 last within hashed) (unrepeated last later)

end Compare

/-- For files whose strings fit their columns, the loader agrees with puts exactly when the keys of
the file have hashes of their own. -/
theorem loader_agrees_iff (hash : Bytes → Nat) (file : List (Bytes × Bytes))
    (fits : ∀ pair ∈ file, Fits 127 pair.1 ∧ Fits 1023 pair.2) :
    LoaderAgrees hash file ↔ HashesApart hash file :=
  ⟨apart_of_agrees fits, agrees_of_apart fits⟩

/-- A file with a repeated key. -/
theorem loader_agrees_repeated :
    LoaderAgrees numeral [(bytes "a", bytes "x"), (bytes "b", bytes "y"), (bytes "a", bytes "z")] := by
  refine (loader_agrees_iff numeral _ ?_).mpr ?_
  · simp only [List.forall_mem_cons]
    exact ⟨by decide, by decide, by decide, fun _ member => (nomatch member)⟩
  · decide +kernel

/-- With two keys of one hash, the first is unreadable once the second is loaded. -/
theorem loader_hides_key : ¬ LoaderAgrees (fun _ => 42) [(bytes "a", bytes "x"), (bytes "b", bytes "y")] := by
  intro agrees
  have read :
      ((initial (fun _ => 42) [(bytes "a", bytes "x")]).freshGet (fun _ => 42) (bytes "a")).isSome = true := by
    decide +kernel
  have kept := agrees.kept [(bytes "a", bytes "x")] (bytes "b", bytes "y") [] rfl (bytes "a") (by decide) read
  revert kept
  decide +kernel

end DataAgentDB.Kv
