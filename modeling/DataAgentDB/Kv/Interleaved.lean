import DataAgentDB.Kv.Overwrite
import DataAgentDB.Occ.Atomic

/-! The calls of kv_api.cpp while threads interleave inside of them, as long as puts find their key
in the index. `Read` and `Write` touch what threads share once, in their `get_row`, and go on with
the local copy; `finish` latches, checks, writes and releases row by row. The calls as wholes, in the
order they take effect, explain all that is answered. -/

namespace DataAgentDB.Kv
open Storage Server TxnMan LabelledRun CommitReplay

/-- The next thing a thread does for a transaction: a call, or one more step of its `finish`. `begin_txn`
is its draw of a timestamp, by which transactions are numbered. -/
inductive Move where
  | begin_txn
  | get (t : Nat) (key : Bytes)
  | put (t : Nat) (key value : Bytes)
  | commit (t : Nat)
  | abort_txn (t : Nat)
  | advance (t : Nat)
  deriving DecidableEq, Repr

/-- Keys and values are C strings that fit their columns. -/
def Move.Fits : Move → Prop
  | .get _ key => 0 ∉ key
  | .put _ key value => 0 ∉ key ∧ Kv.Fits 127 key ∧ Kv.Fits 1023 value
  | _ => True

instance : (move : Move) → Decidable move.Fits
  | .get _ key => inferInstanceAs (Decidable (0 ∉ key))
  | .put _ key value => inferInstanceAs (Decidable (0 ∉ key ∧ Kv.Fits 127 key ∧ Kv.Fits 1023 value))
  | .begin_txn | .commit _ | .abort_txn _ | .advance _ => .isTrue trivial

/-- The store with the transactions in it, each wherever its thread stands. -/
structure Engine where
  store : Store
  clients : Nat → Option (Occ.Client Nat Columns)
  nextId : Nat

namespace Engine

/-- No call has been made yet. -/
def start (db : Db) : Engine := { store := db.store, clients := fun _ => none, nextId := db.nextId }

def protocol (e : Engine) : Occ.State Nat Columns :=
  { rows := e.store.rows, timestamp := e.store.timestamp, txns := e.clients, begun := e.nextId }

def withProtocol (e : Engine) (s : Occ.State Nat Columns) : Engine :=
  { store := { e.store with rows := s.rows, timestamp := s.timestamp }, clients := s.txns, nextId := s.begun }

def setClient (e : Engine) (t : Nat) (client : Occ.Client Nat Columns) : Engine :=
  { e with clients := Function.update e.clients t (some client) }

/-- The record of first copies after a `get_row` of the row that the index had. -/
def noted (e : Engine) (man : Txn) (copied : List (Nat × Columns)) (item : Option Nat) (type : AccessT) :
    List (Nat × Columns) :=
  match item with
  | none => copied
  | some row =>
    match man.getRow e.store.rows row type with
    | none => copied
    | some (result, _) => Occ.noteFirst copied row result

/-- The call that ends with a `finish`. -/
def ended : Occ.Call Nat Columns → Option Event
  | .finish t .RCOK answer => some ⟨.commit t, .code (Rc.ofFinish answer)⟩
  | .finish t _ _ => some ⟨.abort_txn t, .code .OK⟩
  | _ => none

/-- A step of a `finish`. -/
def finishing (e : Engine) (action : Occ.Action Nat Columns) : Option (List Event × Engine) :=
  (Occ.step e.protocol action).map (fun s =>
    ((Occ.effect e.protocol action).filterMap ended, e.withProtocol s))

/-- The handle's `impl` is null. -/
def closed (e : Engine) (t : Nat) : Bool :=
  match e.clients t with
  | none => true
  | some client =>
    match client.phase with
    | .ended _ => true
    | _ => false

/-- `get`, with the record of a first copy for the row that the index has. -/
def get (hash : Bytes → Nat) (e : Engine) (t : Nat) (key : Bytes) : Option (Answer × Engine) :=
  match e.clients t with
  | some ⟨man, .running, copied, installs⟩ =>
    match e.store.read man (hash key) key with
    | none => none
    | some (rc, value, man') =>
      let answer := if Rc.ofRead rc = .OK then .value value else .code (Rc.ofRead rc)
      let copied' := e.noted man copied (e.store.indexRead (hash key)) .RD
      some (answer, e.setClient t ⟨man', .running, copied', installs⟩)
  | _ => none

/-- `put` over the row that the index has. -/
def put (hash : Bytes → Nat) (e : Engine) (t row : Nat) (key value : Bytes) : Option (Answer × Engine) :=
  match e.clients t with
  | some ⟨man, .running, copied, installs⟩ =>
    match e.store.writeAt man (some row) (hash key) key value with
    | none => none
    | some (rc, store, man') =>
      let copied' := e.noted man copied (some row) .WR
      some (.code (Rc.ofWrite rc), { e with store := store }.setClient t ⟨man', .running, copied', installs⟩)
  | _ => none

/-- A call on a handle: refused when its `impl` is null. -/
def guarded (e : Engine) (t : Nat) (call : Call) (body : Option (Answer × Engine)) : Option (List Event × Engine) :=
  if e.closed t then some ([⟨call, .code .ERROR⟩], e) else body.map (fun (answer, after) => ([⟨call, answer⟩], after))

/-- A move with the calls that take effect in it. A put whose key the index lacks is none: it would
enter a row. -/
def perform (hash : Bytes → Nat) (e : Engine) : Move → Option (List Event × Engine)
  | .begin_txn =>
    (Occ.step e.protocol .begin).map (fun s => ([⟨.begin_txn, .begun e.nextId⟩], e.withProtocol s))
  | .get t key => e.guarded t (.get t key) (e.get hash t key)
  | .put t key value =>
    match e.store.indexRead (hash key) with
    | none => none
    | some row => e.guarded t (.put t key value) (e.put hash t row key value)
  | .commit t => if e.closed t then some ([⟨.commit t, .code .ERROR⟩], e) else e.finishing (.finish t .RCOK)
  | .abort_txn t => if e.closed t then some ([⟨.abort_txn t, .code .ERROR⟩], e) else e.finishing (.finish t .Abort)
  | .advance t => e.finishing (.advance t)

def next (hash : Bytes → Nat) (e : Engine) (move : Move) : Option Engine := (e.perform hash move).map Prod.snd

/-- The calls that take effect in a move. -/
def events (hash : Bytes → Nat) (e : Engine) (move : Move) : List Event :=
  ((e.perform hash move).map Prod.fst).getD []

def Step (hash : Bytes → Nat) (e : Engine) (move : Move) (after : Engine) : Prop := e.next hash move = some after

/-- The calls of a run, in the order they take effect. -/
def calls (hash : Bytes → Nat) (e : Engine) (moves : List Move) : List Event :=
  emitted (next hash) (events hash) e moves

end Engine

/-- The transaction of a handle, while no call ended it. -/
def opened (client : Occ.Client Nat Columns) : Option Txn :=
  match client.phase with
  | .running => some client.man
  | _ => none

/-- The database whose rows and transactions are those of the protocol's whole calls. -/
structure Mirrors (e : Engine) (whole : Occ.State Nat Columns) (db : Db) : Prop where
  store : db.store = { e.store with rows := whole.rows, timestamp := whole.timestamp }
  nextId : db.nextId = whole.begun
  txns : ∀ t, db.txns t = (whole.txns t).bind opened

/-- A call that overwrites. -/
def Overwriting (hash : Bytes → Nat) (db : Db) (event : Event) (next : Db) : Prop :=
  Step hash db event next ∧ Overwrites hash [] db event

section Steps
variable {hash : Bytes → Nat} {e after : Engine} {whole whole' : Occ.State Nat Columns} {db : Db}
  {start : Nat → Row Columns} {t : Nat} {man : Txn} {copied installs : List (Nat × Columns)} {told : List Event}

theorem Engine.setClient_self {client : Occ.Client Nat Columns} (e : Engine) (found : e.clients t = some client) :
    e.setClient t client = e := by
  unfold Engine.setClient
  rw [← found, Function.update_eq_self]

theorem Engine.noted_of {row : Nat} {type : AccessT} {result : Option Columns} {man' : Txn} (e : Engine)
    (taken : man.getRow e.store.rows row type = some (result, man')) :
    e.noted man copied (some row) type = Occ.noteFirst copied row result := by
  simp only [Engine.noted, taken]

theorem Mirrors.indexRead (mirrors : Mirrors e whole db) (p : Nat) :
    db.store.indexRead p = e.store.indexRead p := by
  rw [mirrors.store]
  rfl

theorem Mirrors.running (mirrors : Mirrors e whole db)
    (client : whole.txns t = some ⟨man, .running, copied, installs⟩) : db.txns t = some man := by
  rw [mirrors.txns t, client]
  rfl

/-- One transaction moves in the whole calls, and the database follows. -/
theorem Mirrors.move (mirrors : Mirrors e whole db) {rows : Nat → Row Columns} {timestamp begun nextId : Nat}
    {store : Store} (kept : after.store = { e.store with rows := after.store.rows, timestamp := after.store.timestamp })
    (stored : store = { db.store with rows := rows, timestamp := timestamp })
    (client : Occ.Client Nat Columns) {left : Option Txn} (shown : opened client = left) (numbered : nextId = begun) :
    Mirrors after ⟨rows, timestamp, Function.update whole.txns t (some client), begun⟩
      ({ db with store := store, nextId := nextId }.setTxn t left) where
  store := by
    dsimp only [Db.setTxn]
    rw [stored, mirrors.store, kept]
  nextId := numbered
  txns u := by
    dsimp only [Db.setTxn]
    by_cases same : u = t
    · subst same
      rw [Function.update_self, Function.update_self, Option.bind_some, shown]
    · rw [Function.update_of_ne same, Function.update_of_ne same, mirrors.txns u]

/-- Only a local copy or the access table of one transaction changes. -/
theorem Mirrors.turn (mirrors : Mirrors e whole db) (man : Txn) (copied installs : List (Nat × Columns)) :
    Mirrors (e.setClient t ⟨man, .running, copied, installs⟩)
      (whole.setClient t ⟨man, .running, copied, installs⟩) (db.setTxn t (some man)) := by
  refine mirrors.move ?_ ?_ _ rfl mirrors.nextId
  · rfl
  · rw [mirrors.store]

/-- A step that no whole call sees. -/
theorem Mirrors.quiet (mirrors : Mirrors e whole db)
    (kept : after.store = { e.store with rows := after.store.rows, timestamp := after.store.timestamp }) :
    Mirrors after whole db where
  store := by rw [mirrors.store, kept]
  nextId := mirrors.nextId
  txns := mirrors.txns

/-- A call without a key. -/
theorem overwriting_plain {next : Db} {call : Call} {answer : Answer}
    (performed : db.perform hash call = some (answer, next)) (unkeyed : call.key = none) :
    Overwriting hash db ⟨call, answer⟩ next := by
  refine ⟨step_of_perform performed, ?_, ?_, ?_⟩
  · cases call with
    | put t key value => cases unkeyed
    | _ => trivial
  · intro key named
    rw [unkeyed] at named
    cases named
  · cases call with
    | put t key value => cases unkeyed
    | _ => trivial

/-- A whole `finish` is a commit or an abort. -/
theorem Mirrors.ended (mirrors : Mirrors e whole db) {rc answer : RC} (rcs : rc = .RCOK ∨ rc = .Abort)
    (kept : after.store = { e.store with rows := after.store.rows, timestamp := after.store.timestamp })
    (told : Occ.Atomic whole (.finish t rc answer) whole') :
    ∃ event db', Engine.ended (.finish t rc answer) = some event ∧ Overwriting hash db event db' ∧
      Mirrors after whole' db' := by
  cases told with
  | @finished _ _ _ man man' copied installs rows timestamp client taken =>
    have opened := mirrors.running client
    have finished : db.finish t man rc =
        some (answer, { db with store := { db.store with rows := rows, timestamp := timestamp } }.setTxn t none) := by
      unfold Db.finish
      rw [mirrors.store]
      dsimp only
      rw [taken]
    have moved : Mirrors after _
        ({ db with store := { db.store with rows := rows, timestamp := timestamp } }.setTxn t none) :=
      mirrors.move kept rfl ⟨man', .ended answer, copied,
        if answer = .RCOK then Occ.writeSet (man.sortAccesses whole.rows).accesses else installs⟩ rfl mirrors.nextId
    rcases rcs with rfl | rfl
    · refine ⟨_, _, rfl, overwriting_plain ?_ rfl, moved⟩
      simp only [Db.perform, Db.commit, opened, finished]
    · refine ⟨_, _, rfl, overwriting_plain ?_ rfl, moved⟩
      simp only [Db.perform, Db.abort_txn, opened, finished]

/-- The state of the threads, the whole calls, and the database of the whole calls. -/
def Follows (start : Nat → Row Columns) (e : Engine) (db : Db) : Prop :=
  ∃ whole, Occ.Explained start e.protocol whole ∧ Mirrors e whole db

theorem Follows.closed (follows : Follows start e db) (closed : e.closed t = true) : db.txns t = none := by
  obtain ⟨whole, explained, mirrors⟩ := follows
  rw [mirrors.txns t]
  unfold Engine.closed at closed
  cases found : e.clients t with
  | none => rw [explained.settles.unknown t found, Option.bind_none]
  | some client =>
    obtain ⟨other, there, stands⟩ := explained.settles.stands t client found
    obtain ⟨man, phase, copied, installs⟩ := client
    rw [found] at closed
    cases phase with
    | ended rc =>
      cases stands with
      | answered _ ended =>
        rw [there, Option.bind_some]
        unfold opened
        rw [ended]
    | running => cases closed
    | latching => cases closed
    | writing => cases closed
    | releasing => cases closed

theorem follows_begin (follows : Follows start e db)
    (taken : e.perform hash .begin_txn = some (told, after)) :
    ∃ db', Run (Overwriting hash) Always db told db' ∧ Follows start after db' := by
  obtain ⟨whole, explained, mirrors⟩ := follows
  unfold Engine.perform at taken
  obtain ⟨s, stepped, same⟩ := Option.map_eq_some_iff.mp taken
  cases same
  have begins : Occ.Step e.protocol .begin s := stepped
  obtain ⟨whole', run, explained'⟩ := Occ.explained_step explained begins
  cases Occ.Atomic.of_begin run.single
  have numbered : db.nextId = e.nextId := mirrors.nextId.trans explained.settles.begun
  refine ⟨db.begin_txn.2, .one (overwriting_plain ?_ rfl), _, explained', ?_⟩
  · rw [← numbered]
    rfl
  · have same : db.begin_txn.2 = { db with
        store := { db.store with timestamp := whole.timestamp + 1 }, nextId := whole.begun + 1 }.setTxn whole.begun
          (some (TxnMan.init whole.timestamp)) := by
      simp only [Db.begin_txn, Db.setTxn, mirrors.nextId, mirrors.store]
    rw [same]
    refine mirrors.move ?_ ?_ _ rfl rfl
    · rfl
    · rw [mirrors.store]
      rfl

theorem follows_get (follows : Follows start e db) {key : Bytes} {answer : Answer}
    (taken : e.get hash t key = some (answer, after)) :
    ∃ db', db.get hash t key = some (answer, db') ∧ Follows start after db' := by
  obtain ⟨whole, explained, mirrors⟩ := follows
  unfold Engine.get at taken
  split at taken
  next man copied installs client =>
    have opened := mirrors.running (explained.running client)
    split at taken
    next => cases taken
    next rc value man' read =>
      cases taken
      have lookup := mirrors.indexRead (hash key)
      cases found : e.store.indexRead (hash key) with
      | none =>
        rw [found] at lookup
        simp only [Store.read, found, Option.some.injEq, Prod.mk.injEq] at read
        obtain ⟨rfl, rfl, rfl⟩ := read
        refine ⟨db, ?_, whole, ?_, mirrors.quiet rfl⟩
        · simp only [Db.get, opened, Store.read, lookup, Db.setTxn_self opened]
        · simpa only [Engine.noted, e.setClient_self client] using explained
      | some row =>
        rw [found] at lookup
        cases got : man.getRow e.store.rows row .RD with
        | none => simp [Store.read, found, got] at read
        | some pair =>
          obtain ⟨result, man₁⟩ := pair
          obtain ⟨alone, explained'⟩ := explained.getRow client got
          have same : db.store.read man (hash key) key = some (rc, value, man') := by
            simp only [← read, Store.read, lookup, found, got]
            rw [mirrors.store]
            simp only [alone]
          obtain rfl : man₁ = man' := by
            cases result with
            | none =>
              simp only [Store.read, found, got, Option.some.injEq, Prod.mk.injEq] at read
              exact read.2.2
            | some copy =>
              simp only [Store.read, found, got] at read
              split at read <;> (cases read; rfl)
          refine ⟨db.setTxn t (some man₁), ?_, _, ?_, mirrors.turn _ _ _⟩
          · simp only [Db.get, opened, same]
          · rw [e.noted_of got]
            exact explained'
  next => cases taken

theorem follows_put (follows : Follows start e db) {row : Nat} {key value : Bytes} {answer : Answer}
    (found : e.store.indexRead (hash key) = some row) (taken : e.put hash t row key value = some (answer, after)) :
    ∃ db', db.put hash t key value = some (answer, db') ∧ Follows start after db' := by
  obtain ⟨whole, explained, mirrors⟩ := follows
  unfold Engine.put at taken
  split at taken
  next man copied installs client =>
    have opened := mirrors.running (explained.running client)
    have lookup : db.store.indexRead (hash key) = some row := (mirrors.indexRead _).trans found
    split at taken
    next => cases taken
    next rc store man' written =>
      cases taken
      cases got : man.getRow e.store.rows row .WR with
      | none => simp [Store.writeAt, got] at written
      | some pair =>
        obtain ⟨result, man₁⟩ := pair
        obtain ⟨alone, explained'⟩ := explained.getRow client got
        have alone' : man.getRow db.store.rows row .WR = some (result, man₁) := by
          rw [mirrors.store]
          exact alone
        rw [e.noted_of got]
        cases result with
        | none =>
          simp only [Store.writeAt, got, Option.some.injEq, Prod.mk.injEq] at written
          obtain ⟨rfl, rfl, rfl⟩ := written
          refine ⟨db.setTxn t (some man₁), ?_, _, explained', mirrors.turn _ _ _⟩
          simp only [Db.put, opened, Store.write, lookup, Store.writeAt, alone']
        | some copy =>
          simp only [Store.writeAt, got] at written
          split at written
          next mismatch =>
            cases written
            refine ⟨db.setTxn t (some man'), ?_, _, explained', mirrors.turn _ _ _⟩
            simp only [Db.put, opened, Store.write, lookup, Store.writeAt, alone', if_pos mismatch]
          next same =>
            cases written
            have sameKey : (db.store.rows row).primaryKey = (e.store.rows row).primaryKey := by
              have keys := (Occ.settled_kept explained.latches row).2.1
              rw [mirrors.store, explained.settles.rows]
              exact ((sortKey_eq_iff _ _).mp keys).2
            have changed := explained'.setLocal (Function.update_self _ _ _) (e.store.rows row).primaryKey
              (fun columns : Columns => { columns with value := strncpy value 1023 })
            simp only [Occ.State.setClient, Function.update_idem] at changed
            refine ⟨_, ?_, _, changed, mirrors.turn _ _ _⟩
            simp only [Db.put, opened, Store.write, lookup, Store.writeAt, alone', if_neg same, sameKey]
  next => cases taken

/-- A step of a `finish` is seen as a whole one, or not at all. -/
theorem follows_finishing (follows : Follows start e db) {action : Occ.Action Nat Columns}
    (ends : action = .finish t .RCOK ∨ action = .finish t .Abort ∨ action = .advance t)
    (taken : e.finishing action = some (told, after)) :
    ∃ db', Run (Overwriting hash) Always db told db' ∧ Follows start after db' := by
  obtain ⟨whole, explained, mirrors⟩ := follows
  obtain ⟨s, stepped, same⟩ := Option.map_eq_some_iff.mp taken
  cases same
  obtain ⟨whole', run, explained'⟩ := Occ.explained_step explained stepped
  have shape : Occ.effect e.protocol action = [] ∨ ∃ rc answer, (rc = .RCOK ∨ rc = .Abort) ∧
      Occ.effect e.protocol action = [.finish t rc answer] := by
    rcases ends with rfl | rfl | rfl
    · exact .inl rfl
    · exact .inr ⟨.Abort, .Abort, .inr rfl, rfl⟩
    · unfold Occ.effect
      dsimp only
      split
      next =>
        split
        next => exact .inr ⟨.RCOK, .RCOK, .inl rfl, rfl⟩
        next =>
          split
          next => exact .inl rfl
          next => exact .inr ⟨.RCOK, .Abort, .inl rfl, rfl⟩
      next => exact .inl rfl
  rcases shape with none | ⟨rc, answer, rcs, one⟩
  · rw [none] at run ⊢
    rw [run.of_nil] at explained'
    exact ⟨db, .nil, whole, explained', mirrors.quiet rfl⟩
  · rw [one] at run ⊢
    have kept : (e.withProtocol s).store = { e.store with rows := s.rows, timestamp := s.timestamp } := rfl
    obtain ⟨event, db', shown, overwriting, mirrors'⟩ := mirrors.ended rcs kept run.single
    rw [List.filterMap_cons, shown, List.filterMap_nil]
    exact ⟨db', .one overwriting, whole', explained', mirrors'⟩

/-- A call on a handle is refused or performed, in both. -/
theorem follows_guarded (follows : Follows start e db) {call : Call} {body : Option (Answer × Engine)}
    (taken : e.guarded t call body = some (told, after))
    (overwrites : ∀ answer, Overwrites hash [] db ⟨call, answer⟩)
    (refused : db.txns t = none → db.perform hash call = some (.code .ERROR, db))
    (performed : ∀ answer, body = some (answer, after) →
      ∃ db', db.perform hash call = some (answer, db') ∧ Follows start after db') :
    ∃ db', Run (Overwriting hash) Always db told db' ∧ Follows start after db' := by
  unfold Engine.guarded at taken
  split at taken
  next closed =>
    cases taken
    exact ⟨db, .one ⟨step_of_perform (refused (follows.closed closed)), overwrites _⟩, follows⟩
  next =>
    obtain ⟨⟨answer, after'⟩, made, same⟩ := Option.map_eq_some_iff.mp taken
    cases same
    obtain ⟨db', shown, follows'⟩ := performed answer made
    exact ⟨db', .one ⟨step_of_perform shown, overwrites answer⟩, follows'⟩

theorem follows_step (follows : Follows start e db) {move : Move} (fits : move.Fits)
    (taken : e.perform hash move = some (told, after)) :
    ∃ db', Run (Overwriting hash) Always db told db' ∧ Follows start after db' := by
  cases move with
  | begin_txn => exact follows_begin follows taken
  | get t key =>
    unfold Engine.perform at taken
    refine follows_guarded follows taken (fun answer => ⟨trivial, ?_, trivial⟩) ?_
      (fun answer made => follows_get follows made)
    · rintro _ ⟨⟩
      exact fits
    · intro unknown
      simp only [Db.perform, Db.get, unknown]
  | put t key value =>
    unfold Engine.perform at taken
    dsimp only at taken
    split at taken
    next => cases taken
    next row found =>
      obtain ⟨clean, short, shortValue⟩ := fits
      have present : (db.store.indexRead (hash key)).isSome = true := by
        obtain ⟨whole, -, mirrors⟩ := follows
        rw [mirrors.indexRead, found]
        rfl
      refine follows_guarded follows taken (fun answer => ⟨⟨short, shortValue⟩, ?_, present⟩) ?_
        (fun answer made => follows_put follows found made)
      · rintro _ ⟨⟩
        exact clean
      · intro unknown
        simp only [Db.perform, Db.put, unknown]
  | commit t =>
    unfold Engine.perform at taken
    dsimp only at taken
    split at taken
    next closed =>
      cases taken
      refine ⟨db, .one (overwriting_plain ?_ rfl), follows⟩
      simp only [Db.perform, Db.commit, follows.closed closed]
    next => exact follows_finishing follows (.inl rfl) taken
  | abort_txn t =>
    unfold Engine.perform at taken
    dsimp only at taken
    split at taken
    next closed =>
      cases taken
      refine ⟨db, .one (overwriting_plain ?_ rfl), follows⟩
      simp only [Db.perform, Db.abort_txn, follows.closed closed]
    next => exact follows_finishing follows (.inr (.inl rfl)) taken
  | advance t => exact follows_finishing follows (.inr (.inr rfl)) taken

/-- The call that answers for a `finish` that returned a code. -/
def Answers (told : List Event) (t : Nat) (rc : RC) : Prop :=
  ⟨.commit t, .code (Rc.ofFinish rc)⟩ ∈ told ∨ ⟨.abort_txn t, .code .OK⟩ ∈ told

theorem answers_finishing {action : Occ.Action Nat Columns} (taken : e.finishing action = some (told, after))
    {client : Occ.Client Nat Columns} {rc : RC} (found : after.clients t = some client)
    (answered : client.answered = some rc) :
    (∃ before, e.clients t = some before ∧ before.answered = some rc) ∨ Answers told t rc := by
  obtain ⟨s, stepped, same⟩ := Option.map_eq_some_iff.mp taken
  cases same
  refine (Occ.answered_step stepped found answered).imp_right ?_
  rintro ⟨asked, member⟩
  have shown : ∀ event, Engine.ended (.finish t asked rc) = some event →
      event ∈ (Occ.effect e.protocol action).filterMap Engine.ended :=
    fun event same => List.mem_filterMap.mpr ⟨_, member, same⟩
  cases asked with
  | RCOK => exact .inl (shown _ rfl)
  | _ => exact .inr (shown _ rfl)

theorem answers_guarded {call : Call} {body : Option (Answer × Engine)} {client : Occ.Client Nat Columns} {rc : RC}
    (taken : e.guarded t call body = some (told, after))
    (running : ∀ answer, body = some (answer, after) → ∃ man copied installs,
      after.clients = Function.update e.clients t (some ⟨man, .running, copied, installs⟩)) {u : Nat}
    (found : after.clients u = some client) (answered : client.answered = some rc) :
    ∃ before, e.clients u = some before ∧ before.answered = some rc := by
  unfold Engine.guarded at taken
  split at taken
  next =>
    cases taken
    exact ⟨client, found, answered⟩
  next =>
    obtain ⟨⟨answer, after'⟩, made, same⟩ := Option.map_eq_some_iff.mp taken
    cases same
    obtain ⟨man, copied, installs, clients⟩ := running answer made
    rw [clients] at found
    rcases Occ.found_update found with ⟨rfl, rfl⟩ | ⟨-, before⟩
    · cases answered
    · exact ⟨client, before, answered⟩

theorem get_running {key : Bytes} {answer : Answer} (taken : e.get hash t key = some (answer, after)) :
    ∃ man copied installs, after.clients = Function.update e.clients t (some ⟨man, .running, copied, installs⟩) := by
  unfold Engine.get at taken
  split at taken
  next =>
    split at taken
    next => cases taken
    next =>
      cases taken
      exact ⟨_, _, _, rfl⟩
  next => cases taken

theorem put_running {row : Nat} {key value : Bytes} {answer : Answer}
    (taken : e.put hash t row key value = some (answer, after)) :
    ∃ man copied installs, after.clients = Function.update e.clients t (some ⟨man, .running, copied, installs⟩) := by
  unfold Engine.put at taken
  split at taken
  next =>
    split at taken
    next => cases taken
    next =>
      cases taken
      exact ⟨_, _, _, rfl⟩
  next => cases taken

/-- A `finish` has an answer from the step it takes effect in. -/
theorem answers_step {move : Move} (taken : e.perform hash move = some (told, after))
    {client : Occ.Client Nat Columns} {rc : RC} (found : after.clients t = some client)
    (answered : client.answered = some rc) :
    (∃ before, e.clients t = some before ∧ before.answered = some rc) ∨ Answers told t rc := by
  unfold Engine.perform at taken
  cases move with
  | begin_txn =>
    obtain ⟨s, stepped, same⟩ := Option.map_eq_some_iff.mp taken
    cases same
    have begins : Occ.Step e.protocol .begin s := stepped
    refine (Occ.answered_step begins found answered).imp_right ?_
    rintro ⟨asked, member⟩
    simp [Occ.effect] at member
  | get u key => exact .inl (answers_guarded taken (fun _ made => get_running made) found answered)
  | put u key value =>
    dsimp only at taken
    split at taken
    next => cases taken
    next => exact .inl (answers_guarded taken (fun _ made => put_running made) found answered)
  | commit u =>
    dsimp only at taken
    split at taken
    next =>
      cases taken
      exact .inl ⟨client, found, answered⟩
    next => exact answers_finishing taken found answered
  | abort_txn u =>
    dsimp only at taken
    split at taken
    next =>
      cases taken
      exact .inl ⟨client, found, answered⟩
    next => exact answers_finishing taken found answered
  | advance u => exact answers_finishing taken found answered

end Steps

/-- What a get would be answered from the rows as they are. -/
def Engine.readable (hash : Bytes → Nat) (e : Engine) (key : Bytes) : Option Bytes :=
  Db.readable hash { store := e.store, txns := fun _ => none, nextId := e.nextId } key

section Runs
variable {hash : Bytes → Nat} {init : Db} {moves : List Move} {e : Engine}

theorem Engine.next_perform {after : Engine} {move : Move} (taken : e.next hash move = some after) :
    e.perform hash move = some (e.events hash move, after) := by
  obtain ⟨⟨told, after'⟩, made, same⟩ := Option.map_eq_some_iff.mp taken
  cases same
  simp only [Engine.events, made, Option.map_some, Option.getD_some]

/-- The start follows itself. -/
theorem follows_start (sound : Sound init) (closed : ∀ t, init.txns t = none) :
    Follows init.store.rows (Engine.start init) init := by
  have idle : Occ.Idle (Engine.start init).protocol := ⟨fun _ => rfl, sound.free, sound.past⟩
  refine ⟨_, idle.explained, rfl, rfl, fun t => ?_⟩
  rw [closed t]
  rfl

theorem follows_run (sound : Sound init) (closed : ∀ t, init.txns t = none)
    (run : Run (Engine.Step hash) (fun _ _ move => move.Fits) (Engine.start init) moves e) :
    ∃ db, Run (Step hash) (Overwrites hash) init (Engine.calls hash (Engine.start init) moves) db ∧
      Follows init.store.rows e db := by
  obtain ⟨db, made, follows⟩ := Run.emits (Engine.next hash) (Engine.events hash)
    (fun _ _ _ _ _ fits follows taken => follows_step follows fits (Engine.next_perform taken))
    (follows_start sound closed) run
  exact ⟨db, made.restrict, follows⟩

/-- A row that nobody holds is the row of the whole calls. -/
theorem Follows.readable {start : Nat → Row Columns} {db : Db} (follows : Follows start e db) {key : Bytes}
    (unheld : ∀ row, e.store.indexRead (hash key) = some row → (e.store.rows row).manager.latch = none) :
    e.readable hash key = db.readable hash key := by
  obtain ⟨whole, explained, mirrors⟩ := follows
  unfold Engine.readable Db.readable
  rw [mirrors.indexRead]
  dsimp only
  cases found : e.store.indexRead (hash key) with
  | none => rfl
  | some row =>
    have same : whole.rows row = e.store.rows row := by
      rw [explained.settles.rows]
      exact Occ.settled_free (unheld row found)
    rw [mirrors.store]
    simp only [same]

theorem answers_run
    (run : Run (Engine.Step hash) (fun _ _ move => move.Fits) (Engine.start init) moves e) :
    ∀ t client rc, e.clients t = some client → client.answered = some rc →
      Answers (Engine.calls hash (Engine.start init) moves) t rc := by
  refine run.emitted_invariant (Engine.next hash) (Engine.events hash)
    (fun told e => ∀ t client rc, e.clients t = some client → client.answered = some rc → Answers told t rc) ?_ ?_
  · intro t client rc found
    cases found
  · intro _ told e move after _ held taken t client rc found answered
    rcases answers_step (Engine.next_perform taken) found answered with ⟨before, found', answered'⟩ | new
    · exact (held t before rc found' answered').imp (List.mem_append_left _) (List.mem_append_left _)
    · exact new.imp (List.mem_append_right _) (List.mem_append_right _)

end Runs

/-- From any state without open transactions, while puts only overwrite: whole calls with the same answers
explain the moves, and the committed transactions explain what is read. -/
theorem moves_explained {hash : Bytes → Nat} {file : List (Bytes × Bytes)} {before : List Event}
    {init : Db} {moves : List Move} {e : Engine} (started : Run (Step hash) Always (initial hash file) before init)
    (closed : ∀ t, init.txns t = none)
    (run : Run (Engine.Step hash) (fun _ _ move => move.Fits) (Engine.start init) moves e) :
    (∃ db, Run (Step hash) (Overwrites hash) init (Engine.calls hash (Engine.start init) moves) db) ∧
      (∀ t man rc copied installs, e.clients t = some ⟨man, .ended rc, copied, installs⟩ →
        Answers (Engine.calls hash (Engine.start init) moves) t rc) ∧
      Serial (installs (Engine.calls hash (Engine.start init) moves))
        (Explained (Engine.calls hash (Engine.start init) moves)) (init.readable hash)
        (committed (Engine.calls hash (Engine.start init) moves)) ∧
      ∀ key, 0 ∉ key →
        (∀ row, e.store.indexRead (hash key) = some row → (e.store.rows row).manager.latch = none) →
        e.readable hash key = replay (installs (Engine.calls hash (Engine.start init) moves)) (init.readable hash)
          (committed (Engine.calls hash (Engine.start init) moves)) key := by
  obtain ⟨db, made, follows⟩ := follows_run (sound_run started) closed run
  have explains := (overwritten_run (sound_run started) closed made).explains
  refine ⟨⟨db, made⟩, fun t man rc copied installs found => answers_run run t _ rc found rfl, explains.serial, ?_⟩
  intro key clean unheld
  rw [follows.readable unheld]
  exact explains.map key clean

end DataAgentDB.Kv
