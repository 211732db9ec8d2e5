import DataAgentDB.Client.Verify
import DataAgentDB.Engine.Bench
import Mathlib.Algebra.Order.BigOperators.Group.Finset

/-! The hot keys count. Whatever the interleaving of the threads, the committed value of a key is
the sum of the increments of it that the threads have counted. -/

namespace DataAgentDB.Engine
open Storage Server LabelledRun Client CommitReplay
open Kv (Db Call Answer Did Sound gets lastPut committed installs Overwrites)

/-- A count as a thread writes it. -/
def numeral (n : Nat) : Bytes := bytes (toString n)

/-- A transaction that has read a count under a key and put the next one. -/
def Increment (calls : List Kv.Event) (t : Nat) (key : Fin hotKeys) : Prop :=
  ∃ n, gets calls t = [⟨none, hotKey key, .value (numeral n)⟩] ∧
    ∀ k, lastPut calls t k = if k = hotKey key then some (numeral (n + 1)) else none

/-- What the transaction of a thread has done by a phase. -/
inductive Standing (calls : List Kv.Event) (db : Db) : Phase → Option Nat → Prop
  | start (impl : Option Nat) : Standing calls db .start impl
  | rollback (impl : Option Nat) : Standing calls db .rollback impl
  | get {t : Nat} {txn : Kv.Txn} (key : Fin hotKeys) (opened : db.txns t = some txn) (unread : txn.accesses = [])
      (silent : gets calls t = [] ∧ ∀ k, lastPut calls t k = none) : Standing calls db (.get key) (some t)
  | put {t n : Nat} (key : Fin hotKeys) (low : n ≤ threads * txnPerThread)
      (read : gets calls t = [⟨none, hotKey key, .value (numeral n)⟩]) (unput : ∀ k, lastPut calls t k = none) :
      Standing calls db (.put key n) (some t)
  | commit {t : Nat} (key : Fin hotKeys) (increment : Increment calls t key) : Standing calls db (.commit key) (some t)

/-- A store with the hot keys at zero and nobody in a transaction. -/
structure Ready (hash : Bytes → Nat) (db : Db) : Prop where
  sound : Sound db
  closed : ∀ t, db.txns t = none
  zero : ∀ key, db.readable hash (hotKey key) = some (numeral 0)

/-- The threads after the calls they have made since the keys were loaded. -/
structure Counting (hash : Bytes → Nat) (init : Db) (calls : List Kv.Event) (b : Bench) : Prop where
  owned : Owned b.host
  ran : Run (Kv.Step hash) (Overwrites hash) init calls b.db
  synced : ∀ tid, (b.threads tid).1.session.running = true → Synced (b.threads tid).1
  running : ∀ tid, (b.threads tid).2.left ≠ 0 → (b.threads tid).1.session.running = true
  balanced : ∀ tid, Balanced txnPerThread (b.threads tid).2
  standing : ∀ tid, Standing calls b.db (b.threads tid).2.phase (b.threads tid).1.session.tx.impl
  increments : ∀ t ∈ committed calls, ∃ key, Increment calls t key
  tallied : ∀ key, b.applied key = (committed calls).countP (fun t => (installs calls t (hotKey key)).isSome)

theorem hotKey_injective : ∀ i j : Fin hotKeys, hotKey i = hotKey j → i = j := by decide

theorem hotKey_fits : ∀ i : Fin hotKeys, Kv.Fits 127 (hotKey i) := by decide

theorem numeral_clean (n : Nat) : 0 ∉ numeral n := by
  intro member
  have bound := digit_of_mem member
  exact absurd bound (by decide)

theorem numeral_short {n : Nat} (low : n ≤ threads * txnPerThread + 1) : (numeral n).length ≤ 6 := by
  have small : (n : Int).natAbs < 10 ^ 5 := by
    have bound : threads * txnPerThread + 1 < 10 ^ 5 := by decide
    simpa using low.trans_lt bound
  exact length_numeral_le n small (by decide)

/-- The count after the one that is written. -/
def successor (value : Option Bytes) : Option Bytes :=
  value.map (fun text => numeral (text.foldl (fun n c => 10 * n + (c.toNat - 48)) 0 + 1))

theorem successor_numeral (n : Nat) : successor (some (numeral n)) = some (numeral (n + 1)) :=
  congrArg (fun m => some (numeral (m + 1))) (foldl_numeral n)

theorem successor_iterate (n : Nat) : successor^[n] (some (numeral 0)) = some (numeral n) := by
  induction n with
  | zero => rfl
  | succ n ih => rw [Function.iterate_succ_apply', ih, successor_numeral]

section Values
variable {hash : Bytes → Nat} {init : Db} {calls : List Kv.Event} {b : Bench}

/-- A hot key has the count of its increments. -/
theorem Counting.value (counting : Counting hash init calls b) (ready : Ready hash init) (key : Fin hotKeys) :
    b.db.readable hash (hotKey key) = some (numeral (b.applied key)) := by
  have explains := (Kv.overwritten_run ready.sound ready.closed counting.ran).explains
  have clean := (hotKey_fits key).2
  rw [explains.map _ clean, replay_iterate (installs calls) successor (hotKey key) explains.serial ?_, ready.zero,
    successor_iterate, counting.tallied]
  intro t member store value explained written
  obtain ⟨key', n, read, put⟩ := counting.increments t member
  unfold installs at written
  rw [put] at written
  split at written
  next same =>
    cases written
    have found := explained _ (by rw [read]; exact List.mem_singleton.mpr rfl) (numeral n) rfl
    rw [Option.none_or] at found
    rw [same, found, successor_numeral]
  next => cases written

/-- The threads have few iterations. -/
theorem Counting.low (counting : Counting hash init calls b) (key : Fin hotKeys) :
    b.applied key ≤ threads * txnPerThread := by
  have each : ∀ tid, (b.threads tid).2.stats.appliedIncrements key ≤ txnPerThread := by
    intro tid
    have balanced := counting.balanced tid
    have one : (b.threads tid).2.stats.appliedIncrements key ≤ (b.threads tid).2.stats.expectedTotalInc :=
      Finset.single_le_sum (fun _ _ => Nat.zero_le _) (Finset.mem_univ key)
    have ended := balanced.ended
    have retried := balanced.retried
    have applied := balanced.applied
    omega
  calc b.applied key ≤ ∑ _tid : Fin threads, txnPerThread := Finset.sum_le_sum (fun tid _ => each tid)
    _ = threads * txnPerThread := by simp

end Values

/-- What a trace and a store say of a transaction stays. -/
structure Untouched (calls calls' : List Kv.Event) (db db' : Db) (t : Nat) : Prop where
  gets : gets calls' t = gets calls t
  puts : ∀ key, lastPut calls' t key = lastPut calls t key
  txn : db'.txns t = db.txns t

section Frame
variable {hash : Bytes → Nat} {db db' : Db} {calls calls' : List Kv.Event} {made : Kv.Event} {t : Nat}

theorem untouched_refl (calls : List Kv.Event) (db : Db) (t : Nat) : Untouched calls calls db db t :=
  ⟨rfl, fun _ => rfl, rfl⟩

variable (calls) in
theorem quiet_of_target (apart : made.call.target ≠ some t) :
    made.got calls t = none ∧ ∀ key, made.puts t key = none := by
  obtain ⟨call, answer⟩ := made
  cases call with
  | get u key =>
    have other : u ≠ t := fun same => apart (congrArg some same)
    refine ⟨if_neg (fun both => other both.1), fun _ => rfl⟩
  | put u key value =>
    have other : u ≠ t := fun same => apart (congrArg some same)
    refine ⟨rfl, fun key' => ?_⟩
    unfold Kv.Event.puts
    split
    next same =>
      cases same
      exact if_neg (fun both => other both.1)
    next => rfl
  | begin_txn | commit | abort_txn => exact ⟨rfl, fun _ => rfl⟩

theorem txns_did (did : Did hash db made db') (used : t < db.nextId) (apart : made.call.target ≠ some t) :
    db'.txns t = db.txns t := by
  cases did with
  | begun => exact Function.update_of_ne used.ne _ _
  | closed | missing | getConflict | putConflict => rfl
  | getMismatch | got | putMismatch | updated | inserted | committed | failed | aborted =>
    exact Function.update_of_ne (fun same => apart (congrArg some same.symm)) _ _

theorem untouched_did (did : Did hash db made db') (used : t < db.nextId) (apart : made.call.target ≠ some t) :
    Untouched calls (calls ++ [made]) db db' t := by
  obtain ⟨got, puts⟩ := quiet_of_target calls apart
  refine ⟨?_, fun key => Kv.lastPut_silent calls (puts key), txns_did did used apart⟩
  rw [Kv.gets_snoc, got]
  exact List.append_nil _

theorem Increment.kept {key : Fin hotKeys} (increment : Increment calls t key)
    (untouched : Untouched calls calls' db db' t) : Increment calls' t key := by
  obtain ⟨n, read, put⟩ := increment
  exact ⟨n, untouched.gets.trans read, fun k => (untouched.puts k).trans (put k)⟩

theorem Standing.kept {phase : Phase} {impl : Option Nat} (standing : Standing calls db phase impl)
    (untouched : ∀ t, impl = some t → Untouched calls calls' db db' t) : Standing calls' db' phase impl := by
  cases standing with
  | start => exact .start impl
  | rollback => exact .rollback impl
  | @get t txn key opened unread silent =>
    have same := untouched t rfl
    exact .get key (same.txn.trans opened) unread
      ⟨same.gets.trans silent.1, fun k => (same.puts k).trans (silent.2 k)⟩
  | @put t n key low read unput =>
    have same := untouched t rfl
    exact .put key low (same.gets.trans read) (fun k => (same.puts k).trans (unput k))
  | @commit t key increment => exact .commit key (increment.kept (untouched t rfl))

end Frame

/-- What a thread's turn does to it and to the store. -/
structure Turned (hash : Bytes → Nat) (calls : List Kv.Event) (db : Db) (made : Option Kv.Event) (db' : Db)
    (before after : Worker) (link : Link) : Prop where
  synced : link.session.running = true → Synced link
  running : after.left ≠ 0 → link.session.running = true
  stands : Standing (calls ++ made.toList) db' after.phase link.session.tx.impl
  silent : made = none → db' = db
  overwrites : ∀ event, made = some event → Overwrites hash calls db event
  counted : (made.bind Kv.Event.commits = none ∧ after.stats.appliedIncrements = before.stats.appliedIncrements) ∨
    ∃ t key, made = some ⟨.commit t, .code .OK⟩ ∧ Increment calls t key ∧
      after.stats.appliedIncrements = Function.update before.stats.appliedIncrements key
        (before.stats.appliedIncrements key + 1)

section Turns
variable {py : Python} {hash : Bytes → Nat} {db db' : Db} {calls : List Kv.Event} {made : Option Kv.Event}
  {link link' : Link} {w : Worker} {reply : Option (List Char)}

theorem open_of_handle {t : Nat} (synced : Synced link) (handle : link.session.tx.impl = some t) :
    link.session.inTxn = true := by
  rw [synced.agrees.flag, handle]
  rfl

/-- The next transaction, or a `START` that is refused. -/
theorem turned_start (sound : Sound db) (recorded : Kv.Recorded hash calls db) (observed : Kv.Observed hash calls db)
    (synced : Synced link) (phase : w.phase = .start) (key : Fin hotKeys)
    (did : ask py hash db link cmdStart = some (made, db', reply, link')) :
    Turned hash calls db made db' w (w.proceed py key reply) link' := by
  have line : startRequest.line = cmdStart := by decide
  cases flag : link.session.inTxn with
  | false =>
    have calling : (asked link cmdStart).calling = some .start := by
      rw [← line, calling_request synced startRequest, flag]
      rfl
    obtain ⟨answer, rfl, taken, turn, impl⟩ := ask_called synced calling rfl did
    obtain ⟨r, next, told, ok, synced', -⟩ := start_told py synced flag (resultsOf answer)
    rw [told] at turn
    cases turn
    cases Kv.did_of_step sound taken with
    | closed target => cases target
    | begun =>
      have gone : w.proceed py key (some r) =
          { w with phase := .get key, stats := { w.stats with startOk := w.stats.startOk + 1 } } := by
        simp only [Worker.proceed, phase, ok, if_true]
      rw [gone]
      refine ⟨fun _ => synced', fun _ => synced'.live, ?_, fun absent => (by cases absent), ?_, .inl ⟨rfl, rfl⟩⟩
      · rw [impl]
        refine .get key (Function.update_self _ _ _) rfl ⟨?_, fun k => ?_⟩
        · change gets (calls ++ [_]) db.nextId = []
          rw [Kv.gets_snoc, observed.unseen _ le_rfl]
          rfl
        · change lastPut (calls ++ [_]) db.nextId k = none
          rw [Kv.lastPut_silent calls rfl]
          exact recorded.fresh _ le_rfl k
      · rintro event same
        cases same
        exact ⟨trivial, fun _ named => (by cases named), trivial⟩
  | true =>
    have calling : (asked link cmdStart).calling = none := by
      rw [← line, calling_request synced startRequest, flag]
      rfl
    obtain ⟨rfl, rfl, turn, impl⟩ := ask_silent synced calling did
    have answered : Command.start.answer link.session.inTxn (resultsAfter none) =
        bytes "ERR TXN_ALREADY_STARTED" ++ [10] := by rw [flag]; rfl
    obtain ⟨next, told, synced', -⟩ :=
      request_command py synced startRequest (resultsAfter none) answered (by decide)
    rw [line] at told
    rw [told] at turn
    cases turn
    have refused : isOk (py.decode (bytes "ERR TXN_ALREADY_STARTED")) = false := by
      rw [decode_bytes py _ (by decide)]
      decide
    have gone : w.proceed py key (some (py.decode (bytes "ERR TXN_ALREADY_STARTED"))) =
        w.next { w.stats with startFail := w.stats.startFail + 1 }.abandon := by
      simp only [Worker.proceed, phase, refused, Bool.false_eq_true, if_false]
    rw [gone]
    exact ⟨fun _ => synced', fun _ => synced'.live, .start _, fun _ => rfl, fun event same => (by cases same), .inl ⟨rfl, rfl⟩⟩

/-- An abandoned transaction: the server does not know `ROLLBACK`. -/
theorem turned_rollback (synced : Synced link) (phase : w.phase = .rollback) (key : Fin hotKeys)
    (did : ask py hash db link cmdRollback = some (made, db', reply, link')) :
    Turned hash calls db made db' w (w.proceed py key reply) link' := by
  obtain ⟨rfl, rfl, turn, impl⟩ := ask_silent synced (calling_rollback synced) did
  obtain ⟨r, next, told, synced', -⟩ := rollback_told py synced (resultsAfter none)
  rw [told] at turn
  cases turn
  have gone : w.proceed py key (some r) = w.next (w.stats.rolledBack (isOk r)).abandon := by
    simp only [Worker.proceed, phase]
  have same : (w.stats.rolledBack (isOk r)).appliedIncrements = w.stats.appliedIncrements := by
    unfold Stats.rolledBack
    split <;> rfl
  rw [gone]
  exact ⟨fun _ => synced', fun _ => synced'.live, .start _, fun _ => rfl, fun event same => (by cases same), .inl ⟨rfl, same⟩⟩

/-- The count of a key is read, or the transaction abandoned. -/
theorem turned_get (sound : Sound db) (synced : Synced link) {t : Nat} {txn : Kv.Txn} {key : Fin hotKeys} {n : Nat}
    (phase : w.phase = .get key) (handle : link.session.tx.impl = some t) (opened : db.txns t = some txn)
    (unread : txn.accesses = []) (silent : gets calls t = [] ∧ ∀ k, lastPut calls t k = none)
    (value : db.readable hash (hotKey key) = some (numeral n)) (low : n ≤ threads * txnPerThread) (drawn : Fin hotKeys)
    (did : ask py hash db link (cmdGet (hotKey key)) = some (made, db', reply, link')) :
    Turned hash calls db made db' w (w.proceed py drawn reply) link' := by
  have flag := open_of_handle synced handle
  have calling : (asked link (cmdGet (hotKey key))).calling = some (.get (hotKey key)) := by
    rw [← getRequest_line, calling_request synced (getRequest key), flag]
    rfl
  have on : callOn link.session.tx.impl (.get (hotKey key)) = some (.get t (hotKey key)) := by rw [handle]; rfl
  obtain ⟨answer, rfl, taken, turn, impl⟩ := ask_called synced calling on did
  rw [handle] at impl
  have overwrites : Overwrites hash calls db ⟨.get t (hotKey key), answer⟩ := by
    refine ⟨trivial, fun k named => ?_, trivial⟩
    cases named
    exact (hotKey_fits key).2
  -- every answer but the value makes the thread give up
  have missed : answer = .code .NOT_FOUND → Turned hash calls db (some ⟨.get t (hotKey key), answer⟩) db' w
      (w.proceed py drawn reply) link' := by
    rintro rfl
    obtain ⟨r, next, told, synced', -, -, parsed⟩ :=
      get_told py synced flag key (resultsOf (.code .NOT_FOUND)) (by decide)
    rw [told] at turn
    cases turn
    have failed : parseIntFromResp py r = none := parsed
    have gone : w.proceed py drawn (some r) =
        { w with phase := .rollback, stats := { w.stats with getFail := w.stats.getFail + 1 } } := by
      simp only [Worker.proceed, phase, failed]
    rw [gone]
    refine ⟨fun _ => synced', fun _ => synced'.live, .rollback _, fun absent => (by cases absent), ?_, .inl ⟨rfl, rfl⟩⟩
    rintro event same
    cases same
    exact overwrites
  cases Kv.did_of_step sound taken with
  | closed target closed =>
    cases target
    rw [opened] at closed
    cases closed
  | missing | getConflict | getMismatch => exact missed rfl
  | @got _ _ txn' _ row kind copy opened' found live fetched same =>
    rw [opened] at opened'
    cases opened'
    obtain ⟨current, -, -⟩ := fetched.first (by simp [unread])
    have shown : copy.value = numeral n := by
      unfold Kv.Db.readable at value
      rw [found] at value
      dsimp only at value
      rw [← current, if_pos ⟨live, same⟩] at value
      exact Option.some.inj value
    rw [shown] at taken turn overwrites ⊢
    obtain ⟨r, next, told, synced', -, -, parsed⟩ :=
      get_told py synced flag key (resultsOf (.value (numeral n))) (newline_not_digits n)
    rw [told] at turn
    cases turn
    have read : parseIntFromResp py r = some (n : Int) := parsed.trans (parseIntFromResp_value py n)
    have gone : w.proceed py drawn (some r) =
        { w with phase := .put key n, stats := { w.stats with getOk := w.stats.getOk + 1 } } := by
      simp only [Worker.proceed, phase, read]
    rw [gone]
    refine ⟨fun _ => synced', fun _ => synced'.live, ?_, fun absent => (by cases absent), ?_, .inl ⟨rfl, rfl⟩⟩
    · rw [impl]
      refine .put key low ?_ (fun k => ?_)
      · change gets (calls ++ [_]) t = _
        rw [Kv.gets_snoc, silent.1]
        simp [Kv.Event.got, silent.2]
      · change lastPut (calls ++ [_]) t k = none
        rw [Kv.lastPut_silent calls rfl]
        exact silent.2 k
    · rintro event same
      cases same
      exact overwrites

/-- The next count is put, or the transaction abandoned. -/
theorem turned_put (sound : Sound db) (synced : Synced link) {t n : Nat} {key : Fin hotKeys}
    (phase : w.phase = .put key n) (handle : link.session.tx.impl = some t) (low : n ≤ threads * txnPerThread)
    (read : gets calls t = [⟨none, hotKey key, .value (numeral n)⟩]) (unput : ∀ k, lastPut calls t k = none)
    (present : (db.store.indexRead (hash (hotKey key))).isSome = true) (drawn : Fin hotKeys)
    (did : ask py hash db link (cmdPut (hotKey key) (numeral (n + 1))) = some (made, db', reply, link')) :
    Turned hash calls db made db' w (w.proceed py drawn reply) link' := by
  have flag := open_of_handle synced handle
  have small := numeral_short (n := n + 1) (Nat.succ_le_succ low)
  have short : (bytes (toString ((n + 1 : Nat) : Int))).length ≤ 2000 := small.trans (by decide)
  have line : (putRequest key ((n + 1 : Nat) : Int) short).line = cmdPut (hotKey key) (numeral (n + 1)) :=
    putRequest_line key _ short
  have calling : (asked link (cmdPut (hotKey key) (numeral (n + 1)))).calling =
      some (.put (hotKey key) (numeral (n + 1))) := by
    rw [← line, calling_request synced, flag]
    rfl
  have on : callOn link.session.tx.impl (.put (hotKey key) (numeral (n + 1))) =
      some (.put t (hotKey key) (numeral (n + 1))) := by rw [handle]; rfl
  obtain ⟨answer, rfl, taken, turn, impl⟩ := ask_called synced calling on did
  rw [handle] at impl
  obtain ⟨r, next, told, synced', -, -, ok⟩ := put_told py synced flag key _ short (resultsOf answer)
  change link.request py (cmdPut (hotKey key) (numeral (n + 1))) (resultsOf answer) = _ at told
  rw [told] at turn
  cases turn
  have overwrites : ∀ event, some (⟨.put t (hotKey key) (numeral (n + 1)), answer⟩ : Kv.Event) = some event →
      Overwrites hash calls db event := by
    rintro event same
    cases same
    refine ⟨⟨hotKey_fits key, small.trans (by decide), numeral_clean _⟩, fun k named => ?_, present⟩
    cases named
    exact (hotKey_fits key).2
  have failed : (resultsOf answer).write ≠ .RCOK →
      Turned hash calls db (some ⟨.put t (hotKey key) (numeral (n + 1)), answer⟩) db' w
        (w.proceed py drawn (some r)) link' := by
    intro refused
    rw [decide_eq_false refused] at ok
    have gone : w.proceed py drawn (some r) =
        { w with phase := .rollback, stats := { w.stats with putFail := w.stats.putFail + 1 } } := by
      simp only [Worker.proceed, phase, ok, Bool.false_eq_true, if_false]
    rw [gone]
    exact ⟨fun _ => synced', fun _ => synced'.live, .rollback _, fun absent => (by cases absent), overwrites, .inl ⟨rfl, rfl⟩⟩
  cases Kv.did_of_step sound taken with
  | closed | putConflict | putMismatch => exact failed (by decide)
  | inserted _ absent =>
    rw [absent] at present
    cases present
  | updated =>
    have accepted : isOk r = true := ok.trans rfl
    have gone : w.proceed py drawn (some r) =
        { w with phase := .commit key, stats := { w.stats with putOk := w.stats.putOk + 1 } } := by
      simp only [Worker.proceed, phase, accepted, if_true]
    rw [gone]
    refine ⟨fun _ => synced', fun _ => synced'.live, ?_, fun absent => (by cases absent), overwrites, .inl ⟨rfl, rfl⟩⟩
    rw [impl]
    refine .commit key ⟨n, ?_, fun k => ?_⟩
    · change gets (calls ++ [_]) t = _
      rw [Kv.gets_snoc, read]
      rfl
    · change lastPut (calls ++ [_]) t k = _
      rw [Kv.lastPut_put, unput]
      simp only [true_and]

variable (py) in
/-- The reply to a commit. -/
theorem commit_reply (synced : Synced link) (flag : link.session.inTxn = true) (results : Results) :
    ∃ r next, link.request py cmdCommit results = (some r, next) ∧ Synced next ∧
      isOk r = decide (Rc.ofFinish results.finish = .OK) := by
  have line : commitRequest.line = cmdCommit := by decide
  rw [← line]
  by_cases fine : results.finish = .RCOK ∨ results.finish = .Commit
  · have answered : Command.commit.answer link.session.inTxn results = bytes "OK COMMIT" ++ [10] := by
      simp only [Command.answer, flag, if_pos fine, if_true]
      rfl
    obtain ⟨next, told, synced', -⟩ := request_command py synced commitRequest results answered (by decide)
    refine ⟨_, next, told, synced', ?_⟩
    rw [Rc.ofFinish, if_pos fine, decode_bytes py _ (by decide)]
    rfl
  · have answered : Command.commit.answer link.session.inTxn results = bytes "ERR ABORT" ++ [10] := by
      simp only [Command.answer, flag, if_neg fine, if_true]
      rfl
    obtain ⟨next, told, synced', -⟩ := request_command py synced commitRequest results answered (by decide)
    refine ⟨_, next, told, synced', ?_⟩
    rw [Rc.ofFinish, if_neg fine, decode_bytes py _ (by decide)]
    decide

/-- The increment is committed and counted, or neither. -/
theorem turned_commit (sound : Sound db) (synced : Synced link) {t : Nat} {key : Fin hotKeys}
    (phase : w.phase = .commit key) (handle : link.session.tx.impl = some t) (increment : Increment calls t key)
    (drawn : Fin hotKeys) (did : ask py hash db link cmdCommit = some (made, db', reply, link')) :
    Turned hash calls db made db' w (w.proceed py drawn reply) link' := by
  have flag := open_of_handle synced handle
  have line : commitRequest.line = cmdCommit := by decide
  have calling : (asked link cmdCommit).calling = some .commit := by
    rw [← line, calling_request synced commitRequest, flag]
    rfl
  have on : callOn link.session.tx.impl .commit = some (.commit t) := by rw [handle]; rfl
  obtain ⟨answer, rfl, taken, turn, impl⟩ := ask_called synced calling on did
  obtain ⟨r, next, told, synced', ok⟩ := commit_reply py synced flag (resultsOf answer)
  rw [told] at turn
  cases turn
  have overwrites : ∀ event, some (⟨.commit t, answer⟩ : Kv.Event) = some event → Overwrites hash calls db event := by
    rintro event same
    cases same
    exact ⟨trivial, fun _ named => (by cases named), trivial⟩
  have failed : Rc.ofFinish (resultsOf answer).finish ≠ .OK → Kv.Event.commits ⟨.commit t, answer⟩ = none →
      Turned hash calls db (some ⟨.commit t, answer⟩) db' w (w.proceed py drawn (some r)) link' := by
    intro refused quiet
    rw [decide_eq_false refused] at ok
    have gone : w.proceed py drawn (some r) =
        w.next ({ w.stats with commitFail := w.stats.commitFail + 1 }.fail.finish false) := by
      simp only [Worker.proceed, phase, ok, Bool.false_eq_true, if_false]
    rw [gone]
    exact ⟨fun _ => synced', fun _ => synced'.live, .start _, fun absent => (by cases absent), overwrites, .inl ⟨quiet, rfl⟩⟩
  cases Kv.did_of_step sound taken with
  | closed | failed => exact failed (by decide) rfl
  | committed =>
    have accepted : isOk r = true := ok.trans rfl
    have gone : w.proceed py drawn (some r) =
        w.next ({ w.stats with commitOk := w.stats.commitOk + 1, txnSuccess := w.stats.txnSuccess + 1,
                               appliedIncrements := Function.update w.stats.appliedIncrements key
                                 (w.stats.appliedIncrements key + 1) }.finish true) := by
      simp only [Worker.proceed, phase, accepted, if_true]
    rw [gone]
    exact ⟨fun _ => synced', fun _ => synced'.live, .start _, fun absent => (by cases absent), overwrites,
      .inr ⟨t, key, rfl, increment, rfl⟩⟩

end Turns

theorem applied_update (b : Bench) (db : Db) (tid : Fin threads) (link : Link) (w : Worker) (key : Fin hotKeys) :
    ({ db := db, threads := Function.update b.threads tid (link, w) } : Bench).applied key =
      ∑ other, Function.update (fun other => (b.threads other).2.stats.appliedIncrements key) tid
        (w.stats.appliedIncrements key) other := by
  refine Finset.sum_congr rfl (fun other _ => ?_)
  by_cases same : other = tid
  · subst same
    simp
  · simp [Function.update_of_ne same]

theorem applied_same (b : Bench) (tid : Fin threads) (key : Fin hotKeys) :
    ∑ other, Function.update (fun other => (b.threads other).2.stats.appliedIncrements key) tid
      ((b.threads tid).2.stats.appliedIncrements key) other = b.applied key := by
  have same := Function.update_eq_self tid (fun other => (b.threads other).2.stats.appliedIncrements key)
  exact Finset.sum_congr rfl (fun other _ => congrFun same other)

theorem applied_succ (b : Bench) (tid : Fin threads) (key : Fin hotKeys) :
    ∑ other, Function.update (fun other => (b.threads other).2.stats.appliedIncrements key) tid
      ((b.threads tid).2.stats.appliedIncrements key + 1) other = b.applied key + 1 :=
  sum_update_succ (fun other => (b.threads other).2.stats.appliedIncrements key) tid

section Steps
variable {py : Python} {hash : Bytes → Nat} {init : Db} {calls : List Kv.Event} {b next : Bench}

/-- A commit is no part of what it commits. -/
theorem Increment.committed {t u : Nat} {key : Fin hotKeys} (answer : Answer) (increment : Increment calls t key) :
    Increment (calls ++ [⟨.commit u, answer⟩]) t key := by
  obtain ⟨n, read, put⟩ := increment
  refine ⟨n, ?_, fun k => (Kv.lastPut_silent calls rfl).trans (put k)⟩
  rw [Kv.gets_snoc, read]
  rfl

theorem installs_increment {t : Nat} {key : Fin hotKeys} (increment : Increment calls t key) (other : Fin hotKeys) :
    (installs calls t (hotKey other)).isSome = decide (other = key) := by
  obtain ⟨n, -, put⟩ := increment
  unfold installs
  rw [put]
  by_cases same : other = key
  · simp [same]
  · have apart : hotKey other ≠ hotKey key := fun equal => same (hotKey_injective other key equal)
    simp [same, apart]

/-- One thread's turn. -/
theorem Counting.turn (counting : Counting hash init calls b) (ready : Ready hash init) {tid : Fin threads}
    {made : Option Kv.Event} {h : Host} {db : Db} {link : Link} {w : Worker} (there : h.db = b.db)
    (handle : ∀ s, h.sessions tid = some s → s.tx.impl = (b.threads tid).1.session.tx.impl)
    (took : Took hash h (.serve tid made) ({ b.host with db := db }.setSession tid link.session))
    (owned : Owned ({ b.host with db := db }.setSession tid link.session))
    (turned : Turned hash calls b.db made db (b.threads tid).2 w link) (balanced : Balanced txnPerThread w) :
    Counting hash init (calls ++ made.toList)
      { db := db, threads := Function.update b.threads tid (link, w) } := by
  have overwritten := Kv.overwritten_run ready.sound ready.closed counting.ran
  have ended := overwritten.explains.ended
  -- nobody else's transaction is touched
  have untouched : ∀ t, t < b.db.nextId → (b.threads tid).1.session.tx.impl ≠ some t →
      Untouched calls (calls ++ made.toList) b.db db t := by
    intro t used other
    cases made with
    | none =>
      rw [turned.silent rfl, Option.toList_none, List.append_nil]
      exact untouched_refl calls b.db t
    | some made =>
      obtain ⟨taken, target⟩ := took_made took
      rw [there] at taken
      refine untouched_did (Kv.did_of_step overwritten.sound taken) used (fun same => ?_)
      obtain ⟨s, found, mine⟩ := target t same
      exact other ((handle s found).symm.trans mine)
  have foreign : ∀ other, other ≠ tid → ∀ t, (b.threads other).1.session.tx.impl = some t →
      Untouched calls (calls ++ made.toList) b.db db t := by
    intro other apart t theirs
    obtain ⟨txn, opened⟩ := Option.isSome_iff_exists.mp
      (counting.owned.opened other _ t (host_session b other) theirs)
    refine untouched t (overwritten.sound.opened t txn opened).1 (fun mine => apart (Fin.ext ?_))
    exact counting.owned.apart other tid _ _ t (host_session b other) (host_session b tid) theirs mine
  have past : ∀ t ∈ committed calls, Untouched calls (calls ++ made.toList) b.db db t := by
    intro t member
    obtain ⟨closed, used⟩ := ended t member
    refine untouched t used (fun mine => ?_)
    have open_ := counting.owned.opened tid _ t (host_session b tid) mine
    rw [show b.host.db = b.db from rfl, closed] at open_
    cases open_
  have count : ∀ key, (committed calls).countP (fun t => (installs (calls ++ made.toList) t (hotKey key)).isSome) =
      (committed calls).countP (fun t => (installs calls t (hotKey key)).isSome) := by
    intro key
    refine List.countP_congr (fun t member => ?_)
    rw [installs, installs, (past t member).puts]
  refine ⟨?_, ?_, ?_, ?_, ?_, ?_, ?_, ?_⟩
  · rw [host_update]
    exact owned
  · cases made with
    | none =>
      rw [Option.toList_none, List.append_nil, turned.silent rfl]
      exact counting.ran
    | some made =>
      have taken := (took_made took).1
      rw [there] at taken
      exact .snoc counting.ran (turned.overwrites made rfl) taken
  · intro other
    by_cases same : other = tid
    · subst same
      simpa using turned.synced
    · simpa [Function.update_of_ne same] using counting.synced other
  · intro other
    by_cases same : other = tid
    · subst same
      simpa using turned.running
    · simpa [Function.update_of_ne same] using counting.running other
  · intro other
    by_cases same : other = tid
    · subst same
      simpa using balanced
    · simpa [Function.update_of_ne same] using counting.balanced other
  · intro other
    by_cases same : other = tid
    · subst same
      simpa using turned.stands
    · simpa [Function.update_of_ne same] using (counting.standing other).kept (foreign other same)
  · intro t member
    have old : t ∈ committed calls → ∃ key, Increment (calls ++ made.toList) t key := by
      intro before
      obtain ⟨key, increment⟩ := counting.increments t before
      exact ⟨key, increment.kept (past t before)⟩
    cases made with
    | none => exact old (by simpa using member)
    | some made =>
      rw [Option.toList_some, Kv.committed_snoc, List.mem_append] at member
      rcases member with before | new
      · exact old before
      · rcases turned.counted with ⟨quiet, -⟩ | ⟨u, key, same, increment, -⟩
        · change made.commits = none at quiet
          rw [quiet] at new
          cases new
        · cases same
          cases List.mem_singleton.mp new
          exact ⟨key, increment.committed _⟩
  · intro key
    rw [applied_update]
    rcases turned.counted with ⟨quiet, same⟩ | ⟨u, drawn, rfl, increment, raised⟩
    · have list : committed (calls ++ made.toList) = committed calls := by
        cases made with
        | none => simp
        | some made =>
          change made.commits = none at quiet
          rw [Option.toList_some, Kv.committed_snoc, quiet]
          exact List.append_nil _
      rw [list, count, ← counting.tallied, same, applied_same]
    · rw [Option.toList_some, Kv.committed_snoc, List.countP_append, ← Option.toList_some, count,
        ← counting.tallied, raised]
      have last : ([u].countP fun t => (installs (calls ++ [⟨.commit u, .code .OK⟩]) t (hotKey key)).isSome) =
          if key = drawn then 1 else 0 := by
        rw [List.countP_singleton, installs_increment (increment.committed _)]
        simp
      refine Eq.trans ?_ (congrArg _ last.symm)
      by_cases same : key = drawn
      · subst same
        rw [Function.update_self, if_pos rfl]
        exact applied_succ b tid key
      · rw [Function.update_of_ne same, if_neg same, applied_same]
        exact (Nat.add_zero _).symm

/-- A turn that is a request. -/
theorem counting_request (counting : Counting hash init calls b) (ready : Ready hash init) {tid : Fin threads}
    {key : Fin hotKeys} {made : Option Kv.Event} (taken : Bench.Step py hash b (.request tid key made) next) :
    Counting hash init (calls ++ made.toList) next := by
  unfold Bench.Step Bench.next at taken
  dsimp only at taken
  split at taken
  next => cases taken
  next more =>
    split at taken
    next => cases taken
    next made' db reply link did =>
      split at taken
      next same =>
        cases taken
        subst same
        have overwritten := Kv.overwritten_run ready.sound ready.closed counting.ran
        have live := counting.running tid more
        have synced := counting.synced tid live
        have found := host_session b tid
        have turn : Worker.Turn py (b.threads tid).2 (key, reply) ((b.threads tid).2.proceed py key reply) :=
          if_neg more
        have balanced := balanced_turn (counting.balanced tid) turn
        have turned : Turned hash calls b.db made' db (b.threads tid).2 ((b.threads tid).2.proceed py key reply)
            link := by
          have standing := counting.standing tid
          generalize handle : (b.threads tid).1.session.tx.impl = impl at standing
          cases phase : (b.threads tid).2.phase with
          | start =>
            rw [phase] at did
            exact turned_start overwritten.sound overwritten.recorded overwritten.observed synced phase key did
          | get drawn =>
            rw [phase] at did standing
            cases standing with
            | get _ opened unread silent =>
              exact turned_get overwritten.sound synced phase handle opened unread silent (counting.value ready drawn)
                (counting.low drawn) key did
          | put drawn cur =>
            rw [phase] at did standing
            cases standing with
            | put _ low read unput =>
              have present : (b.db.store.indexRead (hash (hotKey drawn))).isSome = true := by
                have value := counting.value ready drawn
                unfold Kv.Db.readable at value
                cases there : b.db.store.indexRead (hash (hotKey drawn)) with
                | none => rw [there] at value; cases value
                | some => rfl
              exact turned_put overwritten.sound synced phase handle low read unput present key did
          | commit drawn =>
            rw [phase] at did standing
            cases standing with
            | commit _ increment => exact turned_commit overwritten.sound synced phase handle increment key did
          | rollback =>
            rw [phase] at did
            exact turned_rollback synced phase key did
          | recover =>
            rw [phase] at standing
            cases standing
        refine counting.turn ready (h := b.host.setSession tid (asked (b.threads tid).1 (b.threads tid).2.phase.request))
          rfl ?_ (took_ask live did) (owned_ask counting.owned found live did) turned balanced
        intro s here
        cases (Function.update_self _ _ _).symm.trans here
        rfl
      next => cases taken

/-- What the server makes of a connection that is closed. -/
theorem hung_up {db db' : Db} {s s' : Session} {made : Option Kv.Event} (empty : s.input = [])
    (did : Host.serve hash db s = some (made, db', s')) :
    s'.running = false ∧ ∀ event, made = some event → ∃ t, event.call = .abort_txn t := by
  have ends : ∀ results, (s.iterate results).running = false := by
    intro results
    unfold Session.iterate
    rw [empty]
    rfl
  have calling : s.calling = if s.inTxn then some .abort else none := by
    unfold Session.calling
    rw [empty]
    rfl
  unfold Host.serve at did
  split at did
  next => cases did; exact ⟨ends _, fun event same => (by cases same)⟩
  next call calls =>
    split at did
    next => cases did
    next answer _ _ =>
      cases did
      refine ⟨ends _, ?_⟩
      rintro event same
      cases same
      have command := (calling_of_call calls).1
      rw [calling] at command
      split at command
      next =>
        cases call with
        | abort_txn t => exact ⟨t, rfl⟩
        | begin_txn | get | put | commit => cases command
      next => cases command

/-- A thread whose loop is over hangs up; the server drops what it left open. -/
theorem counting_close (counting : Counting hash init calls b) (ready : Ready hash init) {tid : Fin threads}
    {made : Option Kv.Event} (taken : Bench.Step py hash b (.close tid made) next) :
    Counting hash init (calls ++ made.toList) next := by
  unfold Bench.Step Bench.next at taken
  dsimp only at taken
  split at taken
  next done =>
    split at taken
    next => cases taken
    next made' db session did =>
      split at taken
      next same =>
        cases taken
        subst same
        obtain ⟨ended, live⟩ := done
        have synced := counting.synced tid live
        have found := host_session b tid
        have balanced := counting.balanced tid
        have took := took_serve found live did
        have idle : (b.threads tid).2.phase = .start := by
          have inside := balanced.inside
          cases phase : (b.threads tid).2.phase with
          | start => rfl
          | _ =>
            rw [phase, ended] at inside
            cases inside
        have turned : Turned hash calls b.db made' db (b.threads tid).2 (b.threads tid).2
            { (b.threads tid).1 with session := session } := by
          obtain ⟨stopped, quiet⟩ := hung_up synced.input did
          refine ⟨fun running => absurd (stopped.symm.trans running) nofun, fun more => absurd ended more, ?_, ?_, ?_,
            .inl ⟨?_, rfl⟩⟩
          · rw [idle]
            exact .start _
          · rintro rfl
            exact took_silent took
          · rintro event rfl
            obtain ⟨t, drops⟩ := quiet event rfl
            obtain ⟨call, answer⟩ := event
            cases drops
            exact ⟨trivial, fun _ named => (by cases named), trivial⟩
          · cases made' with
            | none => rfl
            | some event =>
              obtain ⟨t, drops⟩ := quiet event rfl
              obtain ⟨call, answer⟩ := event
              cases drops
              rfl
        exact counting.turn ready (h := b.host) rfl (fun s here => by rw [found] at here; cases here; rfl) took
          (owned_took counting.owned took) turned balanced
      next => cases taken
  next => cases taken

theorem counting_begin (py : Python) (ready : Ready hash init) : Counting hash init [] (Bench.begin py init) := by
  have synced := connect_synced py
  have free : (connect py).session.tx.impl = none := synced.agrees.no_handle (connect_closed py)
  have idle : ∀ fd s, (Bench.begin py init).host.sessions fd = some s → s = (connect py).session := by
    intro fd s found
    unfold Bench.host at found
    dsimp only at found
    split at found
    next => cases found; rfl
    next => cases found
  refine ⟨⟨ready.sound, ?_, ?_, ?_, ?_⟩, .nil, fun _ _ => synced, fun _ _ => synced.live, fun _ => balanced_begin _,
    fun _ => .start _, fun _ member => (List.not_mem_nil member).elim, fun key => ?_⟩
  · intro fd s found
    rw [idle fd s found]
    exact synced.agrees
  · intro fd s t found handle
    rw [idle fd s found, free] at handle
    cases handle
  · intro t opened
    rw [show (Bench.begin py init).host.db = init from rfl, ready.closed t] at opened
    cases opened
  · intro fd fd' s s' t found found' handle
    rw [idle fd s found, free] at handle
    cases handle
  · exact Finset.sum_eq_zero (fun _ _ => rfl)

theorem counting_run (ready : Ready hash init) {trace : List Bench.Event}
    (run : Run (Bench.Step py hash) Always (Bench.begin py init) trace b) :
    Counting hash init (Bench.calls trace) b := by
  refine run.invariant (fun trace b => Counting hash init (Bench.calls trace) b) (counting_begin py ready) ?_
  intro trace b event next counting _ taken
  rw [Bench.calls, List.flatMap_append, List.flatMap_singleton]
  cases event with
  | request tid key made => exact counting_request counting ready taken
  | close tid made => exact counting_close counting ready taken

end Steps

/-- The one client, inside its transaction. -/
structure Loading (hash : Bytes → Nat) (file : List (Bytes × Bytes)) (calls : List Kv.Event) (db : Db) (link : Link)
    (t : Nat) : Prop where
  ran : Run (Kv.Step hash) (fun _ _ event => Kv.StringsFit event) (Kv.initial hash file) calls db
  synced : Synced link
  handle : link.session.tx.impl = some t
  alone : ∀ u, (db.txns u).isSome = true → u = t

section Load
variable {py : Python} {hash : Bytes → Nat} {file : List (Bytes × Bytes)} {calls : List Kv.Event} {db db' : Db}
  {link link' : Link} {t : Nat}

theorem loaded_ask {cmd : Bytes} (loaded : preloadAsk py hash (db, link) cmd = some (db', link')) :
    ∃ made r, ask py hash db link cmd = some (made, db', some r, link') ∧ isOk r = true := by
  unfold preloadAsk at loaded
  split at loaded
  next made db₁ r link₁ did =>
    split at loaded
    next ok => cases loaded; exact ⟨made, r, did, ok⟩
    next => cases loaded
  next => cases loaded

theorem loading_start (loaded : preloadAsk py hash (Kv.initial hash file, connect py) cmdStart = some (db, link)) :
    Loading hash file [⟨.begin_txn, .begun 1⟩] db link 1 := by
  obtain ⟨made, r, did, -⟩ := loaded_ask loaded
  have synced := connect_synced py
  have flag := connect_closed py
  have sound := Kv.initial_sound hash file
  have line : startRequest.line = cmdStart := by decide
  have calling : (asked (connect py) cmdStart).calling = some .start := by
    rw [← line, calling_request synced startRequest, flag]
    rfl
  obtain ⟨answer, rfl, taken, turn, impl⟩ := ask_called synced calling rfl did
  obtain ⟨_, next, told, -, synced', -⟩ := start_told py synced flag (resultsOf answer)
  rw [told] at turn
  cases turn
  have done := Kv.did_of_step sound taken
  have opened := opened_did done
  cases done with
  | closed target => cases target
  | begun =>
    refine ⟨.snoc .nil trivial taken, synced', impl, fun u there => ?_⟩
    rw [opened] at there
    have only : (decide (u = 1) || false) = true := there
    rw [Bool.or_false] at only
    exact of_decide_eq_true only

theorem loading_put (loading : Loading hash file calls db link t) (key : Fin hotKeys)
    (loaded : preloadAsk py hash (db, link) (cmdPut (hotKey key) (numeral 0)) = some (db', link')) :
    Loading hash file (calls ++ [⟨.put t (hotKey key) (numeral 0), .code .OK⟩]) db' link' t := by
  obtain ⟨made, r, did, ok⟩ := loaded_ask loaded
  obtain ⟨sound, _⟩ := Kv.recorded_run (fun _ _ _ fits => fits) loading.ran
  have synced := loading.synced
  have flag := open_of_handle synced loading.handle
  have short : (bytes (toString (0 : Int))).length ≤ 2000 := by decide
  have calling : (asked link (cmdPut (hotKey key) (numeral 0))).calling = some (.put (hotKey key) (numeral 0)) := by
    have line : (putRequest key 0 short).line = cmdPut (hotKey key) (numeral 0) := putRequest_line key 0 short
    rw [← line, calling_request synced, flag]
    rfl
  have on : callOn link.session.tx.impl (.put (hotKey key) (numeral 0)) = some (.put t (hotKey key) (numeral 0)) := by
    rw [loading.handle]
    rfl
  obtain ⟨answer, rfl, taken, turn, impl⟩ := ask_called synced calling on did
  obtain ⟨_, next, told, synced', -, -, accepted⟩ := put_told py synced flag key 0 short (resultsOf answer)
  change link.request py (cmdPut (hotKey key) (numeral 0)) (resultsOf answer) = _ at told
  rw [told] at turn
  cases turn
  rw [ok] at accepted
  have fine := of_decide_eq_true accepted.symm
  have done := Kv.did_of_step sound taken
  have opened := opened_did done
  have fits : Kv.StringsFit ⟨.put t (hotKey key) (numeral 0), answer⟩ :=
    ⟨hotKey_fits key, by decide, numeral_clean 0⟩
  have same : answer = .code .OK := by
    cases done with
    | updated | inserted => rfl
    | closed | putConflict | putMismatch => exact absurd fine (by decide)
  subst same
  exact ⟨.snoc loading.ran fits taken, synced', impl.trans loading.handle,
    fun u there => loading.alone u ((opened u).symm.trans there)⟩

/-- After the commit every key put is at zero. -/
theorem loading_commit (loading : Loading hash file calls db link t)
    (loaded : preloadAsk py hash (db, link) cmdCommit = some (db', link'))
    (put : ∀ key, lastPut calls t (hotKey key) = some (numeral 0)) : Ready hash db' := by
  obtain ⟨made, r, did, ok⟩ := loaded_ask loaded
  obtain ⟨sound, recorded⟩ := Kv.recorded_run (fun _ _ _ fits => fits) loading.ran
  have synced := loading.synced
  have flag := open_of_handle synced loading.handle
  have line : commitRequest.line = cmdCommit := by decide
  have calling : (asked link cmdCommit).calling = some .commit := by
    rw [← line, calling_request synced commitRequest, flag]
    rfl
  have on : callOn link.session.tx.impl .commit = some (.commit t) := by rw [loading.handle]; rfl
  obtain ⟨answer, rfl, taken, turn, -⟩ := ask_called synced calling on did
  obtain ⟨_, next, told, -, accepted⟩ := commit_reply py synced flag (resultsOf answer)
  rw [told] at turn
  cases turn
  rw [ok] at accepted
  have fine := of_decide_eq_true accepted.symm
  have done := Kv.did_of_step sound taken
  have opened := opened_did done
  have same : answer = .code .OK := by
    cases done with
    | committed => rfl
    | closed | failed => exact absurd fine (by decide)
  subst same
  refine ⟨Kv.sound_did sound done, fun u => ?_, fun key => ?_⟩
  · have after := opened u
    cases there : (db.txns u).isSome with
    | false => simpa [openAfter, there] using after
    | true => simpa [openAfter, loading.alone u there] using after
  · obtain ⟨row, head, live, data, -⟩ := (Kv.held_commit sound recorded (put key) done).1
    unfold Kv.Db.readable
    rw [head]
    dsimp only
    rw [data, if_pos ⟨live, (Kv.cStr_of_no_nul (hotKey_fits key).2).symm⟩]

theorem loading_puts (keys : List (Fin hotKeys)) (loading : Loading hash file calls db link t)
    (loaded : (keys.map (fun k => cmdPut (hotKey k) (numeral 0))).foldlM (preloadAsk py hash) (db, link) =
      some (db', link')) :
    Loading hash file (calls ++ keys.map (fun k => ⟨.put t (hotKey k) (numeral 0), .code .OK⟩)) db' link' t := by
  induction keys generalizing calls db link with
  | nil =>
    cases loaded
    rw [List.map_nil, List.append_nil]
    exact loading
  | cons key keys ih =>
    rw [List.map_cons, List.foldlM_cons] at loaded
    obtain ⟨⟨middle, link₁⟩, first, rest⟩ := Option.bind_eq_some_iff.mp loaded
    rw [List.map_cons, List.append_cons]
    exact ih (loading_put loading key first) rest

/-- Where `preload_keys` succeeds the threads find every hot key at zero. -/
theorem ready_preloadKeys (loaded : preloadKeys py hash (Kv.initial hash file) = some db) : Ready hash db := by
  unfold preloadKeys at loaded
  obtain ⟨⟨db₁, link₁⟩, asks, rfl⟩ := Option.map_eq_some_iff.mp loaded
  rw [List.cons_append, List.foldlM_cons] at asks
  obtain ⟨⟨db₂, link₂⟩, first, asks⟩ := Option.bind_eq_some_iff.mp asks
  rw [List.foldlM_append] at asks
  obtain ⟨⟨db₃, link₃⟩, puts, asks⟩ := Option.bind_eq_some_iff.mp asks
  rw [List.foldlM_cons] at asks
  obtain ⟨⟨db₄, link₄⟩, commit, asks⟩ := Option.bind_eq_some_iff.mp asks
  cases asks
  have loading := loading_puts (List.finRange hotKeys) (loading_start first) puts
  refine loading_commit loading commit ?_
  decide

end Load

/-- From the server's start, `preload_keys` and then any interleaving of the threads: at every moment
the committed value of a hot key is the number of its increments that the threads have counted. -/
theorem hot_keys_count {py : Python} {hash : Bytes → Nat} {file : List (Bytes × Bytes)} {init : Db}
    {trace : List Bench.Event} {b : Bench} (loaded : preloadKeys py hash (Kv.initial hash file) = some init)
    (run : Run (Bench.Step py hash) Always (Bench.begin py init) trace b) (key : Fin hotKeys) :
    b.db.readable hash (hotKey key) = some (bytes (toString (b.applied key))) :=
  (counting_run (ready_preloadKeys loaded) run).value (ready_preloadKeys loaded) key

/-- Two threads read the same count; one commit is refused, and one increment counted. -/
theorem hot_keys_count_conflict :
    ∃ (init : Db) (trace : List Bench.Event) (b : Bench),
      preloadKeys ascii Kv.numeral (Kv.initial Kv.numeral []) = some init ∧
      Run (Bench.Step ascii Kv.numeral) Always (Bench.begin ascii init) trace b ∧
      .request ⟨5, by decide⟩ ⟨0, by decide⟩ (some ⟨.commit 3, .code .ABORT⟩) ∈ trace ∧
      b.applied ⟨2, by decide⟩ = 1 ∧ b.db.readable Kv.numeral (hotKey ⟨2, by decide⟩) = some (bytes "1") := by
  have played : ((preloadKeys ascii Kv.numeral (Kv.initial Kv.numeral [])).bind (fun init =>
      play (Bench.next ascii Kv.numeral) (Bench.begin ascii init)
        [.request ⟨3, by decide⟩ ⟨2, by decide⟩ (some ⟨.begin_txn, .begun 2⟩),
          .request ⟨5, by decide⟩ ⟨2, by decide⟩ (some ⟨.begin_txn, .begun 3⟩),
          .request ⟨3, by decide⟩ ⟨0, by decide⟩ (some ⟨.get 2 (bytes "hotk_2"), .value (bytes "0")⟩),
          .request ⟨5, by decide⟩ ⟨0, by decide⟩ (some ⟨.get 3 (bytes "hotk_2"), .value (bytes "0")⟩),
          .request ⟨5, by decide⟩ ⟨0, by decide⟩ (some ⟨.put 3 (bytes "hotk_2") (bytes "1"), .code .OK⟩),
          .request ⟨3, by decide⟩ ⟨0, by decide⟩ (some ⟨.put 2 (bytes "hotk_2") (bytes "1"), .code .OK⟩),
          .request ⟨3, by decide⟩ ⟨0, by decide⟩ (some ⟨.commit 2, .code .OK⟩),
          .request ⟨5, by decide⟩ ⟨0, by decide⟩ (some ⟨.commit 3, .code .ABORT⟩)])).map
      (fun b => b.applied ⟨2, by decide⟩) = some 1 := by decide +kernel
  obtain ⟨b, ran, count⟩ := Option.map_eq_some_iff.mp played
  obtain ⟨init, loaded, ran⟩ := Option.bind_eq_some_iff.mp ran
  have run : Run (Bench.Step ascii Kv.numeral) Always (Bench.begin ascii init) _ b := run_of_play ran
  refine ⟨init, _, b, loaded, run, by simp, count, ?_⟩
  rw [hot_keys_count loaded run, count]
  rfl

end DataAgentDB.Engine
