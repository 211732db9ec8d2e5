import DataAgentDB.Client.InStep
import DataAgentDB.Lib.LabelledRun
import Mathlib.Algebra.BigOperators.Fin

/-! A thread of db_test.py one request at a time, with the counters it keeps. The replies are
arbitrary here, and so is which request raises. -/

namespace DataAgentDB.Client
open Storage Server LabelledRun Words

/-- `Stats`; of the latencies, how many there are. -/
structure Stats where
  connFail : Nat
  exceptions : Nat
  startOk : Nat
  startFail : Nat
  getOk : Nat
  getFail : Nat
  putOk : Nat
  putFail : Nat
  commitOk : Nat
  commitFail : Nat
  rollbackOk : Nat
  rollbackFail : Nat
  txnSuccess : Nat
  txnFail : Nat
  retryCount : Nat
  abortCount : Nat
  latMs : Nat
  appliedIncrements : Fin hotKeys → Nat

namespace Stats

def init : Stats :=
  { connFail := 0, exceptions := 0, startOk := 0, startFail := 0, getOk := 0, getFail := 0, putOk := 0,
    putFail := 0, commitOk := 0, commitFail := 0, rollbackOk := 0, rollbackFail := 0, txnSuccess := 0,
    txnFail := 0, retryCount := 0, abortCount := 0, latMs := 0, appliedIncrements := fun _ => 0 }

def merge (st o : Stats) : Stats :=
  { connFail := st.connFail + o.connFail
    exceptions := st.exceptions + o.exceptions
    startOk := st.startOk + o.startOk
    startFail := st.startFail + o.startFail
    getOk := st.getOk + o.getOk
    getFail := st.getFail + o.getFail
    putOk := st.putOk + o.putOk
    putFail := st.putFail + o.putFail
    commitOk := st.commitOk + o.commitOk
    commitFail := st.commitFail + o.commitFail
    rollbackOk := st.rollbackOk + o.rollbackOk
    rollbackFail := st.rollbackFail + o.rollbackFail
    txnSuccess := st.txnSuccess + o.txnSuccess
    txnFail := st.txnFail + o.txnFail
    retryCount := st.retryCount + o.retryCount
    abortCount := st.abortCount + o.abortCount
    latMs := st.latMs + o.latMs
    appliedIncrements := fun key => st.appliedIncrements key + o.appliedIncrements key }

/-- `expected_total_inc`. -/
def expectedTotalInc (st : Stats) : Nat := ∑ key, st.appliedIncrements key

/-- The `finally` of an iteration. -/
def finish (st : Stats) (txnOk : Bool) : Stats :=
  { st with latMs := st.latMs + 1, retryCount := if txnOk then st.retryCount else st.retryCount + 1 }

/-- `txn_fail` and `abort_count`. -/
def fail (st : Stats) : Stats := { st with txnFail := st.txnFail + 1, abortCount := st.abortCount + 1 }

/-- A failure that leaves by `continue`: it appends a latency before `finally` appends one. -/
def abandon (st : Stats) : Stats := { st.fail with latMs := st.latMs + 1 }.finish false

def rolledBack (st : Stats) (ok : Bool) : Stats :=
  if ok then { st with rollbackOk := st.rollbackOk + 1 } else { st with rollbackFail := st.rollbackFail + 1 }

end Stats

/-- Which request of its iteration a worker is to make; `recover` is that of the `except`. -/
inductive Phase where
  | start
  | get (key : Fin hotKeys)
  | put (key : Fin hotKeys) (cur : Int)
  | commit (key : Fin hotKeys)
  | rollback
  | recover

def Phase.request : Phase → Bytes
  | .start => cmdStart
  | .get key => cmdGet (hotKey key)
  | .put key cur => cmdPut (hotKey key) (bytes (toString (cur + 1)))
  | .commit _ => cmdCommit
  | .rollback | .recover => cmdRollback

/-- `left` counts the iterations that have not ended. -/
structure Worker where
  phase : Phase
  left : Nat
  stats : Stats

namespace Worker

/-- The next iteration, or the end of the loop. -/
def next (w : Worker) (stats : Stats) : Worker := { phase := .start, left := w.left - 1, stats := stats }

/-- What a worker makes of a reply; `none` is a request that raises. -/
def proceed (py : Python) (w : Worker) (key : Fin hotKeys) (reply : Option (List Char)) : Worker :=
  let st := w.stats
  match reply with
  | none =>
      match w.phase with
      | .recover => w.next ((st.rolledBack false).finish false)
      | _ => { w with phase := .recover, stats := { st with exceptions := st.exceptions + 1,
                                                             txnFail := st.txnFail + 1 } }
  | some r =>
      match w.phase with
      | .start =>
          if isOk r then { w with phase := .get key, stats := { st with startOk := st.startOk + 1 } }
          else w.next { st with startFail := st.startFail + 1 }.abandon
      | .get key =>
          match parseIntFromResp py r with
          | none => { w with phase := .rollback, stats := { st with getFail := st.getFail + 1 } }
          | some cur => { w with phase := .put key cur, stats := { st with getOk := st.getOk + 1 } }
      | .put key _ =>
          if isOk r then { w with phase := .commit key, stats := { st with putOk := st.putOk + 1 } }
          else { w with phase := .rollback, stats := { st with putFail := st.putFail + 1 } }
      | .commit key =>
          if isOk r then
            w.next ({ st with commitOk := st.commitOk + 1, txnSuccess := st.txnSuccess + 1,
                              appliedIncrements := Function.update st.appliedIncrements key
                                (st.appliedIncrements key + 1) }.finish true)
          else w.next ({ st with commitFail := st.commitFail + 1 }.fail.finish false)
      | .rollback => w.next (st.rolledBack (isOk r)).abandon
      | .recover => w.next ((st.rolledBack (isOk r)).finish false)

/-- The next request of a worker that is in its loop. -/
def turn (py : Python) (w : Worker) (event : Fin hotKeys × Option (List Char)) : Option Worker :=
  if w.left = 0 then none else some (w.proceed py event.1 event.2)

def Turn (py : Python) (w : Worker) (event : Fin hotKeys × Option (List Char)) (next : Worker) : Prop :=
  w.turn py event = some next

/-- A connected worker before its first iteration. -/
def begin (txnPerThread : Nat) : Worker := { phase := .start, left := txnPerThread, stats := Stats.init }

end Worker

/-- What a thread merges into `gstats` as it ends: it could not connect, or its loop is over. -/
inductive Ended (py : Python) (txnPerThread : Nat) : Stats → Prop
  | unconnected : Ended py txnPerThread { Stats.init with connFail := 1 }
  | finished {events : List (Fin hotKeys × Option (List Char))} {w : Worker}
      (run : Run (Worker.Turn py) Always (Worker.begin txnPerThread) events w) (left : w.left = 0) :
      Ended py txnPerThread w.stats

/-- `gstats` after the threads merged into it, in that order. -/
def gstats (ended : List Stats) : Stats := ended.foldl Stats.merge Stats.init

/-- One request to the server, and what the worker makes of its reply. -/
def requestTurn (py : Python) (round : Round) (state : Link × Worker) : Link × Worker :=
  let results := match state.2.phase with
    | .start => round.start
    | .get _ => round.get
    | .put _ _ => round.put
    | .commit _ => round.commit
    | .rollback | .recover => round.rollback
  let (reply, link) := state.1.request py state.2.phase.request results
  (link, state.2.proceed py round.key reply)

/-- Requests until the iteration ends, `n` at most. -/
def requestTurns (py : Python) (round : Round) : Nat → Link × Worker → Link × Worker
  | 0, state => state
  | n + 1, state =>
      let state := requestTurn py round state
      match state.2.phase with
      | .start => state
      | _ => requestTurns py round n state

/-- The `except` of an iteration. -/
def caught (py : Python) (round : Round) : Bool × Link → Link
  | (false, link) => link
  | (true, link) => (link.request py cmdRollback round.rollback).2

section
variable (py : Python) (round : Round) (link : Link) (left : Nat) (st : Stats) (n : Nat)

/-- From a phase on, the requests lead to `last` and to the next iteration. -/
def Leads (fuel : Nat) (phase : Phase) (last : Link) : Prop :=
  ∃ st', requestTurns py round fuel (link, ⟨phase, left, st⟩) = (last, ⟨.start, left - 1, st'⟩)

theorem leads_recover : Leads py round link left st (n + 1) .recover (caught py round (true, link)) := by
  unfold Leads caught
  simp only [requestTurns, requestTurn, Phase.request]
  rcases link.request py cmdRollback round.rollback with ⟨_ | r, after⟩ <;> exact ⟨_, rfl⟩

theorem leads_rollback : Leads py round link left st (n + 2) .rollback
    (caught py round ((link.request py cmdRollback round.rollback).1.isNone,
      (link.request py cmdRollback round.rollback).2)) := by
  unfold Leads
  rw [requestTurns]
  simp only [requestTurn, Phase.request]
  rcases link.request py cmdRollback round.rollback with ⟨_ | r, after⟩
  · exact leads_recover py round after left _ n
  · exact ⟨_, rfl⟩

theorem leads_commit (key : Fin hotKeys) : Leads py round link left st (n + 2) (.commit key)
    (caught py round ((link.request py cmdCommit round.commit).1.isNone,
      (link.request py cmdCommit round.commit).2)) := by
  unfold Leads
  rw [requestTurns]
  simp only [requestTurn, Phase.request]
  rcases link.request py cmdCommit round.commit with ⟨_ | r, after⟩
  · exact leads_recover py round after left _ n
  · cases ok : isOk r <;> simp only [Worker.proceed, ok] <;> exact ⟨_, rfl⟩

/-- The requests of an iteration, one by one, are the iteration. -/
theorem leads_iteration : Leads py round link left st 5 .start (iteration py link round) := by
  have whole : iteration py link round = caught py round (attempt py link round) := by
    unfold iteration caught
    rcases attempt py link round with ⟨_ | _, last⟩ <;> rfl
  rw [whole]
  unfold Leads attempt
  rw [requestTurns]
  simp only [requestTurn, Phase.request]
  rcases link.request py cmdStart round.start with ⟨_ | r, link₁⟩
  · exact leads_recover py round link₁ left _ 3
  cases started : isOk r with
  | false =>
    simp only [Worker.proceed, started]
    exact ⟨_, rfl⟩
  | true =>
  simp only [Worker.proceed, started, if_true]
  rw [requestTurns]
  simp only [requestTurn, Phase.request]
  rcases link₁.request py (cmdGet (hotKey round.key)) round.get with ⟨_ | r, link₂⟩
  · exact leads_recover py round link₂ left _ 2
  cases parsed : parseIntFromResp py r with
  | none =>
    simp only [Worker.proceed, parsed]
    exact leads_rollback py round link₂ left _ 1
  | some cur =>
  simp only [Worker.proceed, parsed]
  rw [requestTurns]
  simp only [requestTurn, Phase.request]
  rcases link₂.request py (cmdPut (hotKey round.key) (bytes (toString (cur + 1)))) round.put with ⟨_ | r, link₃⟩
  · exact leads_recover py round link₃ left _ 1
  cases put : isOk r with
  | false =>
    simp only [Worker.proceed, put]
    exact leads_rollback py round link₃ left _ 0
  | true =>
    simp only [Worker.proceed, put, if_true]
    exact leads_commit py round link₃ left _ 0 round.key

end

/-- What a digit of a numeral is to the worker. -/
theorem digit_char {n : Nat} {digit : Char} (listed : digit ∈ Nat.toDigits 10 n) :
    isWhite digit = false ∧ digit.isDigit = true ∧ digit.toNat < 128 ∧ digit ≠ '_' ∧ digit ≠ '+' ∧ digit ≠ '-' := by
  obtain ⟨-, low, high⟩ := toNat_digit listed
  have other : ∀ c : Char, c.toNat < 48 ∨ 57 < c.toNat → digit ≠ c := by
    rintro c outside rfl
    omega
  refine ⟨?_, Nat.isDigit_of_mem_toDigits (by decide) (by decide) listed, by omega, other _ (by decide),
    other _ (by decide), other _ (by decide)⟩
  simp only [isWhite, Bool.or_eq_false_iff, Bool.and_eq_false_iff, decide_eq_false_iff_not]
  omega

section
variable (py : Python)

theorem decode_value (n : Nat) : py.decode (bytes "OK VALUE " ++ bytes (toString n)) =
    "OK".toList ++ ' ' :: ("VALUE".toList ++ ' ' :: Nat.toDigits 10 n) := by
  have fixed : (bytes "OK VALUE ").all (fun c => decide (c < 128)) = true := by decide
  have ascii : ∀ c ∈ bytes "OK VALUE " ++ bytes (toString n), c < 128 := by
    intro c member
    rcases List.mem_append.mp member with inFixed | inDigits
    · exact of_decide_eq_true (List.all_eq_true.mp fixed c inFixed)
    · have bound := digit_of_mem inDigits
      rw [UInt8.lt_iff_toNat_lt]
      change c.toNat < 128
      omega
  have digits : (Nat.toDigits 10 n).map ((fun c => Char.ofNat c.toNat) ∘ fun c => c.toNat.toUInt8) =
      Nat.toDigits 10 n := by
    refine (List.map_congr_left (fun digit listed => ?_)).trans (List.map_id _)
    rw [Function.comp_apply, (toNat_digit listed).1]
    exact Char.ofNat_toNat digit
  have words : (bytes "OK VALUE ").map (fun c => Char.ofNat c.toNat) = "OK VALUE ".toList := by decide
  rw [py.decode_ascii _ ascii, List.map_append, bytes_toString, List.map_map, digits, words]
  rfl

theorem int_numeral (n : Nat) : int py (Nat.toDigits 10 n) = some (n : Int) := by
  have decimal : ∀ digit ∈ Nat.toDigits 10 n, py.decimal digit = some (digit.toNat - 48) := by
    intro digit listed
    obtain ⟨-, isDigit, ascii, -⟩ := digit_char listed
    rw [py.decimal_ascii digit ascii, isDigit, if_pos rfl]
  have whole : (Nat.toDigits 10 n).splitOn '_' = [Nat.toDigits 10 n] :=
    List.splitOnP_eq_singleton (fun digit listed => by simpa using (digit_char listed).2.2.2.1)
  have kept : (Nat.toDigits 10 n).filter (fun c => c ≠ '_') = Nat.toDigits 10 n :=
    List.filter_eq_self.mpr (fun digit listed => by simpa using (digit_char listed).2.2.2.1)
  have value : (Nat.toDigits 10 n).foldl (fun n c => 10 * n + (py.decimal c).getD 0) 0 = n := by
    have back := Nat.ofDigitChars_toDigits (b := 10) (n := n) (by decide) (by decide)
    rw [Nat.ofDigitChars_eq_foldl] at back
    refine (List.foldl_ext _ _ _ (fun sum digit listed => ?_)).trans back
    rw [decimal digit listed]
    rfl
  have parsed : digits py (Nat.toDigits 10 n) = some n := by
    unfold digits
    dsimp only
    rw [whole, if_pos, kept, value]
    simp only [List.all_cons, List.all_nil, Bool.and_true, Bool.and_eq_true, Bool.not_eq_true',
      List.isEmpty_eq_false_iff, List.all_eq_true]
    exact ⟨Nat.toDigits_ne_nil, fun digit listed => by rw [decimal digit listed]; rfl⟩
  obtain ⟨first, rest, split⟩ := List.exists_cons_of_ne_nil (Nat.toDigits_ne_nil (b := 10) (n := n))
  have listed : first ∈ Nat.toDigits 10 n := by
    rw [split]
    exact List.mem_cons_self
  have unsigned := (digit_char listed).2.2.2.2
  unfold int
  split
  next _ rest' same => rw [split] at same; cases same; exact absurd rfl unsigned.1
  next _ rest' same => rw [split] at same; cases same; exact absurd rfl unsigned.2
  next => rw [parsed]; rfl

/-- A worker reads back the number in the value it is sent. -/
theorem parseIntFromResp_value (n : Nat) :
    parseIntFromResp py (py.decode (bytes "OK VALUE " ++ bytes (toString n))) = some (n : Int) := by
  have isWord : IsWord isWhite (Nat.toDigits 10 n) :=
    ⟨Nat.toDigits_ne_nil, fun digit listed => (digit_char listed).1⟩
  have whole : "OK".toList ++ ' ' :: ("VALUE".toList ++ ' ' :: Nat.toDigits 10 n) =
      "OK VALUE ".toList ++ Nat.toDigits 10 n := rfl
  have trimmed : normalize ("OK VALUE ".toList ++ Nat.toDigits 10 n) = "OK VALUE ".toList ++ Nat.toDigits 10 n := by
    obtain ⟨last, front, split⟩ := List.exists_cons_of_ne_nil
      (List.reverse_ne_nil_iff.mpr (Nat.toDigits_ne_nil (b := 10) (n := n)))
    have visible : ¬ isWhite last = true := by
      have listed : last ∈ Nat.toDigits 10 n := List.mem_reverse.mp (split ▸ List.mem_cons_self)
      simp [(digit_char listed).1]
    have start : ("OK VALUE ".toList ++ Nat.toDigits 10 n).dropWhile isWhite =
        "OK VALUE ".toList ++ Nat.toDigits 10 n := List.dropWhile_cons_of_neg (by decide)
    have back : ("OK VALUE ".toList ++ Nat.toDigits 10 n).reverse =
        last :: (front ++ "OK VALUE ".toList.reverse) := by
      rw [List.reverse_append, split, List.cons_append]
    rw [normalize, start, back, List.dropWhile_cons_of_neg visible, ← back, List.reverse_reverse]
  have tokens : words isWhite ("OK".toList ++ ' ' :: ("VALUE".toList ++ ' ' :: Nat.toDigits 10 n)) =
      ["OK".toList, "VALUE".toList, Nat.toDigits 10 n] := by
    have apart : ∀ rest, Parted isWhite (' ' :: rest) := by
      intro rest c head
      cases head
      decide
    rw [words_word_append (isWord_of_all (by decide) (by decide)) (apart _), words_cons_sep _ (by decide),
      words_word_append (isWord_of_all (by decide) (by decide)) (apart _), words_cons_sep _ (by decide),
      words_word isWord]
  rw [parseIntFromResp, decode_value, whole, trimmed, ← whole, tokens]
  simp only [List.reverse_cons, List.reverse_nil, List.nil_append, List.cons_append, List.findSome?_cons,
    int_numeral]

end

/-- The counters of `count` ended threads of `txns` iterations each. Every failure that leaves by
`continue` is in `latMs` twice. -/
structure Balance (txns count : Nat) (st : Stats) : Prop where
  ended : st.txnSuccess + st.txnFail + txns * st.connFail = txns * count
  committed : st.commitOk = st.txnSuccess
  applied : st.expectedTotalInc = st.txnSuccess
  retried : st.retryCount = st.txnFail
  aborted : st.abortCount + st.exceptions = st.txnFail
  latencies : st.latMs + st.commitFail + txns * st.connFail = txns * count + st.abortCount
  funnel : st.commitOk + st.commitFail ≤ st.putOk ∧ st.putOk + st.putFail ≤ st.getOk ∧
    st.getOk + st.getFail ≤ st.startOk

/-- An iteration that an exception ended is counted before its last request. -/
def Phase.counted : Phase → Nat
  | .recover => 1
  | _ => 0

/-- An iteration that has begun is one of those left. -/
def Phase.busy : Phase → Nat
  | .start => 0
  | _ => 1

/-- What a phase has seen succeed and not fail. -/
def Phase.passed : Phase → Nat × Nat × Nat
  | .get _ => (1, 0, 0)
  | .put _ _ => (0, 1, 0)
  | .commit _ => (0, 0, 1)
  | _ => (0, 0, 0)

/-- The counters of a thread inside its loop. -/
structure Balanced (txns : Nat) (w : Worker) : Prop where
  connected : w.stats.connFail = 0
  inside : w.phase.busy ≤ w.left
  ended : w.stats.txnSuccess + w.stats.txnFail + w.left = txns + w.phase.counted
  committed : w.stats.commitOk = w.stats.txnSuccess
  applied : w.stats.expectedTotalInc = w.stats.txnSuccess
  retried : w.stats.retryCount + w.phase.counted = w.stats.txnFail
  aborted : w.stats.abortCount + w.stats.exceptions = w.stats.txnFail
  latencies : w.stats.latMs + w.stats.commitFail + w.left = txns + w.stats.abortCount
  gets : w.stats.getOk + w.stats.getFail + w.phase.passed.1 ≤ w.stats.startOk
  puts : w.stats.putOk + w.stats.putFail + w.phase.passed.2.1 ≤ w.stats.getOk
  commits : w.stats.commitOk + w.stats.commitFail + w.phase.passed.2.2 ≤ w.stats.putOk

/-- One count of a sum goes up. -/
theorem sum_update_succ {ι : Type} [Fintype ι] [DecidableEq ι] (counts : ι → Nat) (i : ι) :
    ∑ j, Function.update counts i (counts i + 1) j = ∑ j, counts j + 1 := by
  rw [Finset.sum_update_of_mem (Finset.mem_univ i), Finset.sum_eq_add_sum_sdiff_singleton_of_mem (Finset.mem_univ i)]
  exact Nat.add_right_comm _ _ _

theorem balanced_begin (txns : Nat) : Balanced txns (Worker.begin txns) := by
  constructor <;> simp [Worker.begin, Stats.init, Phase.counted, Phase.busy, Phase.passed, Stats.expectedTotalInc]

theorem balanced_turn {py : Python} {txns : Nat} {w next : Worker} {event : Fin hotKeys × Option (List Char)}
    (balanced : Balanced txns w) (taken : Worker.Turn py w event next) : Balanced txns next := by
  obtain ⟨connected, inside, ended, committed, applied, retried, aborted, latencies, gets, puts, commits⟩ := balanced
  obtain ⟨phase, left, st⟩ := w
  obtain ⟨key, reply⟩ := event
  unfold Worker.Turn Worker.turn at taken
  split at taken
  next => cases taken
  next more =>
    cases taken
    dsimp only at *
    unfold Worker.proceed
    cases reply with
    | none =>
      -- only the rollback of the `except` ends its iteration when it raises
      cases phase <;> constructor <;>
        simp only [Worker.next, Stats.rolledBack, Stats.finish, Stats.expectedTotalInc, Phase.counted,
          Phase.busy, Phase.passed, Bool.false_eq_true, if_false] at * <;> omega
    | some r =>
      cases phase with
      | start =>
        dsimp only
        split <;> constructor <;>
          simp only [Worker.next, Stats.abandon, Stats.fail, Stats.finish, Stats.expectedTotalInc, Phase.counted,
            Phase.busy, Phase.passed, Bool.false_eq_true, if_false] at * <;> omega
      | get =>
        dsimp only
        split <;> constructor <;>
          simp only [Stats.expectedTotalInc, Phase.counted, Phase.busy, Phase.passed] at * <;> omega
      | put =>
        dsimp only
        split <;> constructor <;>
          simp only [Stats.expectedTotalInc, Phase.counted, Phase.busy, Phase.passed] at * <;> omega
      | commit key =>
        dsimp only
        split <;> constructor <;>
          simp only [Worker.next, Stats.fail, Stats.finish, Stats.expectedTotalInc, Phase.counted,
            Phase.busy, Phase.passed, Bool.false_eq_true, if_false, if_true, sum_update_succ] at * <;> omega
      | rollback =>
        dsimp only [Stats.rolledBack]
        cases isOk r <;> constructor <;>
          simp only [Worker.next, Stats.abandon, Stats.fail, Stats.finish, Stats.expectedTotalInc, Phase.counted,
            Phase.busy, Phase.passed, Bool.false_eq_true, if_false, if_true] at * <;> omega
      | recover =>
        dsimp only [Stats.rolledBack]
        cases isOk r <;> constructor <;>
          simp only [Worker.next, Stats.finish, Stats.expectedTotalInc, Phase.counted,
            Phase.busy, Phase.passed, Bool.false_eq_true, if_false, if_true] at * <;> omega

theorem balanced_run {py : Python} {txns : Nat} {events : List (Fin hotKeys × Option (List Char))} {w : Worker}
    (run : Run (Worker.Turn py) Always (Worker.begin txns) events w) : Balanced txns w :=
  run.invariant (fun _ => Balanced txns) (balanced_begin txns)
    (fun _ _ _ _ balanced _ taken => balanced_turn balanced taken)

theorem balance_ended {py : Python} {txns : Nat} {st : Stats} (ended : Ended py txns st) : Balance txns 1 st := by
  cases ended with
  | unconnected => constructor <;> simp [Stats.init, Stats.expectedTotalInc]
  | @finished events w run drained =>
    obtain ⟨connected, inside, ended, committed, applied, retried, aborted, latencies, gets, puts, commits⟩ :=
      balanced_run run
    have settled : w.phase = .start := by
      cases phase : w.phase with
      | start => rfl
      | _ =>
        rw [phase, drained] at inside
        cases inside
    have reached : txns * w.stats.connFail = 0 := by rw [connected, Nat.mul_zero]
    simp only [settled, drained, Phase.counted, Phase.passed] at *
    exact ⟨by omega, committed, applied, retried, aborted, by omega, by omega, by omega, by omega⟩

theorem expectedTotalInc_merge (st o : Stats) :
    (st.merge o).expectedTotalInc = st.expectedTotalInc + o.expectedTotalInc := Finset.sum_add_distrib

theorem Balance.merge {txns count more : Nat} {st o : Stats} (first : Balance txns count st)
    (second : Balance txns more o) : Balance txns (count + more) (st.merge o) := by
  obtain ⟨ended, committed, applied, retried, aborted, latencies, funnel⟩ := first
  obtain ⟨ended', committed', applied', retried', aborted', latencies', funnel'⟩ := second
  have total := expectedTotalInc_merge st o
  constructor <;> simp only [Stats.merge, Nat.mul_add] at * <;> omega

theorem merge_right_comm (st o o' : Stats) : (st.merge o).merge o' = (st.merge o').merge o := by
  unfold Stats.merge
  simp only [Nat.add_right_comm]

/-- Whatever the server replies to the threads, in whatever order they end, and whichever of them
could not connect or had requests raise: the merged counters are the same and add up. -/
theorem gstats_balance {py : Python} {txns : Nat} {ended : List Stats} (all : ∀ st ∈ ended, Ended py txns st) :
    (∀ order, order.Perm ended → gstats order = gstats ended) ∧ Balance txns ended.length (gstats ended) := by
  constructor
  · intro order perm
    have : RightCommutative Stats.merge := ⟨merge_right_comm⟩
    exact perm.foldl_eq _
  · induction ended using List.reverseRecOn with
    | nil => constructor <;> simp [gstats, Stats.init, Stats.expectedTotalInc]
    | append_singleton front last ih =>
      have earlier := ih (fun st member => all st (List.mem_append_left _ member))
      unfold gstats at earlier ⊢
      rw [List.foldl_append, List.length_append]
      exact earlier.merge (balance_ended (all last (by simp)))

/-- One thread cannot connect, one commits, and one has its first request and its rollback raise. -/
theorem gstats_balance_three :
    ∃ ended : List Stats, ended.length = 3 ∧ Balance 1 3 (gstats ended) ∧ (gstats ended).expectedTotalInc = 1 := by
  have committed : (play (Worker.turn ascii) (Worker.begin 1)
      [(⟨2, by decide⟩, some "OK TXN 1".toList), (⟨2, by decide⟩, some "OK VALUE 41".toList),
        (⟨2, by decide⟩, some "OK".toList), (⟨2, by decide⟩, some "OK COMMIT".toList)]).map (fun w => (w.left, w.stats.expectedTotalInc)) = some (0, 1) := by
    decide +kernel
  have raised : (play (Worker.turn ascii) (Worker.begin 1)
      [(⟨0, by decide⟩, none), (⟨0, by decide⟩, none)]).map
      (fun w => (w.left, w.stats.expectedTotalInc)) = some (0, 0) := by decide +kernel
  obtain ⟨w, ran, good⟩ := Option.map_eq_some_iff.mp committed
  obtain ⟨w', ran', bad⟩ := Option.map_eq_some_iff.mp raised
  obtain ⟨left, one⟩ := Prod.mk.inj good
  obtain ⟨left', zero⟩ := Prod.mk.inj bad
  have all : ∀ st ∈ [{ Stats.init with connFail := 1 }, w.stats, w'.stats], Ended ascii 1 st := by
    intro st member
    simp only [List.mem_cons, List.not_mem_nil, or_false] at member
    rcases member with rfl | rfl | rfl
    · exact .unconnected
    · exact .finished (run_of_play ran) left
    · exact .finished (run_of_play ran') left'
  refine ⟨_, rfl, (gstats_balance all).2, ?_⟩
  simp only [gstats, List.foldl_cons, List.foldl_nil, expectedTotalInc_merge, one, zero]
  rfl

end DataAgentDB.Client
