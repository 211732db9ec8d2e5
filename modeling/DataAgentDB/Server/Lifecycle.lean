import DataAgentDB.Server.Session
import Mathlib.Data.List.TakeWhile

/-! The life of a transaction handle within a session: begun, used, and ended by one
`commit` or `abort_txn` that runs `finish` once. -/

namespace DataAgentDB.Server
open Storage LabelledRun

/-- Where a handle stands between two actions of a session. -/
inductive Status where
  | idle
  | active (ctx : Nat)
  | ending (ctx : Nat)

/-- The actions a handle admits. `in_txn` and `tx.impl` agree as each of them starts. -/
inductive Follows : Status → Entry → Status → Prop
  | idleSend (text : Bytes) : Follows .idle ⟨.send text, false, none⟩ .idle
  | activeSend (ctx : Nat) (text : Bytes) :
      Follows (.active ctx) ⟨.send text, true, some ctx⟩ (.active ctx)
  | begun (ctx : Nat) : Follows .idle ⟨.begin_txn ctx, false, none⟩ (.active ctx)
  | get (ctx : Nat) (key : Bytes) : Follows (.active ctx) ⟨.get key, true, some ctx⟩ (.active ctx)
  | put (ctx : Nat) (key value : Bytes) :
      Follows (.active ctx) ⟨.put key value, true, some ctx⟩ (.active ctx)
  | commit (ctx : Nat) : Follows (.active ctx) ⟨.commit, true, some ctx⟩ (.ending ctx)
  | abort (ctx : Nat) : Follows (.active ctx) ⟨.abort_txn, true, some ctx⟩ (.ending ctx)
  | finish (ctx : Nat) (rc : RC) : Follows (.ending ctx) ⟨.finish ctx rc, true, some ctx⟩ .idle

abbrev Lifecycle : List Entry → Status → Prop :=
  Run Follows Always .idle

namespace Entry

def begins (entry : Entry) : Bool :=
  match entry.action with
  | .begin_txn _ => true
  | _ => false

def ends (entry : Entry) : Bool :=
  match entry.action with
  | .commit | .abort_txn => true
  | _ => false

def finishes (entry : Entry) : Bool :=
  match entry.action with
  | .finish _ _ => true
  | _ => false

/-- The calls that dereference the handle. -/
def uses (entry : Entry) : Bool :=
  match entry.action with
  | .get _ | .put _ _ | .commit | .abort_txn | .finish _ _ => true
  | _ => false

end Entry

theorem Follows.agrees {status next : Status} {entry : Entry} (follows : Follows status entry next) :
    entry.inTxn = entry.impl.isSome ∧ (entry.uses = true → entry.impl ≠ none) := by
  cases follows <;> simp [Entry.uses]

theorem lifecycle_agrees {log : List Entry} {status : Status} (history : Lifecycle log status) :
    ∀ entry ∈ log, entry.inTxn = entry.impl.isSome ∧ (entry.uses = true → entry.impl ≠ none) := by
  refine history.invariant (fun log _ => ∀ entry ∈ log, entry.inTxn = entry.impl.isSome ∧
    (entry.uses = true → entry.impl ≠ none)) (fun _ member => nomatch member) ?_
  intro trace state event next held _ follows entry member
  rcases List.mem_append.mp member with earlier | last
  · exact held entry earlier
  · cases List.mem_singleton.mp last
    exact follows.agrees

/-- How many `finish` calls the handle still waits for. -/
def Status.owes : Status → Nat
  | .idle => 0
  | .active _ | .ending _ => 1

theorem lifecycle_count {log : List Entry} {status : Status} (history : Lifecycle log status) :
    log.countP Entry.begins = log.countP Entry.finishes + status.owes := by
  refine history.invariant
    (fun log status => log.countP Entry.begins = log.countP Entry.finishes + status.owes) rfl ?_
  intro trace state event next held _ follows
  cases follows <;> simpa [Entry.begins, Entry.finishes, Status.owes] using held

/-- Until the next `begin_txn`, a begun handle alone is used, and it is ended at most once. -/
def Status.Scoped (ctx : Nat) (scope : List Entry) : Status → Prop
  | .active other => other = ctx ∧ scope.countP Entry.ends = 0 ∧ scope.countP Entry.finishes = 0
  | .ending other => other = ctx ∧ scope.countP Entry.ends = 1 ∧ scope.countP Entry.finishes = 0
  | .idle => scope.countP Entry.ends = 1 ∧ scope.countP Entry.finishes = 1

/-- What a handle has to its name before a call, it has after it: the one call that ends it, then
the one `finish`. -/
theorem Follows.scoped {ctx : Nat} {scope : List Entry} {status next : Status} {entry : Entry}
    (follows : Follows status entry next) (counts : status.Scoped ctx scope)
    (inside : entry.begins = false) : next.Scoped ctx (scope ++ [entry]) := by
  cases follows with
  | idleSend | activeSend | get | put =>
      simpa only [Status.Scoped, List.countP_append, List.countP_singleton, Entry.ends,
        Entry.finishes, Bool.false_eq_true, if_false, Nat.add_zero] using counts
  | begun => cases inside
  | commit | abort =>
      obtain ⟨rfl, none, unfinished⟩ := counts
      exact ⟨rfl, by simp [none, Entry.ends], by simp [unfinished, Entry.finishes]⟩
  | finish =>
      obtain ⟨rfl, one, unfinished⟩ := counts
      exact ⟨by simp [one, Entry.ends], by simp [unfinished, Entry.finishes]⟩

/-- A call that dereferences a handle finds the one begun. -/
theorem Follows.uses_own {ctx : Nat} {scope : List Entry} {status next : Status} {entry : Entry}
    (follows : Follows status entry next) (counts : status.Scoped ctx scope)
    (uses : entry.uses = true) : entry.impl = some ctx := by
  cases follows with
  | idleSend | activeSend | begun => cases uses
  | get | put | commit | abort | finish => rw [counts.1]

theorem scope_run {ctx : Nat} {scope : List Entry} {status : Status}
    (run : Run Follows Always (.active ctx) scope status)
    (inside : ∀ entry ∈ scope, entry.begins = false) :
    status.Scoped ctx scope ∧ ∀ entry ∈ scope, entry.uses = true → entry.impl = some ctx := by
  revert inside
  refine run.invariant (fun scope status => (∀ entry ∈ scope, entry.begins = false) →
    status.Scoped ctx scope ∧ ∀ entry ∈ scope, entry.uses = true → entry.impl = some ctx)
    (fun _ => ⟨⟨rfl, rfl, rfl⟩, fun _ member => nomatch member⟩) ?_
  intro trace state event next held _ follows inside
  obtain ⟨counts, used⟩ := held (fun entry member => inside entry (List.mem_append_left _ member))
  refine ⟨follows.scoped counts (inside event (by simp)), ?_⟩
  intro entry member
  rcases List.mem_append.mp member with earlier | last
  · exact used entry earlier
  · cases List.mem_singleton.mp last
    exact follows.uses_own counts

theorem Follows.idle_of_begins {status next : Status} {entry : Entry} (follows : Follows status entry next)
    (begins : entry.begins = true) : status = .idle := by
  cases follows with
  | idleSend | begun => rfl
  | activeSend | get | put | commit | abort | finish => cases begins

theorem begins_active {log : List Entry} {entry : Entry} {ctx : Nat} {status : Status}
    (history : Lifecycle (log ++ [entry]) status) (begins : entry.action = .begin_txn ctx) :
    status = .active ctx := by
  obtain ⟨_, _, _, follows⟩ := history.last
  cases follows with
  | begun => cases begins; rfl
  | idleSend | activeSend | get | put | commit | abort | finish => cases begins

/-- A handle's log up to the next `begin_txn`: either one call ended the handle and ran `finish`,
or nothing did and the log stops with the handle open. -/
theorem lifecycle_scope {before after : List Entry} {entry : Entry} {ctx : Nat} {status : Status}
    (history : Lifecycle (before ++ entry :: after) status) (begins : entry.action = .begin_txn ctx)
    (settled : ∀ other, status ≠ .ending other) :
    let scope := after.takeWhile (fun entry => entry.begins = false)
    (∀ entry ∈ scope, entry.uses = true → entry.impl = some ctx) ∧
    ((scope.countP Entry.ends = 1 ∧ scope.countP Entry.finishes = 1) ∨
      (scope = after ∧ status = .active ctx ∧
        scope.countP Entry.ends = 0 ∧ scope.countP Entry.finishes = 0)) := by
  intro scope
  obtain ⟨opened, first, second⟩ := history.split (before ++ [entry]) after (by simp)
  cases begins_active first begins
  have inside : ∀ entry ∈ scope, entry.begins = false := by
    intro entry member
    exact of_decide_eq_true
      (List.mem_takeWhile_imp (p := fun entry : Entry => decide (entry.begins = false)) member)
  have whole : scope ++ after.dropWhile (fun entry => entry.begins = false) = after :=
    List.takeWhile_append_dropWhile
  have stop := List.head?_dropWhile_not (fun entry : Entry => decide (entry.begins = false)) after
  obtain ⟨reached, within, beyond⟩ := second.split scope _ whole.symm
  obtain ⟨counts, used⟩ := scope_run within.unrestricted inside
  refine ⟨used, ?_⟩
  cases rest : after.dropWhile (fun entry => entry.begins = false) with
  | nil =>
    rw [rest] at beyond whole
    cases beyond.of_nil
    cases status with
    | idle => exact .inl counts
    | active other =>
      obtain ⟨rfl, none_ended, none_finished⟩ := counts
      exact .inr ⟨by simpa using whole, rfl, none_ended, none_finished⟩
    | ending other => exact absurd rfl (settled other)
  | cons next rest' =>
    rw [rest] at beyond stop
    obtain ⟨_, one, _⟩ := beyond.split [next] rest' rfl
    rw [← List.nil_append [next]] at one
    obtain ⟨_, none_before, _, follows⟩ := one.last
    cases none_before.of_nil
    cases follows.idle_of_begins (by simpa using stop)
    exact .inl counts

def Status.of (impl : Option Nat) : Status :=
  match impl with
  | none => .idle
  | some ctx => .active ctx

structure Agrees (s : Session) : Prop where
  flag : s.inTxn = s.tx.impl.isSome
  history : Lifecycle s.log (Status.of s.tx.impl)
  returned : s.running = false → s.tx.impl = none

namespace Agrees

variable {s : Session}

theorem sendAll (agrees : Agrees s) (text : Bytes) : Agrees (s.sendAll text) := by
  obtain ⟨⟨impl, id⟩, inTxn, input, log, running⟩ := s
  obtain ⟨flag, history, returned⟩ := agrees
  refine ⟨flag, ?_, returned⟩
  cases impl with
  | none => cases flag; exact .snoc history trivial (.idleSend text)
  | some ctx => cases flag; exact .snoc history trivial (.activeSend ctx text)

theorem handle (agrees : Agrees s) (open_ : s.inTxn = true) : ∃ ctx, s.tx.impl = some ctx :=
  Option.isSome_iff_exists.mp (agrees.flag ▸ open_)

theorem no_handle (agrees : Agrees s) (closed : s.inTxn = false) : s.tx.impl = none :=
  Option.isSome_eq_false_iff.mp (agrees.flag ▸ closed) |> Option.isNone_iff_eq_none.mp

/-- A session whose flag or input alone is set back to what it was. -/
theorem withInput (agrees : Agrees s) (input : Bytes) : Agrees { s with input := input } :=
  ⟨agrees.flag, agrees.history, agrees.returned⟩

theorem began (agrees : Agrees s) (live : s.running = true) (closed : s.inTxn = false)
    (results : Results) : Agrees { (s.beginTxn results).2 with inTxn := true } := by
  have missing := agrees.no_handle closed
  obtain ⟨⟨impl, id⟩, inTxn, input, log, running⟩ := s
  cases missing
  cases closed
  cases live
  exact ⟨rfl, .snoc agrees.history trivial (.begun results.ctx), fun stopped => nomatch stopped⟩

theorem used (agrees : Agrees s) (open_ : s.inTxn = true) {action : Action}
    (use : (∃ key, action = .get key) ∨ ∃ key value, action = .put key value) :
    Agrees (s.note action) := by
  obtain ⟨ctx, found⟩ := agrees.handle open_
  obtain ⟨⟨impl, id⟩, inTxn, input, log, running⟩ := s
  cases found
  cases open_
  refine ⟨rfl, .snoc agrees.history trivial ?_, agrees.returned⟩
  rcases use with ⟨key, rfl⟩ | ⟨key, value, rfl⟩
  · exact .get ctx key
  · exact .put ctx key value

theorem committed (agrees : Agrees s) (open_ : s.inTxn = true) (results : Results) :
    Agrees { (s.commit results).2 with inTxn := false } := by
  obtain ⟨ctx, found⟩ := agrees.handle open_
  obtain ⟨⟨impl, id⟩, inTxn, input, log, running⟩ := s
  cases found
  cases open_
  have ending := Run.snoc agrees.history trivial (Follows.commit ctx)
  exact ⟨rfl, .snoc ending trivial (.finish ctx .RCOK), fun _ => rfl⟩

theorem aborted (agrees : Agrees s) (open_ : s.inTxn = true) :
    Agrees { s.abortTxn.2 with inTxn := false } := by
  obtain ⟨ctx, found⟩ := agrees.handle open_
  obtain ⟨⟨impl, id⟩, inTxn, input, log, running⟩ := s
  cases found
  cases open_
  have ending := Run.snoc agrees.history trivial (Follows.abort ctx)
  exact ⟨rfl, .snoc ending trivial (.finish ctx .Abort), fun _ => rfl⟩

theorem abandon (agrees : Agrees s) : Agrees s.abandon ∧ s.abandon.tx.impl = none := by
  unfold Session.abandon
  split
  next open_ =>
    have after := agrees.aborted open_
    exact ⟨after, after.no_handle rfl⟩
  next closed =>
    exact ⟨agrees, agrees.no_handle (Bool.eq_false_iff.mpr closed)⟩

theorem start (agrees : Agrees s) (live : s.running = true) (results : Results) :
    Agrees (s.start results) := by
  unfold Session.start
  split
  next => exact agrees.sendAll _
  next closed => exact (agrees.began live (Bool.eq_false_iff.mpr closed) results).sendAll _

theorem doGet (agrees : Agrees s) (parts : List Bytes) (results : Results) :
    Agrees (s.doGet parts results) := by
  unfold Session.doGet
  split
  next open_ =>
    split
    next _ key =>
      obtain ⟨ctx, found⟩ := agrees.handle open_
      have after := agrees.used open_ (.inl ⟨key, rfl⟩)
      simp only [Session.get, found]
      split
      · exact after.sendAll _
      · exact after.sendAll _
      next abort => exact absurd abort (Rc.ofRead_ne_abort _)
      · exact after.sendAll _
    next => exact agrees.sendAll _
  next => exact agrees.sendAll _

theorem doPut (agrees : Agrees s) (line : Bytes) (parts : List Bytes) (results : Results) :
    Agrees (s.doPut line parts results) := by
  unfold Session.doPut
  split
  next open_ =>
    split
    next _ key _ _ =>
      obtain ⟨ctx, found⟩ := agrees.handle open_
      have after := agrees.used open_ (.inr ⟨key, Session.putValue line, rfl⟩)
      simp only [Session.put, found]
      split
      · exact after.sendAll _
      next abort => exact absurd abort (Rc.ofWrite_ne_abort _)
      · exact after.sendAll _
    next => exact agrees.sendAll _
  next => exact agrees.sendAll _

theorem doCommit (agrees : Agrees s) (results : Results) : Agrees (s.doCommit results) := by
  unfold Session.doCommit
  split
  next open_ =>
    have after := agrees.committed open_ results
    dsimp only
    split <;> exact after.sendAll _
  next => exact agrees.sendAll _

theorem doAbort (agrees : Agrees s) : Agrees s.doAbort := by
  unfold Session.doAbort
  split
  next open_ => exact (agrees.aborted open_).sendAll _
  next => exact agrees.sendAll _

theorem quit (agrees : Agrees s) : Agrees s.quit := by
  obtain ⟨after, missing⟩ := agrees.abandon
  have said := after.sendAll (bytes "BYE\n")
  exact ⟨said.flag, said.history, fun _ => missing⟩

theorem dispatch (agrees : Agrees s) (live : s.running = true) (line : Bytes) (results : Results) :
    Agrees (s.dispatch line results) := by
  unfold Session.dispatch
  split
  next => exact agrees.sendAll _
  next word rest _ =>
    dsimp only
    split
    · exact agrees.start live results
    split
    · exact agrees.doGet _ results
    split
    · exact agrees.doPut line _ results
    split
    · exact agrees.doCommit results
    split
    · exact agrees.doAbort
    split
    · exact agrees.quit
    · exact agrees.sendAll _

theorem iterate (agrees : Agrees s) (live : s.running = true) (results : Results) :
    Agrees (s.iterate results) := by
  unfold Session.iterate
  split
  next rest _ =>
    obtain ⟨after, missing⟩ := agrees.abandon
    exact ⟨after.flag, after.history, fun _ => missing⟩
  next line rest _ => exact (agrees.withInput rest).dispatch live line results

end Agrees

theorem connected_agrees (input : Bytes) : Agrees (connected input) :=
  Agrees.sendAll ⟨rfl, .nil, fun _ => rfl⟩ _

theorem agrees_reachable {input : Bytes} {s : Session}
    (reach : Reachable Serve (connected input) s) : Agrees s := by
  refine reach.invariant Agrees (connected_agrees input) ?_
  intro state results next agrees taken
  unfold Serve serve at taken
  split at taken
  next live => cases taken; exact agrees.iterate live results
  next => cases taken

/-- Whatever a client sends and the storage returns: `in_txn` tells whether the handle is
null, at every action and between the iterations; the handle is never used while null; each
transaction begun is ended by one `commit` or `abort_txn`, which runs `finish`, before the next
begins and before `handle_client` returns. -/
theorem session_lifecycle {input : Bytes} {s : Session}
    (reach : Reachable Serve (connected input) s) :
    s.inTxn = s.tx.impl.isSome ∧
    (∀ entry ∈ s.log, entry.inTxn = entry.impl.isSome ∧ (entry.uses = true → entry.impl ≠ none)) ∧
    (∀ before entry after ctx, s.log = before ++ entry :: after → entry.action = .begin_txn ctx →
      let scope := after.takeWhile (fun entry => entry.begins = false)
      (∀ entry ∈ scope, entry.uses = true → entry.impl = some ctx) ∧
      ((scope.countP Entry.ends = 1 ∧ scope.countP Entry.finishes = 1) ∨
        (scope = after ∧ s.running = true ∧ s.tx.impl = some ctx ∧
          scope.countP Entry.ends = 0 ∧ scope.countP Entry.finishes = 0))) ∧
    s.log.countP Entry.begins =
      s.log.countP Entry.finishes + (if s.tx.impl.isSome then 1 else 0) := by
  obtain ⟨flag, history, returned⟩ := agrees_reachable reach
  refine ⟨flag, lifecycle_agrees history, ?_, ?_⟩
  · intro before entry after ctx split begins scope
    rw [split] at history
    have settled : ∀ other, Status.of s.tx.impl ≠ .ending other := by
      intro other
      cases s.tx.impl <;> exact Status.noConfusion
    obtain ⟨used, ended | ⟨all, open_, counts⟩⟩ := lifecycle_scope history begins settled
    · exact ⟨used, .inl ended⟩
    · have handle : s.tx.impl = some ctx := by
        cases found : s.tx.impl with
        | none => rw [found] at open_; exact Status.noConfusion open_
        | some other => rw [found] at open_; cases open_; rfl
      have running : s.running = true := by
        by_contra stopped
        rw [returned (Bool.eq_false_iff.mpr stopped)] at handle
        cases handle
      exact ⟨used, .inr ⟨all, running, handle, counts⟩⟩
  · have counted := lifecycle_count history
    cases found : s.tx.impl <;> simpa [found, Status.of, Status.owes] using counted

/-- A client that commits one transaction and disconnects inside the next. -/
theorem session_lifecycle_disconnect :
    ∃ s : Session, s.running = false ∧ s.log.countP Entry.begins = 2 ∧
      s.inTxn = s.tx.impl.isSome ∧
      s.log.countP Entry.begins = s.log.countP Entry.finishes + (if s.tx.impl.isSome then 1 else 0) := by
  obtain ⟨s, reach, checked⟩ := reachable_of_play serve
    (connected (bytes "START\nput a b\r\nCOMMIT\nSTART\nGET a"))
    (List.replicate 5 ⟨7, 1, .RCOK, [], .RCOK, .RCOK⟩)
    (fun s => s.running = false ∧ s.log.countP Entry.begins = 2) (by decide +kernel)
  obtain ⟨stopped, begun⟩ := of_decide_eq_true checked
  obtain ⟨flag, _, _, count⟩ := session_lifecycle reach
  exact ⟨s, stopped, begun, flag, count⟩

end DataAgentDB.Server
