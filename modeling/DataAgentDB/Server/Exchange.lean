import DataAgentDB.Server.Lifecycle

/-! What a session exchanges: its calls of kv_api and its replies, branch by branch. -/

namespace DataAgentDB.Server
open Storage LabelledRun

/-- The commands a client can give. -/
inductive Command where
  | start
  | get (key : Bytes)
  | put (key value : Bytes)
  | commit
  | abort
  deriving DecidableEq, Repr

/-- The command a kv_api call carries out. -/
def Entry.call (entry : Entry) : Option Command :=
  match entry.action with
  | .begin_txn _ => some .start
  | .get key => some (.get key)
  | .put key value => some (.put key value)
  | .commit => some .commit
  | .abort_txn => some .abort
  | .send _ | .finish _ _ => none

def Entry.reply (entry : Entry) : Option Bytes :=
  match entry.action with
  | .send text => some text
  | _ => none

def calls (log : List Entry) : List Command := log.filterMap Entry.call

def replies (log : List Entry) : List Bytes := log.filterMap Entry.reply

/-- From `s` to `next` the session made these calls and gave these replies, and read nothing. -/
structure Exchanged (s : Session) (called : List Command) (said : List Bytes) (next : Session) : Prop where
  calls : calls next.log = calls s.log ++ called
  replies : replies next.log = replies s.log ++ said
  input : next.input = s.input

namespace Exchanged

variable {s middle next : Session} {first second : List Command} {before after : List Bytes}

theorem refl (s : Session) : Exchanged s [] [] s :=
  ⟨(List.append_nil _).symm, (List.append_nil _).symm, rfl⟩

theorem trans (one : Exchanged s first before middle) (two : Exchanged middle second after next) :
    Exchanged s (first ++ second) (before ++ after) next := by
  refine ⟨?_, ?_, two.input.trans one.input⟩
  · rw [two.calls, one.calls, List.append_assoc]
  · rw [two.replies, one.replies, List.append_assoc]

theorem note (s : Session) (action : Action) :
    Exchanged s (Entry.call ⟨action, s.inTxn, s.tx.impl⟩).toList
      (Entry.reply ⟨action, s.inTxn, s.tx.impl⟩).toList (s.note action) := by
  refine ⟨?_, ?_, rfl⟩
  · rw [Server.calls, Session.note, List.filterMap_append]
    rfl
  · rw [Server.replies, Session.note, List.filterMap_append]
    rfl

theorem sendAll (s : Session) (text : Bytes) : Exchanged s [] [text] (s.sendAll text) :=
  note s (.send text)

/-- A reply after the calls of a branch. -/
theorem andSend (one : Exchanged s first [] middle) (text : Bytes) :
    Exchanged s first [text] (middle.sendAll text) := by
  have both := one.trans (sendAll middle text)
  rwa [List.append_nil, List.nil_append] at both

/-- Neither the flag nor the handle is part of an exchange. -/
theorem withState (one : Exchanged s first before next) (inTxn running : Bool) (tx : TxnHandle) :
    Exchanged s first before { next with inTxn := inTxn, running := running, tx := tx } :=
  ⟨one.calls, one.replies, one.input⟩

theorem beginTxn (s : Session) (results : Results) :
    Exchanged s [.start] [] (s.beginTxn results).2 :=
  (note s (.begin_txn results.ctx)).withState _ _ _

theorem get (s : Session) (key : Bytes) (results : Results) :
    Exchanged s [.get key] [] (s.get key results).2 := by
  unfold Session.get
  split <;> exact note s (.get key)

theorem put (s : Session) (key value : Bytes) (results : Results) :
    Exchanged s [.put key value] [] (s.put key value results).2 := by
  unfold Session.put
  split <;> exact note s (.put key value)

theorem commit (s : Session) (results : Results) : Exchanged s [.commit] [] (s.commit results).2 := by
  have called := note s .commit
  unfold Session.commit
  dsimp only
  split
  · exact called
  · exact (called.trans (note _ (.finish _ .RCOK))).withState _ _ _

theorem abortTxn (s : Session) : Exchanged s [.abort] [] s.abortTxn.2 := by
  have called := note s .abort_txn
  unfold Session.abortTxn
  dsimp only
  split
  · exact called
  · exact (called.trans (note _ (.finish _ .Abort))).withState _ _ _

theorem abandon (s : Session) :
    Exchanged s (if s.inTxn then [.abort] else []) [] s.abandon := by
  unfold Session.abandon
  split
  · exact (abortTxn s).withState _ _ _
  · exact refl s

end Exchanged

/-- The command of a line, as `handle_client` takes it apart; `none` for the other lines. -/
def parse (line : Bytes) : Option Command :=
  match splitWs line with
  | [] => none
  | word :: rest =>
      let cmd := upper word
      if cmd = bytes "START" then some .start
      else if cmd = bytes "GET" then
        match rest with
        | [key] => some (.get key)
        | _ => none
      else if cmd = bytes "PUT" then
        match rest with
        | key :: _ :: _ => some (.put key (Session.putValue line))
        | _ => none
      else if cmd = bytes "COMMIT" then some .commit
      else if cmd = bytes "ABORT" then some .abort
      else none

namespace Command

/-- Whether a command is carried out: `START` outside a transaction, the others inside one. -/
def admits (inTxn : Bool) : Command → Bool
  | .start => !inTxn
  | _ => inTxn

/-- `in_txn` after a command. -/
def after (inTxn : Bool) : Command → Bool
  | .start => true
  | .get _ | .put _ _ => inTxn
  | .commit | .abort => false

/-- The reply to a command, by `in_txn` and by what the storage returns. -/
def answer (inTxn : Bool) (results : Results) : Command → Bytes
  | .start =>
      if inTxn then bytes "ERR TXN_ALREADY_STARTED\n"
      else bytes "OK TXN " ++ bytes (toString results.id) ++ bytes "\n"
  | .get _ =>
      if inTxn then
        if results.read = .RCOK then bytes "OK VALUE " ++ results.value ++ bytes "\n"
        else bytes "ERR NOT_FOUND\n"
      else bytes "ERR NO_ACTIVE_TXN\n"
  | .put _ _ =>
      if inTxn then if results.write = .RCOK then bytes "OK\n" else bytes "ERR PUT_FAIL\n"
      else bytes "ERR NO_ACTIVE_TXN\n"
  | .commit =>
      if inTxn then
        if results.finish = .RCOK ∨ results.finish = .Commit then bytes "OK COMMIT\n"
        else bytes "ERR ABORT\n"
      else bytes "ERR NO_ACTIVE_TXN\n"
  | .abort => if inTxn then bytes "OK ABORT\n" else bytes "ERR NO_ACTIVE_TXN\n"

end Command

/-- `next` is the session after one command. -/
structure Handled (s : Session) (command : Command) (results : Results) (next : Session) : Prop where
  exchanged : Exchanged s (if command.admits s.inTxn then [command] else [])
    [command.answer s.inTxn results] next
  inTxn : next.inTxn = command.after s.inTxn
  running : next.running = s.running

namespace Handled

variable {s : Session}

theorem start (s : Session) (results : Results) : Handled s .start results (s.start results) := by
  unfold Session.start
  split
  next open_ =>
    refine ⟨?_, open_, rfl⟩
    simp only [Command.admits, Command.answer, open_]
    exact Exchanged.sendAll s _
  next closed =>
    have closed := Bool.eq_false_iff.mpr closed
    refine ⟨?_, rfl, rfl⟩
    simp only [Command.admits, Command.answer, closed]
    exact ((Exchanged.beginTxn s results).withState _ _ _).andSend _

theorem get (handle : s.inTxn = s.tx.impl.isSome) (word key : Bytes) (results : Results) :
    Handled s (.get key) results (s.doGet [word, key] results) := by
  unfold Session.doGet
  split
  next open_ =>
    obtain ⟨ctx, found⟩ := Option.isSome_iff_exists.mp (handle.symm.trans open_)
    have asked := Exchanged.get s key results
    simp only [Session.get, found, Rc.ofRead] at asked ⊢
    by_cases fine : results.read = .RCOK
    · simp only [if_pos fine]
      refine ⟨?_, rfl, rfl⟩
      simp only [Command.admits, Command.answer, open_, if_pos fine]
      exact asked.andSend _
    · simp only [if_neg fine]
      refine ⟨?_, rfl, rfl⟩
      simp only [Command.admits, Command.answer, open_, if_neg fine]
      exact asked.andSend _
  next closed =>
    refine ⟨?_, rfl, rfl⟩
    simp only [Command.admits, Command.answer, Bool.eq_false_iff.mpr closed]
    exact Exchanged.sendAll s _

theorem put (handle : s.inTxn = s.tx.impl.isSome) (line word key third : Bytes) (more : List Bytes)
    (results : Results) :
    Handled s (.put key (Session.putValue line)) results
      (s.doPut line (word :: key :: third :: more) results) := by
  unfold Session.doPut
  split
  next open_ =>
    obtain ⟨ctx, found⟩ := Option.isSome_iff_exists.mp (handle.symm.trans open_)
    have asked := Exchanged.put s key (Session.putValue line) results
    simp only [Session.put, found, Rc.ofWrite] at asked ⊢
    by_cases fine : results.write = .RCOK
    · simp only [if_pos fine]
      refine ⟨?_, rfl, rfl⟩
      simp only [Command.admits, Command.answer, open_, if_pos fine]
      exact asked.andSend _
    · simp only [if_neg fine]
      refine ⟨?_, rfl, rfl⟩
      simp only [Command.admits, Command.answer, open_, if_neg fine]
      exact asked.andSend _
  next closed =>
    refine ⟨?_, rfl, rfl⟩
    simp only [Command.admits, Command.answer, Bool.eq_false_iff.mpr closed]
    exact Exchanged.sendAll s _

theorem commit (handle : s.inTxn = s.tx.impl.isSome) (results : Results) :
    Handled s .commit results (s.doCommit results) := by
  unfold Session.doCommit
  split
  next open_ =>
    obtain ⟨ctx, found⟩ := Option.isSome_iff_exists.mp (handle.symm.trans open_)
    have asked := Exchanged.commit s results
    have code : (s.commit results).1 = Rc.ofFinish results.finish := by
      simp only [Session.commit, Session.note, found]
    have same : (s.commit results).2.running = s.running := by
      simp only [Session.commit, Session.note, found]
    generalize s.commit results = outcome at asked code same ⊢
    obtain ⟨rc, done⟩ := outcome
    dsimp only at asked code same ⊢
    subst code
    unfold Rc.ofFinish
    by_cases fine : results.finish = .RCOK ∨ results.finish = .Commit
    · simp only [if_pos fine]
      refine ⟨?_, rfl, same⟩
      simp only [Command.admits, Command.answer, open_, if_pos fine]
      exact (asked.withState _ _ _).andSend _
    · simp only [if_neg fine]
      refine ⟨?_, rfl, same⟩
      simp only [Command.admits, Command.answer, open_, if_neg fine]
      exact (asked.withState _ _ _).andSend _
  next closed =>
    have closed := Bool.eq_false_iff.mpr closed
    refine ⟨?_, closed, rfl⟩
    simp only [Command.admits, Command.answer, closed]
    exact Exchanged.sendAll s _

theorem abort (s : Session) (results : Results) : Handled s .abort results s.doAbort := by
  have same : s.abortTxn.2.running = s.running := by
    unfold Session.abortTxn
    dsimp only
    split <;> rfl
  unfold Session.doAbort
  split
  next open_ =>
    refine ⟨?_, rfl, same⟩
    simp only [Command.admits, Command.answer, open_]
    exact ((Exchanged.abortTxn s).withState _ _ _).andSend _
  next closed =>
    have closed := Bool.eq_false_iff.mpr closed
    refine ⟨?_, closed, rfl⟩
    simp only [Command.admits, Command.answer, closed]
    exact Exchanged.sendAll s _

/-- A line with a command is dispatched as that command. -/
theorem dispatch (handle : s.inTxn = s.tx.impl.isSome) {line : Bytes} {command : Command}
    (parsed : parse line = some command) (results : Results) :
    Handled s command results (s.dispatch line results) := by
  unfold parse at parsed
  unfold Session.dispatch
  cases tokens : splitWs line with
  | nil =>
    simp only [tokens] at parsed
    cases parsed
  | cons word rest =>
    simp only [tokens] at parsed ⊢
    split at parsed
    next isStart =>
      cases parsed
      rw [if_pos isStart]
      exact start s results
    next noStart =>
    rw [if_neg noStart]
    split at parsed
    next isGet =>
      rw [if_pos isGet]
      split at parsed
      next key => cases parsed; exact get handle word key results
      next => cases parsed
    next noGet =>
    rw [if_neg noGet]
    split at parsed
    next isPut =>
      rw [if_pos isPut]
      split at parsed
      next key third more => cases parsed; exact put handle line word key third more results
      next => cases parsed
    next noPut =>
    rw [if_neg noPut]
    split at parsed
    next isCommit =>
      cases parsed
      rw [if_pos isCommit]
      exact commit handle results
    next noCommit =>
    rw [if_neg noCommit]
    split at parsed
    next isAbort =>
      cases parsed
      rw [if_pos isAbort]
      exact abort s results
    next => cases parsed

end Handled

end DataAgentDB.Server
