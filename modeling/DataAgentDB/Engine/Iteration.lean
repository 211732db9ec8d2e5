import DataAgentDB.Engine.Host

/-! What one iteration of a session does: the command it calls kv_api for, the handle after it, and
whether it acknowledges a commit. -/

namespace DataAgentDB.Engine
open Storage Server LabelledRun

def okCommit : Bytes := bytes "OK COMMIT\n"

/-- The handle after a command's call. -/
def handleAfter (impl : Option Nat) (results : Results) : Option Command → Option Nat
  | some .start => some results.ctx
  | some .commit | some .abort => none
  | _ => impl

/-- The commits a command acknowledges. -/
def acknowledges (results : Results) (command : Option Command) : Nat :=
  if command = some .commit ∧ Rc.ofFinish results.finish = .OK then 1 else 0

/-- From `s` to `next` one iteration called kv_api for the command, if any. -/
structure Iterated (s : Session) (command : Option Command) (results : Results) (next : Session) : Prop where
  calls : calls next.log = calls s.log ++ command.toList
  impl : next.tx.impl = handleAfter s.tx.impl results command
  acked : (replies next.log).count okCommit = (replies s.log).count okCommit + acknowledges results command

variable {s middle next : Session} {command : Option Command} {results : Results}

/-- A branch whose calls and replies are known. -/
theorem Iterated.of_exchanged {said : List Bytes} (exchanged : Exchanged s command.toList said next)
    (impl : next.tx.impl = handleAfter s.tx.impl results command)
    (acked : said.count okCommit = acknowledges results command) : Iterated s command results next :=
  ⟨exchanged.calls, impl, by rw [exchanged.replies, List.count_append, acked]⟩

theorem Iterated.sendAll {text : Bytes} (other : text ≠ okCommit) : Iterated s none results (s.sendAll text) :=
  .of_exchanged (Exchanged.sendAll s text) rfl (by rw [List.count_singleton]; simp [other, acknowledges])

/-- Only a commit that went well is answered so. -/
theorem count_answer (command : Command) (inTxn : Bool) (results : Results) :
    [command.answer inTxn results].count okCommit =
      acknowledges results (if command.admits inTxn then some command else none) := by
  have value : ∀ rest : Bytes, bytes "OK VALUE " ++ rest ≠ okCommit := by
    intro rest same
    have fourth : (bytes "OK VALUE " ++ rest)[3]? = some 86 := rfl
    rw [same] at fourth
    exact absurd fourth (by decide)
  have begun : ∀ rest : Bytes, bytes "OK TXN " ++ rest ≠ okCommit := by
    intro rest same
    have fourth : (bytes "OK TXN " ++ rest)[3]? = some 84 := rfl
    rw [same] at fourth
    exact absurd fourth (by decide)
  have fixed : ∀ text : Bytes, (text == okCommit) = false → [text].count okCommit = 0 := by
    intro text other
    rw [List.count_singleton, other]
    rfl
  have fresh : ∀ text : Bytes, text ≠ okCommit → [text].count okCommit = 0 :=
    fun text other => fixed text (by simpa using other)
  cases inTxn with
  | false =>
    cases command with
    | start =>
      simp only [Command.answer, Command.admits, acknowledges, Bool.false_eq_true, if_false, List.append_assoc]
      exact fresh _ (begun _)
    | _ => exact fixed (bytes "ERR NO_ACTIVE_TXN\n") (by decide)
  | true =>
    cases command with
    | start => exact fixed (bytes "ERR TXN_ALREADY_STARTED\n") (by decide)
    | get key =>
      simp only [Command.answer, Command.admits, acknowledges, if_true, List.append_assoc]
      split
      · exact fresh _ (value _)
      · exact fixed _ (by decide)
    | put key text =>
      simp only [Command.answer, Command.admits, acknowledges, if_true]
      split <;> exact fixed _ (by decide)
    | commit =>
      simp only [Command.answer, Command.admits, acknowledges, if_true, Rc.ofFinish, true_and]
      by_cases fine : results.finish = .RCOK ∨ results.finish = .Commit
      · rw [if_pos fine, if_pos fine]
        rfl
      · rw [if_neg fine, if_neg fine]
        exact fixed _ (by decide)
    | abort => exact fixed (bytes "OK ABORT\n") (by decide)

theorem impl_start (s : Session) (results : Results) :
    (s.start results).tx.impl = if s.inTxn then s.tx.impl else some results.ctx := by
  unfold Session.start
  split <;> rfl

theorem impl_get (s : Session) (key : Bytes) (results : Results) : (s.get key results).2.tx = s.tx := by
  unfold Session.get
  split <;> rfl

theorem impl_put (s : Session) (key value : Bytes) (results : Results) :
    (s.put key value results).2.tx = s.tx := by
  unfold Session.put
  split <;> rfl

theorem impl_doGet (s : Session) (parts : List Bytes) (results : Results) :
    (s.doGet parts results).tx = s.tx := by
  unfold Session.doGet
  split
  · split
    next _ key =>
      have same := impl_get s key results
      generalize s.get key results = outcome at same ⊢
      obtain ⟨rc, after⟩ := outcome
      cases rc <;> exact same
    · rfl
  · rfl

theorem impl_doPut (s : Session) (line : Bytes) (parts : List Bytes) (results : Results) :
    (s.doPut line parts results).tx = s.tx := by
  unfold Session.doPut
  split
  · split
    next _ key _ _ =>
      have same := impl_put s key (Session.putValue line) results
      generalize s.put key (Session.putValue line) results = outcome at same ⊢
      obtain ⟨rc, after⟩ := outcome
      cases rc <;> exact same
    · rfl
  · rfl

theorem impl_commit (s : Session) (results : Results) : (s.commit results).2.tx.impl = none := by
  unfold Session.commit
  dsimp only
  split
  next missing => exact missing
  · rfl

theorem impl_abortTxn (s : Session) : s.abortTxn.2.tx.impl = none := by
  unfold Session.abortTxn
  dsimp only
  split
  next missing => exact missing
  · rfl

theorem impl_doCommit (s : Session) (results : Results) :
    (s.doCommit results).tx.impl = if s.inTxn then none else s.tx.impl := by
  unfold Session.doCommit
  split
  · have gone := impl_commit s results
    generalize s.commit results = outcome at gone ⊢
    obtain ⟨rc, after⟩ := outcome
    cases rc <;> exact gone
  · rfl

theorem impl_doAbort (s : Session) : s.doAbort.tx.impl = if s.inTxn then none else s.tx.impl := by
  unfold Session.doAbort
  split
  · exact impl_abortTxn s
  · rfl

/-- A line with a command leaves the handle as its call does. -/
theorem impl_dispatch {line : Bytes} {command : Command} (parsed : parse line = some command)
    (s : Session) (results : Results) :
    (s.dispatch line results).tx.impl =
      handleAfter s.tx.impl results (if command.admits s.inTxn then some command else none) := by
  unfold parse at parsed
  unfold Session.dispatch
  cases tokens : splitWs line with
  | nil => simp [tokens] at parsed
  | cons word rest =>
    simp only [tokens] at parsed ⊢
    split at parsed
    next isStart =>
      cases parsed
      rw [if_pos isStart, impl_start]
      cases s.inTxn <;> rfl
    next noStart =>
    rw [if_neg noStart]
    split at parsed
    next isGet =>
      rw [if_pos isGet, impl_doGet]
      split at parsed
      next => cases parsed; cases s.inTxn <;> rfl
      next => cases parsed
    next noGet =>
    rw [if_neg noGet]
    split at parsed
    next isPut =>
      rw [if_pos isPut, impl_doPut]
      split at parsed
      next => cases parsed; cases s.inTxn <;> rfl
      next => cases parsed
    next noPut =>
    rw [if_neg noPut]
    split at parsed
    next isCommit =>
      cases parsed
      rw [if_pos isCommit, impl_doCommit]
      cases s.inTxn <;> rfl
    next noCommit =>
    rw [if_neg noCommit]
    split at parsed
    next isAbort =>
      cases parsed
      rw [if_pos isAbort, impl_doAbort]
      cases s.inTxn <;> rfl
    next => cases parsed

/-- A line without a command ends the session, or is refused. -/
theorem dispatch_unparsed {line : Bytes} (unparsed : parse line = none) (s : Session) (results : Results) :
    (quits line = true ∧ s.dispatch line results = s.quit) ∨
      (quits line = false ∧ ∃ text, text ≠ okCommit ∧ s.dispatch line results = s.sendAll text) := by
  unfold parse at unparsed
  unfold Session.dispatch quits
  cases tokens : splitWs line with
  | nil => exact .inr ⟨rfl, _, by decide, rfl⟩
  | cons word rest =>
    simp only [tokens] at unparsed ⊢
    have other : ∀ cmd, upper word = cmd → ¬ (cmd = bytes "END" ∨ cmd = bytes "QUIT" ∨ cmd = bytes "EXIT") →
        decide (upper word = bytes "END" ∨ upper word = bytes "QUIT" ∨ upper word = bytes "EXIT") = false := by
      rintro cmd rfl goes_on
      exact decide_eq_false goes_on
    split at unparsed
    next => cases unparsed
    next noStart =>
    rw [if_neg noStart]
    split at unparsed
    next isGet =>
      rw [if_pos isGet]
      refine .inr ⟨other _ isGet (by decide), ?_⟩
      unfold Session.doGet
      split
      · rcases rest with _ | ⟨key, _ | ⟨second, more⟩⟩
        · exact ⟨_, by decide, rfl⟩
        · cases unparsed
        · exact ⟨_, by decide, rfl⟩
      · exact ⟨_, by decide, rfl⟩
    next noGet =>
    rw [if_neg noGet]
    split at unparsed
    next isPut =>
      rw [if_pos isPut]
      refine .inr ⟨other _ isPut (by decide), ?_⟩
      unfold Session.doPut
      split
      · rcases rest with _ | ⟨key, _ | ⟨third, more⟩⟩
        · exact ⟨_, by decide, rfl⟩
        · exact ⟨_, by decide, rfl⟩
        · cases unparsed
      · exact ⟨_, by decide, rfl⟩
    next noPut =>
    rw [if_neg noPut]
    split at unparsed
    next => cases unparsed
    next noCommit =>
    rw [if_neg noCommit]
    split at unparsed
    next => cases unparsed
    next noAbort =>
    rw [if_neg noAbort]
    by_cases ends : upper word = bytes "END" ∨ upper word = bytes "QUIT" ∨ upper word = bytes "EXIT"
    · exact .inl ⟨decide_eq_true ends, if_pos ends⟩
    · exact .inr ⟨decide_eq_false ends, _, by decide, if_neg ends⟩

/-- A line with a command does not end the session. -/
theorem quits_parsed {line : Bytes} {command : Command} (parsed : parse line = some command) :
    quits line = false := by
  unfold parse at parsed
  unfold quits
  cases tokens : splitWs line with
  | nil => rfl
  | cons word rest =>
    simp only [tokens] at parsed ⊢
    refine decide_eq_false (fun ends => ?_)
    have unknown : ∀ cmd, upper word = cmd → cmd ≠ bytes "START" → cmd ≠ bytes "GET" → cmd ≠ bytes "PUT" →
        cmd ≠ bytes "COMMIT" → cmd ≠ bytes "ABORT" → False := by
      rintro cmd rfl noStart noGet noPut noCommit noAbort
      rw [if_neg noStart, if_neg noGet, if_neg noPut, if_neg noCommit, if_neg noAbort] at parsed
      cases parsed
    rcases ends with same | same | same <;>
      exact unknown _ same (by decide) (by decide) (by decide) (by decide) (by decide)

theorem Iterated.abandon (agrees : Agrees s) (results : Results) :
    Iterated s (if s.inTxn then some .abort else none) results s.abandon := by
  have exchanged := Exchanged.abandon s
  have impl := agrees.abandon.2
  cases open_ : s.inTxn with
  | true =>
    rw [open_] at exchanged
    exact .of_exchanged exchanged impl (by simp [acknowledges])
  | false =>
    rw [open_] at exchanged
    exact .of_exchanged exchanged (impl.trans (agrees.no_handle open_).symm) (by simp [acknowledges])

/-- What a session makes of one line. -/
theorem Iterated.dispatch (agrees : Agrees s) (line : Bytes) (results : Results) :
    Iterated s (if quits line then if s.inTxn then some .abort else none
      else (parse line).filter (fun command => command.admits s.inTxn)) results (s.dispatch line results) := by
  cases parsed : parse line with
  | some command =>
    have handled := Handled.dispatch agrees.flag parsed results
    have impl := impl_dispatch parsed s results
    have acked := count_answer command s.inTxn results
    rw [quits_parsed parsed, if_neg Bool.false_ne_true, Option.filter_some]
    refine .of_exchanged ?_ impl acked
    have exchanged := handled.exchanged
    split at exchanged
    next admitted => rw [if_pos admitted]; exact exchanged
    next refused => rw [if_neg refused]; exact exchanged
  | none =>
    rcases dispatch_unparsed parsed s results with ⟨ends, same⟩ | ⟨goes_on, text, other, same⟩
    · rw [ends, if_pos rfl, same]
      have left := Iterated.abandon agrees results
      have said : Iterated s.abandon none results (s.abandon.sendAll (bytes "BYE\n")) := .sendAll (by decide)
      refine ⟨?_, left.impl, ?_⟩
      · rw [← left.calls]
        exact said.calls.trans (List.append_nil _)
      · rw [← left.acked]
        exact said.acked
    · rw [goes_on, same]
      exact .sendAll other

theorem iterated (agrees : Agrees s) (results : Results) :
    Iterated s s.calling results (s.iterate results) := by
  unfold Session.calling Session.iterate
  rcases readLine [] s.input with ⟨_ | line, rest⟩
  · obtain ⟨calls, impl, acked⟩ := Iterated.abandon agrees results
    exact ⟨calls, impl, acked⟩
  · obtain ⟨calls, impl, acked⟩ := Iterated.dispatch (agrees.withInput rest) line results
    exact ⟨calls, impl, acked⟩

end DataAgentDB.Engine
