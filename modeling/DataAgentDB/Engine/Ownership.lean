import DataAgentDB.Engine.Iteration
import DataAgentDB.Kv.History

/-! Who holds the open transactions of the store: each is the handle of one session, which began it
and is the only one to use it. -/

namespace DataAgentDB.Engine
open Storage Server LabelledRun
open Kv (Db Call Answer Sound Did)

/-- The open transactions of the store are the handles of the sessions, each of one session. -/
structure Owned (h : Host) : Prop where
  sound : Sound h.db
  agrees : ∀ fd s, h.sessions fd = some s → Agrees s
  opened : ∀ fd s t, h.sessions fd = some s → s.tx.impl = some t → (h.db.txns t).isSome = true
  owner : ∀ t, (h.db.txns t).isSome = true → ∃ fd s, h.sessions fd = some s ∧ s.tx.impl = some t
  apart : ∀ fd fd' s s' t, h.sessions fd = some s → h.sessions fd' = some s' →
    s.tx.impl = some t → s'.tx.impl = some t → fd = fd'

/-- The calls of kv_api made for one client. -/
def callsOf (fd : Nat) (trace : List Event) : List Kv.Event := trace.filterMap (Event.callOf fd)

/-- The calls that end a transaction. -/
def Ends (t : Nat) (call : Call) : Prop := call = .commit t ∨ call = .abort_txn t

/-- The START of a handle is a call of its session, made once; an ended transaction stays closed. -/
structure Begun (trace : List Event) (h : Host) : Prop where
  past : ∀ fd t, ⟨.begin_txn, .begun t⟩ ∈ callsOf fd trace → t < h.db.nextId
  own : ∀ fd s t, h.sessions fd = some s → s.tx.impl = some t → ⟨.begin_txn, .begun t⟩ ∈ callsOf fd trace
  once : ∀ fd fd' t, ⟨.begin_txn, .begun t⟩ ∈ callsOf fd trace → ⟨.begin_txn, .begun t⟩ ∈ callsOf fd' trace →
    fd = fd'
  ended : ∀ fd made t, made ∈ callsOf fd trace → Ends t made.call → t < h.db.nextId ∧ h.db.txns t = none

/-- Whether a transaction is open after a call. -/
def openAfter (db : Db) (u : Nat) : Call → Bool
  | .begin_txn => decide (u = db.nextId) || (db.txns u).isSome
  | .commit t | .abort_txn t => !decide (u = t) && (db.txns u).isSome
  | .get _ _ | .put _ _ _ => (db.txns u).isSome

section Calls
variable {hash : Bytes → Nat} {db next : Db} {call : Call} {answer : Answer}

theorem opened_did (did : Did hash db ⟨call, answer⟩ next) (u : Nat) :
    (next.txns u).isSome = openAfter db u call := by
  have moved : ∀ (t : Nat) (txn : Option Kv.Txn), (Function.update db.txns t txn u).isSome =
      if u = t then txn.isSome else (db.txns u).isSome := by
    intro t txn
    by_cases here : u = t
    · subst here
      simp
    · simp [here]
  cases did with
  | begun =>
    refine (moved _ _).trans ?_
    by_cases here : u = db.nextId <;> simp [openAfter, here]
  | @closed call t target closed =>
    have kept : (db.txns u).isSome = (!decide (u = t) && (db.txns u).isSome) := by
      by_cases here : u = t
      · subst here
        simp [closed]
      · simp [here]
    cases call with
    | begin_txn => cases target
    | get | put => rfl
    | commit | abort_txn => cases target; exact kept
  | missing | getConflict | putConflict => rfl
  | getMismatch opened | got opened | putMismatch opened | updated opened | inserted opened =>
    refine (moved _ _).trans ?_
    split
    next here => simp [openAfter, here, opened]
    next => rfl
  | committed | failed | aborted =>
    refine (moved _ _).trans ?_
    split
    next here => simp [openAfter, here]
    next apart => simp [openAfter, apart]

end Calls

section Sessions
variable {s : Session} {command : Command} {call : Call}

/-- A command is called only where `handle_client` admits it. -/
theorem admits_calling (calling : s.calling = some command) : command.admits s.inTxn = true := by
  unfold Session.calling at calling
  have aborting : ∀ {c : Command}, (if s.inTxn then some Command.abort else none) = some c →
      c.admits s.inTxn = true := by
    intro c chosen
    split at chosen
    next open_ => cases chosen; exact open_
    next => cases chosen
  split at calling
  · exact aborting calling
  · split at calling
    · exact aborting calling
    · obtain ⟨_, admitted⟩ := Option.filter_eq_some_iff.mp calling
      exact admitted

/-- A command other than `START` finds a handle. -/
theorem handle_calling (agrees : Agrees s) (calling : s.calling = some command) :
    (command = .start ∧ s.tx.impl = none) ∨ ∃ t, s.tx.impl = some t := by
  have admitted := admits_calling calling
  cases command with
  | start => exact .inl ⟨rfl, agrees.no_handle (by simpa [Command.admits] using admitted)⟩
  | _ => exact .inr (agrees.handle admitted)

theorem calling_of_quiet (agrees : Agrees s) (silent : kvCall s = none) : s.calling = none := by
  cases calling : s.calling with
  | none => rfl
  | some command =>
    unfold kvCall at silent
    rw [calling] at silent
    rcases handle_calling agrees calling with ⟨rfl, _⟩ | ⟨t, found⟩
    · cases silent
    · rw [found] at silent
      cases command <;> cases silent

/-- A call is that of the command, on the session's handle. -/
theorem calling_of_call (called : kvCall s = some call) :
    s.calling = some (commandOf call) ∧ ∀ t, call.target = some t → s.tx.impl = some t := by
  unfold kvCall at called
  obtain ⟨command, calling, on⟩ := Option.bind_eq_some_iff.mp called
  rw [calling]
  cases command with
  | start => cases on; exact ⟨rfl, fun _ target => nomatch target⟩
  | _ =>
    obtain ⟨t, found, rfl⟩ := Option.map_eq_some_iff.mp on
    refine ⟨rfl, fun u target => ?_⟩
    cases target
    exact found

end Sessions

section Steps
variable {hash : Bytes → Nat} {h next : Host} {event : Event} {trace : List Event}

theorem found_session {sessions : Nat → Option Session} {fd other : Nat} {given : Option Session} {s : Session}
    (found : Function.update sessions fd given other = some s) :
    (other = fd ∧ given = some s) ∨ (other ≠ fd ∧ sessions other = some s) := by
  by_cases same : other = fd
  · subst same
    exact .inl ⟨rfl, by simpa using found⟩
  · exact .inr ⟨same, by simpa [Function.update_of_ne same] using found⟩

/-- A session moves on without a call. -/
theorem Owned.keep (owned : Owned h) {fd : Nat} {s : Session} (agrees : Agrees s)
    (same : s.tx.impl = (h.sessions fd).bind (fun before => before.tx.impl)) : Owned (h.setSession fd s) := by
  have earlier : ∀ other s', (h.setSession fd s).sessions other = some s' → ∀ t, s'.tx.impl = some t →
      ∃ before, h.sessions other = some before ∧ before.tx.impl = some t := by
    intro other s' found t handle
    rcases found_session found with ⟨rfl, here⟩ | ⟨_, before⟩
    · cases here
      exact Option.bind_eq_some_iff.mp (same ▸ handle)
    · exact ⟨s', before, handle⟩
  refine ⟨owned.sound, ?_, ?_, ?_, ?_⟩
  · intro other s' found
    rcases found_session found with ⟨_, here⟩ | ⟨_, before⟩
    · cases here
      exact agrees
    · exact owned.agrees other s' before
  · intro other s' t found handle
    obtain ⟨before, was, handle'⟩ := earlier other s' found t handle
    exact owned.opened other before t was handle'
  · intro t opened
    obtain ⟨other, s', found, handle⟩ := owned.owner t opened
    by_cases here : other = fd
    · subst here
      exact ⟨other, s, Function.update_self _ _ _, by rw [same, found]; exact handle⟩
    · exact ⟨other, s', (Function.update_of_ne here _ _).trans found, handle⟩
  · intro first second s' s'' t found found' handle handle'
    obtain ⟨before, was, handle⟩ := earlier first s' found t handle
    obtain ⟨before', was', handle'⟩ := earlier second s'' found' t handle'
    exact owned.apart first second before before' t was was' handle handle'

/-- A session moves on with a call of its own. -/
theorem Owned.called (owned : Owned h) {fd : Nat} {s : Session} {call : Call} {answer : Answer} {db : Db}
    (found : h.sessions fd = some s) (running : s.running = true) (calls : kvCall s = some call)
    (did : Did hash h.db ⟨call, answer⟩ db) :
    Owned ({ h with db := db }.setSession fd (s.iterate (resultsOf answer))) := by
  have agrees := owned.agrees fd s found
  obtain ⟨calling, target⟩ := calling_of_call calls
  have impl := (iterated agrees (resultsOf answer)).impl
  rw [calling] at impl
  have opened := opened_did did
  -- the handle of the session is open in the new store, and no other session has it
  have own : ∀ t, (s.iterate (resultsOf answer)).tx.impl = some t →
      (db.txns t).isSome = true ∧ ∀ other s', other ≠ fd → h.sessions other = some s' → s'.tx.impl ≠ some t := by
    intro t handle
    rw [impl] at handle
    have kept : s.tx.impl = some t → ∀ other s', other ≠ fd → h.sessions other = some s' →
        s'.tx.impl ≠ some t :=
      fun mine other s' apart there theirs => apart (owned.apart other fd s' s t there found theirs mine)
    cases call with
    | begin_txn =>
      cases did with
      | closed target => cases target
      | begun =>
        cases handle
        refine ⟨(opened _).trans (by simp [openAfter, resultsOf]), fun other s' _ there theirs => ?_⟩
        obtain ⟨txn, before⟩ := Option.isSome_iff_exists.mp (owned.opened other s' _ there theirs)
        exact absurd (owned.sound.opened _ txn before).1 (lt_irrefl _)
    | get | put => exact ⟨(opened t).trans (owned.opened fd s t found handle), kept handle⟩
    | commit | abort_txn => cases handle
  have lost : ∀ t, s.tx.impl = some t → (s.iterate (resultsOf answer)).tx.impl = none →
      (db.txns t).isSome = false := by
    intro t handle gone
    rw [impl] at gone
    cases call with
    | begin_txn => cases gone
    | get u key =>
      exact absurd (handle.symm.trans gone) nofun
    | put u key value => exact absurd (handle.symm.trans gone) nofun
    | commit u | abort_txn u =>
      cases handle.symm.trans (target u rfl)
      rw [opened]
      simp [openAfter]
  have others : ∀ other s' t, other ≠ fd → h.sessions other = some s' → s'.tx.impl = some t →
      (db.txns t).isSome = true := by
    intro other s' t apart there theirs
    have before := owned.opened other s' t there theirs
    rw [opened]
    cases call with
    | begin_txn => simp [openAfter, before]
    | get | put => exact before
    | commit u | abort_txn u =>
      have differs : t ≠ u := by
        rintro rfl
        exact apart (owned.apart other fd s' s t there found theirs (target t rfl))
      simp [openAfter, before, differs]
  refine ⟨Kv.sound_did owned.sound did, ?_, ?_, ?_, ?_⟩
  · intro other s' found'
    rcases found_session found' with ⟨_, here⟩ | ⟨_, before⟩
    · cases here
      exact agrees.iterate running _
    · exact owned.agrees other s' before
  · intro other s' t found' handle
    rcases found_session found' with ⟨_, here⟩ | ⟨apart, before⟩
    · cases here
      exact (own t handle).1
    · exact others other s' t apart before handle
  · intro t there
    have mine : (s.iterate (resultsOf answer)).tx.impl = some t → ∃ fd' s',
        ({ h with db := db }.setSession fd (s.iterate (resultsOf answer))).sessions fd' = some s' ∧
          s'.tx.impl = some t :=
      fun handle => ⟨fd, _, Function.update_self _ _ _, handle⟩
    by_cases before : (h.db.txns t).isSome = true
    · obtain ⟨other, s', there', handle⟩ := owned.owner t before
      by_cases here : other = fd
      · subst here
        rw [found] at there'
        cases there'
        cases after : (s.iterate (resultsOf answer)).tx.impl with
        | none =>
          have closed := lost t handle after
          change (db.txns t).isSome = true at there
          rw [closed] at there
          cases there
        | some u =>
          rw [impl] at after
          refine mine (impl.trans ?_)
          cases call with
          | begin_txn =>
            have admitted := admits_calling calling
            rw [agrees.flag, handle] at admitted
            cases admitted
          | get | put => exact handle
          | commit | abort_txn => cases after
      · exact ⟨other, s', (Function.update_of_ne here _ _).trans there', handle⟩
    · change (db.txns t).isSome = true at there
      rw [opened] at there
      cases call with
      | begin_txn =>
        cases did with
        | closed target => cases target
        | begun =>
          have new : t = h.db.nextId := by simpa [openAfter, before] using there
          exact mine (impl.trans (congrArg some new.symm))
      | get | put => exact absurd there before
      | commit | abort_txn => simp [openAfter, before] at there
  · intro first second s' s'' t found' found'' handle handle'
    rcases found_session found' with ⟨rfl, here⟩ | ⟨apart, before⟩
    · cases here
      rcases found_session found'' with ⟨rfl, _⟩ | ⟨apart, before⟩
      · rfl
      · exact absurd handle' ((own t handle).2 second s'' apart before)
    · rcases found_session found'' with ⟨rfl, here⟩ | ⟨_, before'⟩
      · cases here
        exact absurd handle ((own t handle').2 first s' apart before)
      · exact owned.apart first second s' s'' t before before' handle handle'

theorem owned_started (hash : Bytes → Nat) (file : List (Bytes × Bytes)) : Owned (started hash file) where
  sound := Kv.initial_sound hash file
  agrees := fun _ _ found => nomatch found
  opened := fun _ _ _ found => nomatch found
  owner := fun _ found => nomatch found
  apart := fun _ _ _ _ _ found => nomatch found

theorem owned_took (owned : Owned h) (took : Took hash h event next) : Owned next := by
  cases took with
  | accepted free => exact owned.keep (connected_agrees _) (by rw [free]; rfl)
  | @quiet fd s found running silent =>
    have agrees := owned.agrees fd s found
    have impl := (iterated agrees (resultsOf (.code .ERROR))).impl
    rw [calling_of_quiet agrees silent] at impl
    exact owned.keep (agrees.iterate running _) (by rw [found]; exact impl)
  | called found running calls performed =>
    exact owned.called found running calls (Kv.did_of_step owned.sound performed)

theorem owned_run {file : List (Bytes × Bytes)} (run : Run (Step hash) Always (started hash file) trace h) :
    Owned h :=
  run.invariant (fun _ => Owned) (owned_started hash file)
    (fun _ _ _ _ owned _ taken => owned_took owned (step_cases taken))

theorem callsOf_snoc (fd : Nat) (trace : List Event) (event : Event) :
    callsOf fd (trace ++ [event]) = callsOf fd trace ++ (event.callOf fd).toList := by
  unfold callsOf
  rw [List.filterMap_append]
  cases made : event.callOf fd <;> simp [made]

theorem callOf_serve (fd other : Nat) (made : Kv.Event) :
    (Event.serve fd (some made)).callOf other = if fd = other then some made else none := rfl

/-- The next id after a call. -/
theorem nextId_did {db after : Db} {made : Kv.Event} (did : Did hash db made after) :
    after.nextId = db.nextId ∨ (made = ⟨.begin_txn, .begun db.nextId⟩ ∧ after.nextId = db.nextId + 1) := by
  cases did with
  | begun => exact .inr ⟨rfl, rfl⟩
  | _ => exact .inl rfl

/-- A step with no call of its own. -/
theorem Begun.keep (begun : Begun trace h) {fd : Nat} {s : Session} (silent : event.call = none)
    (same : s.tx.impl = (h.sessions fd).bind (fun before => before.tx.impl)) :
    Begun (trace ++ [event]) (h.setSession fd s) := by
  have calls : ∀ other, callsOf other (trace ++ [event]) = callsOf other trace := by
    intro other
    have none_made : event.callOf other = none := by
      cases event with
      | accept => rfl
      | serve here made =>
        change made = none at silent
        rw [silent]
        exact ite_self none
    rw [callsOf_snoc, none_made]
    exact List.append_nil _
  refine ⟨?_, ?_, ?_, ?_⟩
  · intro other t; rw [calls]; exact begun.past other t
  · intro other s' t found handle
    rw [calls]
    rcases found_session found with ⟨rfl, here⟩ | ⟨_, before⟩
    · cases here
      obtain ⟨before, was, handle⟩ := Option.bind_eq_some_iff.mp (same ▸ handle)
      exact begun.own _ before t was handle
    · exact begun.own other s' t before handle
  · intro first second t; rw [calls, calls]; exact begun.once first second t
  · intro other made t; rw [calls]; exact begun.ended other made t

/-- Where a call stands in the trace of a host: its transaction is open, and is the handle of the
session that began it. -/
theorem Begun.calling (begun : Begun trace h) (owned : Owned h) {fd : Nat} {s : Session} {call : Call} {t : Nat}
    (found : h.sessions fd = some s) (calls : kvCall s = some call) (target : call.target = some t) :
    ⟨.begin_txn, .begun t⟩ ∈ callsOf fd trace ∧
    (∀ other, ⟨.begin_txn, .begun t⟩ ∈ callsOf other trace → other = fd) ∧
    (∀ other, ∀ made ∈ callsOf other trace, ¬ Ends t made.call) := by
  have handle := (calling_of_call calls).2 t target
  have first := begun.own fd s t found handle
  refine ⟨first, fun other again => begun.once other fd t again first, ?_⟩
  intro other made member ends
  have closed := (begun.ended other made t member ends).2
  have open_ := owned.opened fd s t found handle
  rw [closed] at open_
  cases open_

theorem begun_took (owned : Owned h) (begun : Begun trace h) (took : Took hash h event next) :
    Begun (trace ++ [event]) next := by
  cases took with
  | accepted free => exact begun.keep rfl (by rw [free]; rfl)
  | @quiet fd s found running silent =>
    have agrees := owned.agrees fd s found
    have impl := (iterated agrees (resultsOf (.code .ERROR))).impl
    rw [calling_of_quiet agrees silent] at impl
    exact begun.keep rfl (by rw [found]; exact impl)
  | @called fd s call answer db found running calls performed =>
    have did := Kv.did_of_step owned.sound performed
    have agrees := owned.agrees fd s found
    obtain ⟨calling, target⟩ := calling_of_call calls
    have impl := (iterated agrees (resultsOf answer)).impl
    rw [calling] at impl
    have later : h.db.nextId ≤ db.nextId := by
      rcases nextId_did did with same | ⟨_, next⟩ <;> omega
    have members : ∀ other made, made ∈ callsOf other (trace ++ [.serve fd (some ⟨call, answer⟩)]) →
        made ∈ callsOf other trace ∨ (other = fd ∧ made = ⟨call, answer⟩) := by
      intro other made member
      rw [callsOf_snoc, callOf_serve] at member
      split at member
      next same => simpa [same, eq_comm] using member
      next => exact .inl (by simpa using member)
    have mono : ∀ other made, made ∈ callsOf other trace →
        made ∈ callsOf other (trace ++ [.serve fd (some ⟨call, answer⟩)]) := by
      intro other made member
      rw [callsOf_snoc]
      exact List.mem_append_left _ member
    have fresh : ∀ t, (⟨call, answer⟩ : Kv.Event) = ⟨.begin_txn, .begun t⟩ →
        t = h.db.nextId ∧ db.nextId = h.db.nextId + 1 := by
      intro t same
      cases same
      cases did with
      | begun => exact ⟨rfl, rfl⟩
    refine ⟨?_, ?_, ?_, ?_⟩
    · intro other t member
      rcases members other _ member with before | ⟨_, same⟩
      · exact (begun.past other t before).trans_le later
      · obtain ⟨rfl, grown⟩ := fresh t same.symm
        exact Nat.lt_of_lt_of_eq (Nat.lt_succ_self _) grown.symm
    · intro other s' t found' handle
      rcases found_session found' with ⟨rfl, here⟩ | ⟨_, before⟩
      · cases here
        rw [impl] at handle
        cases call with
        | begin_txn =>
          cases did with
          | closed target => cases target
          | begun =>
            cases handle
            rw [callsOf_snoc, callOf_serve]
            simp [resultsOf]
        | get | put => exact mono _ _ (begun.own _ s t found handle)
        | commit | abort_txn => cases handle
      · exact mono _ _ (begun.own other s' t before handle)
    · intro first second t member member'
      rcases members first _ member with before | ⟨rfl, same⟩
      · rcases members second _ member' with before' | ⟨_, same⟩
        · exact begun.once first second t before before'
        · obtain ⟨rfl, _⟩ := fresh t same.symm
          exact absurd (begun.past first _ before) (lt_irrefl _)
      · rcases members second _ member' with before' | ⟨rfl, _⟩
        · obtain ⟨rfl, _⟩ := fresh t same.symm
          exact absurd (begun.past second _ before') (lt_irrefl _)
        · rfl
    · intro other made t member ends
      have closedAfter : openAfter h.db t call = false → db.txns t = none := by
        intro closed
        rw [← opened_did did t] at closed
        exact Option.isSome_eq_false_iff.mp closed |> Option.isNone_iff_eq_none.mp
      rcases members other made member with before | ⟨rfl, rfl⟩
      · obtain ⟨bound, closed⟩ := begun.ended other made t before ends
        refine ⟨bound.trans_le later, closedAfter ?_⟩
        cases call with
        | begin_txn => simpa [openAfter, closed] using bound.ne
        | _ => simp [openAfter, closed]
      · refine ⟨?_, closedAfter ?_⟩
        · have handle : s.tx.impl = some t := target t (by rcases ends with same | same <;> cases same <;> rfl)
          obtain ⟨txn, there⟩ := Option.isSome_iff_exists.mp (owned.opened _ s t found handle)
          exact (owned.sound.opened t txn there).1.trans_le later
        · rcases ends with same | same <;> cases same <;> simp [openAfter]

theorem begun_run {file : List (Bytes × Bytes)} (run : Run (Step hash) Always (started hash file) trace h) :
    Owned h ∧ Begun trace h := by
  refine run.invariant (fun trace h => Owned h ∧ Begun trace h) ⟨owned_started hash file, ?_⟩ ?_
  · exact ⟨fun _ _ member => (List.not_mem_nil member).elim, fun _ _ _ found => (nomatch found),
      fun _ _ _ member => (List.not_mem_nil member).elim, fun _ _ _ member => (List.not_mem_nil member).elim⟩
  · rintro trace state event next ⟨owned, begun⟩ _ taken
    exact ⟨owned_took owned (step_cases taken), begun_took owned begun (step_cases taken)⟩

/-- A call in a trace was made by a session whose call it was, in a state the run passed through. -/
theorem called_of_mem {file : List (Bytes × Bytes)} (run : Run (Step hash) Always (started hash file) trace h)
    {before after : List Event} {fd : Nat} {made : Kv.Event} (parts : trace = before ++ .serve fd (some made) :: after) :
    ∃ (h : Host) (s : Session) (db : Db), Owned h ∧ Begun before h ∧ h.sessions fd = some s ∧
      kvCall s = some made.call ∧ Did hash h.db made db := by
  obtain ⟨_, first, _⟩ := run.split (before ++ [.serve fd (some made)]) after (by simp [parts])
  obtain ⟨middle, earlier, _, taken⟩ := first.last
  obtain ⟨owned, begun⟩ := begun_run earlier
  cases step_cases taken with
  | called found running calls performed =>
    exact ⟨middle, _, _, owned, begun, found, calls, Kv.did_of_step owned.sound performed⟩

end Steps

/-- Whatever the clients send and however their sessions are interleaved: the open transactions are
the handles of the running sessions, one for each; a call is made by the session that began its
transaction, before that is ended; and only a put is ever answered `ERROR`. -/
theorem sessions_own_transactions {hash : Bytes → Nat} {file : List (Bytes × Bytes)} {trace : List Event}
    {h : Host} (run : Run (Step hash) Always (started hash file) trace h) :
    (∀ t, (h.db.txns t).isSome = true ↔
      ∃ fd s, h.sessions fd = some s ∧ s.running = true ∧ s.tx.impl = some t) ∧
    (∀ fd fd' s s' t, h.sessions fd = some s → h.sessions fd' = some s' →
      s.tx.impl = some t → s'.tx.impl = some t → fd = fd') ∧
    (∀ before after fd made t, trace = before ++ .serve fd (some made) :: after → made.call.target = some t →
      ⟨.begin_txn, .begun t⟩ ∈ callsOf fd before ∧
      (∀ other, ⟨.begin_txn, .begun t⟩ ∈ callsOf other before → other = fd) ∧
      ∀ other, ∀ earlier ∈ callsOf other before, ¬ Ends t earlier.call) ∧
    ∀ fd made, .serve fd (some made) ∈ trace → made.answer = .code .ERROR →
      ∃ t key value, made.call = .put t key value := by
  have owned := owned_run run
  refine ⟨fun t => ⟨fun opened => ?_, ?_⟩, owned.apart, ?_, ?_⟩
  · obtain ⟨fd, s, found, handle⟩ := owned.owner t opened
    refine ⟨fd, s, found, ?_, handle⟩
    cases running : s.running with
    | true => rfl
    | false => exact absurd (handle.symm.trans ((owned.agrees fd s found).returned running)) nofun
  · rintro ⟨fd, s, found, _, handle⟩
    exact owned.opened fd s t found handle
  · intro before after fd made t parts target
    obtain ⟨_, _, _, owned, begun, found, calls, _⟩ := called_of_mem run parts
    exact begun.calling owned found calls target
  · intro fd made member error
    obtain ⟨before, after, parts⟩ := List.append_of_mem member
    obtain ⟨h, s, db, owned, _, found, calls, did⟩ := called_of_mem run parts
    obtain ⟨call, answer⟩ := made
    cases error
    generalize same : Answer.code .ERROR = answer at did
    cases did with
    | @closed call t target closed =>
      have open_ := owned.opened fd s t found ((calling_of_call calls).2 t target)
      rw [closed] at open_
      cases open_
    | putConflict | putMismatch => exact ⟨_, _, _, rfl⟩
    | begun | missing | getConflict | getMismatch | got | updated | inserted | committed | failed | aborted =>
      cases same

/-- Two clients; the second leaves inside its transaction, which its session rolls back. -/
theorem sessions_own_transactions_two :
    ∃ (trace : List Event) (h : Host),
      Run (Step Kv.numeral) Always (started Kv.numeral [(bytes "a", bytes "x")]) trace h ∧
      .serve 8 (some ⟨.abort_txn 2, .code .OK⟩) ∈ trace ∧
      (∀ t, (h.db.txns t).isSome = true ↔
        ∃ fd s, h.sessions fd = some s ∧ s.running = true ∧ s.tx.impl = some t) ∧
      h.db.txns 2 = none ∧ (h.db.txns 1).isSome = true := by
  have played : ((play (Host.next Kv.numeral) (started Kv.numeral [(bytes "a", bytes "x")])
      [.accept 7 (bytes "START\nPUT a y\n"), .accept 8 (bytes "START\nGET a\n"),
        .serve 7 (some ⟨.begin_txn, .begun 1⟩), .serve 8 (some ⟨.begin_txn, .begun 2⟩),
        .serve 7 (some ⟨.put 1 (bytes "a") (bytes "y"), .code .OK⟩),
        .serve 8 (some ⟨.get 2 (bytes "a"), .value (bytes "x")⟩),
        .serve 8 (some ⟨.abort_txn 2, .code .OK⟩)]).map
      (fun h => (h.db.txns 1).isSome && (h.db.txns 2).isNone)) = some true := by decide +kernel
  obtain ⟨h, ran, opened⟩ := Option.map_eq_some_iff.mp played
  simp only [Bool.and_eq_true, Option.isNone_iff_eq_none] at opened
  have run : Run (Step Kv.numeral) Always (started Kv.numeral [(bytes "a", bytes "x")]) _ h := run_of_play ran
  exact ⟨_, h, run, by simp, (sessions_own_transactions run).1, opened.2, opened.1⟩

end DataAgentDB.Engine
