import DataAgentDB.Kv.Sound
import DataAgentDB.Lib.Refines
import DataAgentDB.Server.Exchange

/-! The server as a whole (main.cpp): any number of sessions, each in a thread of its own, over one
store. Serving a line is one step, with the kv_api call it makes, if any. -/

namespace DataAgentDB.Server
open Storage

/-- A line whose first word ends the session. -/
def quits (line : Bytes) : Bool :=
  match splitWs line with
  | [] => false
  | word :: _ =>
      let cmd := upper word
      decide (cmd = bytes "END" ∨ cmd = bytes "QUIT" ∨ cmd = bytes "EXIT")

/-- The command whose kv_api call the next iteration makes. -/
def Session.calling (s : Session) : Option Command :=
  match readLine [] s.input with
  | (none, _) => if s.inTxn then some .abort else none
  | (some line, _) =>
      if quits line then if s.inTxn then some .abort else none
      else (parse line).filter (fun command => command.admits s.inTxn)

end DataAgentDB.Server

namespace DataAgentDB.Engine
open Storage Server LabelledRun
open Kv (Db Call Answer)

/-- A command's call on a handle; `none` when the handle is null, which kv_api refuses itself. -/
def callOn (impl : Option Nat) : Command → Option Call
  | .start => some .begin_txn
  | .get key => impl.map (fun t => .get t key)
  | .put key value => impl.map (fun t => .put t key value)
  | .commit => impl.map Call.commit
  | .abort => impl.map Call.abort_txn

/-- The call the next iteration of a session makes. -/
def kvCall (s : Session) : Option Call := s.calling.bind (callOn s.tx.impl)

/-- What kv_api gets from the storage when a call answers so. -/
def resultsOf : Answer → Results
  | .begun id => { ctx := id, id := id, read := .Abort, value := [], write := .Abort, finish := .Abort }
  | .value value => { ctx := 0, id := 0, read := .RCOK, value := value, write := .Abort, finish := .Abort }
  | .code rc =>
      let inner : RC := if rc = .OK then .RCOK else .Abort
      { ctx := 0, id := 0, read := .Abort, value := [], write := inner, finish := inner }

/-- The store and the open connections. Calls of kv_api do not overlap. -/
structure Host where
  db : Db
  sessions : Nat → Option Session

inductive Event where
  | accept (fd : Nat) (input : Bytes)
  | serve (fd : Nat) (call : Option Kv.Event)

namespace Host

def setSession (h : Host) (fd : Nat) (s : Session) : Host :=
  { h with sessions := Function.update h.sessions fd (some s) }

/-- The next iteration of a session, with the call it makes and its answer. -/
def serve (hash : Bytes → Nat) (db : Db) (s : Session) : Option (Option Kv.Event × Db × Session) :=
  match kvCall s with
  | none => some (none, db, s.iterate (resultsOf (.code .ERROR)))
  | some call =>
      match db.perform hash call with
      | none => none
      | some (answer, db) => some (some ⟨call, answer⟩, db, s.iterate (resultsOf answer))

def next (hash : Bytes → Nat) (h : Host) : Event → Option Host
  | .accept fd input =>
      match h.sessions fd with
      | none => some (h.setSession fd (connected input))
      | some _ => none
  | .serve fd call =>
      match h.sessions fd with
      | none => none
      | some s =>
          if s.running then
            match serve hash h.db s with
            | none => none
            | some (made, db, s) => if made = call then some ({ h with db := db }.setSession fd s) else none
          else none

end Host

def Step (hash : Bytes → Nat) (h : Host) (event : Event) (next : Host) : Prop := h.next hash event = some next

/-- The server after `init_engine`, before its first client. -/
def started (hash : Bytes → Nat) (file : List (Bytes × Bytes)) : Host :=
  { db := Kv.initial hash file, sessions := fun _ => none }

/-- The kv_api call of an event. -/
def Event.call : Event → Option Kv.Event
  | .accept _ _ => none
  | .serve _ call => call

/-- The kv_api call an event makes for one client. -/
def Event.callOf (fd : Nat) : Event → Option Kv.Event
  | .accept _ _ => none
  | .serve other call => if other = fd then call else none

/-- The command behind a call. -/
def commandOf : Call → Command
  | .begin_txn => .start
  | .get _ key => .get key
  | .put _ key value => .put key value
  | .commit _ => .commit
  | .abort_txn _ => .abort

/-- Every kind of step. -/
inductive Took (hash : Bytes → Nat) (h : Host) : Event → Host → Prop
  | accepted {fd : Nat} {input : Bytes} (free : h.sessions fd = none) :
      Took hash h (.accept fd input) (h.setSession fd (connected input))
  | quiet {fd : Nat} {s : Session} (found : h.sessions fd = some s) (running : s.running = true)
      (silent : kvCall s = none) :
      Took hash h (.serve fd none) (h.setSession fd (s.iterate (resultsOf (.code .ERROR))))
  | called {fd : Nat} {s : Session} {call : Call} {answer : Answer} {db : Db}
      (found : h.sessions fd = some s) (running : s.running = true) (calls : kvCall s = some call)
      (performed : Kv.Step hash h.db ⟨call, answer⟩ db) :
      Took hash h (.serve fd (some ⟨call, answer⟩))
        ({ h with db := db }.setSession fd (s.iterate (resultsOf answer)))

theorem step_cases {hash : Bytes → Nat} {h next : Host} {event : Event} (taken : Step hash h event next) :
    Took hash h event next := by
  unfold Step at taken
  cases event with
  | accept fd input =>
    unfold Host.next at taken
    dsimp only at taken
    split at taken
    next free => cases taken; exact .accepted free
    next => cases taken
  | serve fd call =>
    unfold Host.next at taken
    dsimp only at taken
    split at taken
    next => cases taken
    next s found =>
      split at taken
      next running =>
        split at taken
        next => cases taken
        next made db after served =>
          split at taken
          next same =>
            cases taken
            subst same
            unfold Host.serve at served
            split at served
            next silent => cases served; exact .quiet found running silent
            next made calls =>
              split at served
              next => cases served
              next answer db' performed =>
                cases served
                exact .called found running calls (Kv.step_of_perform performed)
          next => cases taken
      next => cases taken

end DataAgentDB.Engine
