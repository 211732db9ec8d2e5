import DataAgentDB.Client.Bench
import DataAgentDB.Engine.Projection
import DataAgentDB.Kv.Overwrite

/-! db_test.py against the server: a client that loads the hot keys, then threads that increment
them, each over a connection of its own. Replies arrive before the sockets time out. -/

namespace DataAgentDB.Engine
open Storage Server LabelledRun Client
open Kv (Db Call Answer)

def threads : Nat := 16

def txnPerThread : Nat := 2000

/-- The session as a request reaches it. -/
def asked (link : Link) (cmd : Bytes) : Session := { link.session with input := link.session.input ++ cmd }

/-- One request of a client whose socket does not time out: the call it makes, the reply, and the client
after it. -/
def ask (py : Python) (hash : Bytes → Nat) (db : Db) (link : Link) (cmd : Bytes) :
    Option (Option Kv.Event × Db × Option (List Char) × Link) :=
  match if link.session.running then kvCall (asked link cmd) else none with
  | none => some (none, db, link.request py cmd (resultsAfter none))
  | some call =>
      match db.perform hash call with
      | none => none
      | some (answer, db) =>
          some (some ⟨call, answer⟩, db, link.request py cmd (resultsAfter (some ⟨call, answer⟩)))

/-- A request that is to be answered with OK. -/
def preloadAsk (py : Python) (hash : Bytes → Nat) (state : Db × Link) (cmd : Bytes) : Option (Db × Link) :=
  match ask py hash state.1 state.2 cmd with
  | some (_, db, some r, link) => if isOk r then some (db, link) else none
  | _ => none

/-- The store after the hot keys are loaded; `none` when it raises. -/
def preloadKeys (py : Python) (hash : Bytes → Nat) (db : Db) : Option Db :=
  let puts := (List.finRange hotKeys).map (fun k => cmdPut (hotKey k) (bytes (toString 0)))
  ((cmdStart :: puts ++ [cmdCommit]).foldlM (preloadAsk py hash) (db, connect py)).map Prod.fst

structure Bench where
  db : Db
  threads : Fin threads → Link × Worker

namespace Bench

/-- The connected threads. -/
def begin (py : Python) (db : Db) : Bench :=
  { db := db, threads := fun _ => (connect py, Worker.begin txnPerThread) }

/-- A thread's next request, with the key its iteration drew, or `close` after its loop. -/
inductive Event where
  | request (tid : Fin Engine.threads) (key : Fin hotKeys) (call : Option Kv.Event)
  | close (tid : Fin Engine.threads) (call : Option Kv.Event)

def next (py : Python) (hash : Bytes → Nat) (b : Bench) : Event → Option Bench
  | .request tid key call =>
      let (link, w) := b.threads tid
      if w.left = 0 then none
      else
        match ask py hash b.db link w.phase.request with
        | none => none
        | some (made, db, reply, link) =>
            if made = call then
              some { db := db, threads := Function.update b.threads tid (link, w.proceed py key reply) }
            else none
  | .close tid call =>
      let (link, w) := b.threads tid
      if w.left = 0 ∧ link.session.running then
        match Host.serve hash b.db link.session with
        | none => none
        | some (made, db, session) =>
            if made = call then
              some { db := db, threads := Function.update b.threads tid ({ link with session := session }, w) }
            else none
      else none

def Step (py : Python) (hash : Bytes → Nat) (b : Bench) (event : Event) (next : Bench) : Prop :=
  b.next py hash event = some next

/-- The increments the threads have counted for a key. -/
def applied (b : Bench) (key : Fin hotKeys) : Nat :=
  ∑ tid, (b.threads tid).2.stats.appliedIncrements key

/-- The sessions of the threads. -/
def host (b : Bench) : Host :=
  { db := b.db
    sessions := fun fd => if here : fd < Engine.threads then some (b.threads ⟨fd, here⟩).1.session else none }

def Event.call : Event → Option Kv.Event
  | .request _ _ call | .close _ call => call

def calls (trace : List Event) : List Kv.Event := trace.flatMap (fun event => event.call.toList)

end Bench

section
variable {py : Python} {hash : Bytes → Nat} {db db' : Db} {link link' : Link} {cmd : Bytes}
  {made : Option Kv.Event} {reply : Option (List Char)}

theorem request_session (py : Python) (running : link.session.running = true) (cmd : Bytes) (results : Results) :
    (link.request py cmd results).2.session = (asked link cmd).iterate results := by
  have kept : ∀ link : Link, (link.readline py).2.session = link.session := by
    intro link
    unfold Link.readline
    split <;> rfl
  have served : serve { link.session with input := link.session.input ++ cmd } results =
      some ((asked link cmd).iterate results) := if_pos running
  simp only [Link.request, served]
  exact kept _

theorem calling_request (synced : Synced link) (request : Request) :
    (asked link request.line).calling =
      if request.command.admits link.session.inTxn then some request.command else none := by
  have read := request.readLine_line []
  rw [List.append_nil] at read
  have input : (asked link request.line).input = request.line := by
    simp [asked, synced.input]
  unfold Session.calling
  rw [input, read]
  simp only [quits_parsed request.parse_body, request.parse_body, Option.filter_some, Bool.false_eq_true, if_false]
  rfl

theorem calling_rollback (synced : Synced link) : (asked link cmdRollback).calling = none := by
  have input : (asked link cmdRollback).input = cmdRollback := by simp [asked, synced.input]
  have read : readLine [] cmdRollback = (some (bytes "ROLLBACK"), []) := by decide
  have stays : quits (bytes "ROLLBACK") = false := by decide
  have unknown : parse (bytes "ROLLBACK") = none := by decide
  unfold Session.calling
  rw [input, read]
  simp only [stays, unknown, Option.filter_none, Bool.false_eq_true, if_false]

/-- A request whose line calls nothing. -/
theorem ask_silent (synced : Synced link) (silent : (asked link cmd).calling = none)
    (did : ask py hash db link cmd = some (made, db', reply, link')) :
    made = none ∧ db' = db ∧ (reply, link') = link.request py cmd (resultsAfter none) ∧
      link'.session.tx.impl = link.session.tx.impl := by
  have quiet : kvCall (asked link cmd) = none := by unfold kvCall; rw [silent]; rfl
  have session := request_session py synced.live cmd (resultsAfter none)
  unfold ask at did
  rw [quiet, ite_self] at did
  simp only [Option.some.injEq, Prod.mk.injEq] at did
  obtain ⟨rfl, rfl, turn⟩ := did
  refine ⟨rfl, rfl, turn.symm, ?_⟩
  rw [turn] at session
  have agrees : Agrees (asked link cmd) := synced.agrees.withInput _
  have impl := (iterated agrees (resultsAfter none)).impl
  rw [silent] at impl
  exact (congrArg (fun s : Session => s.tx.impl) session).trans impl

/-- A request whose line is a command that is carried out. -/
theorem ask_called (synced : Synced link) {command : Command} {call : Call}
    (calling : (asked link cmd).calling = some command) (on : callOn link.session.tx.impl command = some call)
    (did : ask py hash db link cmd = some (made, db', reply, link')) :
    ∃ answer, made = some ⟨call, answer⟩ ∧ Kv.Step hash db ⟨call, answer⟩ db' ∧
      (reply, link') = link.request py cmd (resultsOf answer) ∧
      link'.session.tx.impl = handleAfter link.session.tx.impl (resultsOf answer) (some command) := by
  have calls : kvCall (asked link cmd) = some call := by unfold kvCall; rw [calling]; exact on
  unfold ask at did
  rw [if_pos synced.live, calls] at did
  dsimp only at did
  split at did
  next => cases did
  next answer db₁ performed =>
    simp only [Option.some.injEq, Prod.mk.injEq] at did
    obtain ⟨rfl, rfl, turn⟩ := did
    refine ⟨answer, rfl, Kv.step_of_perform performed, turn.symm, ?_⟩
    have session := request_session py synced.live cmd (resultsOf answer)
    change link.request py cmd (resultsOf answer) = _ at turn
    rw [turn] at session
    have agrees : Agrees (asked link cmd) := synced.agrees.withInput _
    have impl := (iterated agrees (resultsOf answer)).impl
    rw [calling] at impl
    exact (congrArg (fun s : Session => s.tx.impl) session).trans impl

end

section
variable {py : Python} {hash : Bytes → Nat}

theorem setSession_again (h : Host) (db : Db) (fd : Nat) (s s' : Session) :
    { h.setSession fd s with db := db }.setSession fd s' = { h with db := db }.setSession fd s' := by
  unfold Host.setSession
  rw [Function.update_idem]

/-- A request is a step of the server on the line it brings. -/
theorem took_ask {h : Host} {fd : Nat} {link link' : Link} {cmd : Bytes} {made : Option Kv.Event} {db : Db}
    {reply : Option (List Char)} (running : link.session.running = true)
    (did : ask py hash h.db link cmd = some (made, db, reply, link')) :
    Took hash (h.setSession fd (asked link cmd)) (.serve fd made) ({ h with db := db }.setSession fd link'.session) := by
  have found : (h.setSession fd (asked link cmd)).sessions fd = some (asked link cmd) := Function.update_self _ _ _
  unfold ask at did
  rw [if_pos running] at did
  split at did
  next quiet =>
    simp only [Option.some.injEq, Prod.mk.injEq] at did
    obtain ⟨rfl, rfl, turn⟩ := did
    have session := request_session py running cmd (resultsAfter none)
    rw [turn] at session
    have took : Took hash _ _ _ := Took.quiet found running quiet
    change Took hash _ _ ({ h.setSession fd (asked link cmd) with db := h.db }.setSession fd _) at took
    rw [setSession_again] at took
    exact session ▸ took
  next call calls =>
    split at did
    next => cases did
    next answer db₁ performed =>
      simp only [Option.some.injEq, Prod.mk.injEq] at did
      obtain ⟨rfl, rfl, turn⟩ := did
      have session := request_session py running cmd (resultsAfter (some ⟨call, answer⟩))
      rw [turn] at session
      have took := Took.called (h := h.setSession fd (asked link cmd)) found running calls
        (Kv.step_of_perform performed)
      rw [setSession_again] at took
      exact session ▸ took

theorem took_serve {h : Host} {fd : Nat} {s s' : Session} {made : Option Kv.Event} {db : Db}
    (found : h.sessions fd = some s) (running : s.running = true) (did : Host.serve hash h.db s = some (made, db, s')) :
    Took hash h (.serve fd made) ({ h with db := db }.setSession fd s') := by
  unfold Host.serve at did
  split at did
  next quiet => cases did; exact .quiet found running quiet
  next call calls =>
    split at did
    next => cases did
    next answer db₁ performed => cases did; exact .called found running calls (Kv.step_of_perform performed)

/-- A call a session makes is on its handle. -/
theorem took_made {h next : Host} {fd : Nat} {made : Kv.Event} (took : Took hash h (.serve fd (some made)) next) :
    Kv.Step hash h.db made next.db ∧
      ∀ t, made.call.target = some t → ∃ s, h.sessions fd = some s ∧ s.tx.impl = some t := by
  cases took with
  | called found running calls performed =>
    exact ⟨performed, fun t target => ⟨_, found, (calling_of_call calls).2 t target⟩⟩

/-- The store moves only by a call. -/
theorem took_silent {h next : Host} {fd : Nat} (took : Took hash h (.serve fd none) next) : next.db = h.db := by
  cases took
  rfl

theorem owned_ask {h : Host} (owned : Owned h) {fd : Nat} {link link' : Link} {cmd : Bytes}
    {made : Option Kv.Event} {db : Db} {reply : Option (List Char)} (found : h.sessions fd = some link.session)
    (running : link.session.running = true) (did : ask py hash h.db link cmd = some (made, db, reply, link')) :
    Owned ({ h with db := db }.setSession fd link'.session) := by
  have agrees : Agrees (asked link cmd) := (owned.agrees fd _ found).withInput _
  have same : (asked link cmd).tx.impl = (h.sessions fd).bind (fun before => before.tx.impl) := by
    rw [found]
    rfl
  exact owned_took (owned.keep agrees same) (took_ask running did)

theorem host_update (b : Bench) (db : Db) (tid : Fin threads) (link : Link) (w : Worker) :
    ({ db := db, threads := Function.update b.threads tid (link, w) } : Bench).host =
      { b.host with db := db }.setSession tid link.session := by
  have sessions : ({ db := db, threads := Function.update b.threads tid (link, w) } : Bench).host.sessions =
      Function.update b.host.sessions tid (some link.session) := by
    funext fd
    unfold Bench.host
    dsimp only
    by_cases same : fd = tid.val
    · subst same
      simp
    · rw [Function.update_of_ne same]
      split
      next here =>
        have apart : (⟨fd, here⟩ : Fin threads) ≠ tid := fun equal => same (congrArg Fin.val equal)
        rw [Function.update_of_ne apart]
      next => rfl
  exact congrArg (fun sessions => ({ db := db, sessions := sessions } : Host)) sessions

theorem host_session (b : Bench) (tid : Fin threads) : b.host.sessions tid = some (b.threads tid).1.session := by
  simp [Bench.host]

end

end DataAgentDB.Engine
