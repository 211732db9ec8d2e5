import DataAgentDB.Lib.LabelledRun
import DataAgentDB.Server.KvApi
import DataAgentDB.Server.Line

/-! `handle_client` (session.cpp). A session reads its lines from the client's bytes; what
the storage returns to its `kv_api` calls is arbitrary and chosen anew for every line. -/

namespace DataAgentDB.Server
open Storage

/-- What a session does that others can see, with the `finish` inside `commit` and `abort_txn`. -/
inductive Action where
  | send (text : Bytes)
  | begin_txn (impl : Nat)
  | get (key : Bytes)
  | put (key value : Bytes)
  | commit
  | abort_txn
  | finish (impl : Nat) (rc : RC)
  deriving DecidableEq, Repr

/-- An action with `in_txn` and `tx.impl` as it starts. -/
structure Entry where
  action : Action
  inTxn : Bool
  impl : Option Nat
  deriving DecidableEq, Repr

/-- `running` until `handle_client` returns. -/
structure Session where
  tx : TxnHandle
  inTxn : Bool
  input : Bytes
  log : List Entry
  running : Bool
  deriving DecidableEq, Repr

/-- What the storage returns while one line is served: the context and the id of a new
transaction, and the results of `Read`, `Write` and `finish`. -/
structure Results where
  ctx : Nat
  id : Nat
  read : RC
  value : Bytes
  write : RC
  finish : RC

namespace Session

def note (s : Session) (action : Action) : Session :=
  { s with log := s.log ++ [{ action := action, inTxn := s.inTxn, impl := s.tx.impl }] }

def sendAll (s : Session) (text : Bytes) : Session := s.note (.send text)

def beginTxn (s : Session) (results : Results) : Rc × Session :=
  (.OK, { s.note (.begin_txn results.ctx) with tx := { impl := some results.ctx, id := results.id } })

def get (s : Session) (key : Bytes) (results : Results) : Rc × Session :=
  match s.tx.impl with
  | none => (.ERROR, s.note (.get key))
  | some _ => (Rc.ofRead results.read, s.note (.get key))

def put (s : Session) (key value : Bytes) (results : Results) : Rc × Session :=
  match s.tx.impl with
  | none => (.ERROR, s.note (.put key value))
  | some _ => (Rc.ofWrite results.write, s.note (.put key value))

def commit (s : Session) (results : Results) : Rc × Session :=
  let s := s.note .commit
  match s.tx.impl with
  | none => (.ERROR, s)
  | some ctx =>
      (Rc.ofFinish results.finish,
        { s.note (.finish ctx .RCOK) with tx := { s.tx with impl := none } })

def abortTxn (s : Session) : Rc × Session :=
  let s := s.note .abort_txn
  match s.tx.impl with
  | none => (.ERROR, s)
  | some ctx => (.OK, { s.note (.finish ctx .Abort) with tx := { s.tx with impl := none } })

def start (s : Session) (results : Results) : Session :=
  if s.inTxn then s.sendAll (bytes "ERR TXN_ALREADY_STARTED\n")
  else
    let (rc, s) := s.beginTxn results
    if rc = .OK then
      { s with inTxn := true }.sendAll (bytes "OK TXN " ++ bytes (toString s.tx.id) ++ bytes "\n")
    else s.sendAll (bytes "ERR START_FAIL\n")

def doGet (s : Session) (parts : List Bytes) (results : Results) : Session :=
  if s.inTxn then
    match parts with
    | [_, key] =>
        let (rc, s) := s.get key results
        match rc with
        | .OK => s.sendAll (bytes "OK VALUE " ++ results.value ++ bytes "\n")
        | .NOT_FOUND => s.sendAll (bytes "ERR NOT_FOUND\n")
        | .ABORT => { s with inTxn := false }.sendAll (bytes "ERR ABORT\n")
        | .ERROR => s.sendAll (bytes "ERR GET_FAIL\n")
    | _ => s.sendAll (bytes "ERR USAGE GET <key>\n")
  else s.sendAll (bytes "ERR NO_ACTIVE_TXN\n")

/-- The value of a PUT line: what follows its second blank. -/
def putValue (line : Bytes) : Bytes :=
  match find line 32 0 with
  | none => []
  | some pos1 =>
      match find line 32 (pos1 + 1) with
      | none => []
      | some pos2 => line.drop (pos2 + 1)

def doPut (s : Session) (line : Bytes) (parts : List Bytes) (results : Results) : Session :=
  if s.inTxn then
    match parts with
    | _ :: key :: _ :: _ =>
        let (rc, s) := s.put key (putValue line) results
        match rc with
        | .OK => s.sendAll (bytes "OK\n")
        | .ABORT => { s with inTxn := false }.sendAll (bytes "ERR ABORT\n")
        | _ => s.sendAll (bytes "ERR PUT_FAIL\n")
    | _ => s.sendAll (bytes "ERR USAGE PUT <key> <value>\n")
  else s.sendAll (bytes "ERR NO_ACTIVE_TXN\n")

def doCommit (s : Session) (results : Results) : Session :=
  if s.inTxn then
    let (rc, s) := s.commit results
    let s := { s with inTxn := false }
    match rc with
    | .OK => s.sendAll (bytes "OK COMMIT\n")
    | .ABORT => s.sendAll (bytes "ERR ABORT\n")
    | _ => s.sendAll (bytes "ERR COMMIT_FAIL\n")
  else s.sendAll (bytes "ERR NO_ACTIVE_TXN\n")

def doAbort (s : Session) : Session :=
  if s.inTxn then { s.abortTxn.2 with inTxn := false }.sendAll (bytes "OK ABORT\n")
  else s.sendAll (bytes "ERR NO_ACTIVE_TXN\n")

/-- The rollback of both exit paths. -/
def abandon (s : Session) : Session :=
  if s.inTxn then { s.abortTxn.2 with inTxn := false } else s

def quit (s : Session) : Session :=
  { s.abandon.sendAll (bytes "BYE\n") with running := false }

def dispatch (s : Session) (line : Bytes) (results : Results) : Session :=
  match splitWs line with
  | [] => s.sendAll (bytes "ERR EMPTY_CMD\n")
  | word :: rest =>
      let cmd := upper word
      if cmd = bytes "START" then s.start results
      else if cmd = bytes "GET" then s.doGet (word :: rest) results
      else if cmd = bytes "PUT" then s.doPut line (word :: rest) results
      else if cmd = bytes "COMMIT" then s.doCommit results
      else if cmd = bytes "ABORT" then s.doAbort
      else if cmd = bytes "END" ∨ cmd = bytes "QUIT" ∨ cmd = bytes "EXIT" then s.quit
      else s.sendAll (bytes "ERR BAD_CMD\n")

/-- One iteration of the loop. -/
def iterate (s : Session) (results : Results) : Session :=
  match readLine [] s.input with
  | (none, rest) => { s.abandon with input := rest, running := false }
  | (some line, rest) => { s with input := rest }.dispatch line results

end Session

/-- The session as the loop is entered: a null handle, and the greeting sent. -/
def connected (input : Bytes) : Session :=
  Session.sendAll { tx := { impl := none, id := 0 }, inTxn := false, input := input, log := [],
                    running := true } (bytes "WELCOME DataAgentDB\n")

/-- The next iteration, while the loop runs. -/
def serve (s : Session) (results : Results) : Option Session :=
  if s.running then some (s.iterate results) else none

def Serve (s : Session) (results : Results) (next : Session) : Prop := serve s results = some next

end DataAgentDB.Server
