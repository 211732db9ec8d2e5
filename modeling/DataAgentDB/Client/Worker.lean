import DataAgentDB.Server.Wire

/-! The worker of db_test.py against `handle_client`. Client and server take turns: each request
is a line, and the client waits for the line that answers it. -/

namespace DataAgentDB.Client
open Storage Server Words

/-- What a worker takes from Python: the decoding of the bytes it receives, and the decimal value
of a character. The laws are those of ASCII, and a bound. -/
structure Python where
  decode : Bytes → List Char
  decimal : Char → Option Nat
  decode_ascii : ∀ text : Bytes, (∀ c ∈ text, c < 128) → decode text = text.map (fun c => Char.ofNat c.toNat)
  decode_length : ∀ text, (decode text).length ≤ text.length
  decimal_ascii : ∀ c : Char, c.toNat < 128 → decimal c = if c.isDigit then some (c.toNat - 48) else none
  decimal_lt : ∀ c d, decimal c = some d → d < 10

/-- `str.isspace` of a character. -/
def isWhite (c : Char) : Bool :=
  let n := c.toNat
  (9 ≤ n && n ≤ 13) || (28 ≤ n && n ≤ 32) || n = 0x85 || n = 0xA0 || n = 0x1680 ||
    (0x2000 ≤ n && n ≤ 0x200A) || n = 0x2028 || n = 0x2029 || n = 0x202F || n = 0x205F || n = 0x3000

def normalize (s : List Char) : List Char :=
  ((s.dropWhile isWhite).reverse.dropWhile isWhite).reverse

def isOk (resp : List Char) : Bool :=
  let r := (normalize resp).map Char.toUpper
  "OK".toList.isPrefixOf r || "VALUE".toList.isPrefixOf r || "FOUND".toList.isPrefixOf r

section
variable (py : Python)

/-- Digits in groups, with single underscores between the groups. -/
def digits (token : List Char) : Option Nat :=
  let groups := token.splitOn '_'
  if groups.all (fun group => !group.isEmpty && group.all (fun c => (py.decimal c).isSome)) then
    some ((token.filter (fun c => c ≠ '_')).foldl (fun n c => 10 * n + (py.decimal c).getD 0) 0)
  else none

/-- `int` of a token. -/
def int (token : List Char) : Option Int :=
  match token with
  | '+' :: rest => (digits py rest).map Int.ofNat
  | '-' :: rest => (digits py rest).map (fun n : Nat => -(n : Int))
  | _ => (digits py token).map Int.ofNat

def parseIntFromResp (resp : List Char) : Option Int :=
  (words isWhite (normalize resp)).reverse.findSome? (int py)

end

def cmdStart : Bytes := bytes "START\n"
def cmdGet (k : Bytes) : Bytes := bytes "GET " ++ k ++ bytes "\n"
def cmdPut (k v : Bytes) : Bytes := bytes "PUT " ++ k ++ bytes " " ++ v ++ bytes "\n"
def cmdCommit : Bytes := bytes "COMMIT\n"
def cmdRollback : Bytes := bytes "ROLLBACK\n"

/-- The session at the server's end, and what the client has received and not yet read. -/
structure Link where
  session : Session
  buf : Bytes

namespace Link

/-- `_readline`; `none` when it raises. -/
def readline (py : Python) (link : Link) : Option (List Char) × Link :=
  if 10 ∈ link.buf then
    (some (py.decode (link.buf.takeWhile (fun c => c ≠ 10))),
      { link with buf := (link.buf.dropWhile (fun c => c ≠ 10)).drop 1 })
  else (none, link)

/-- What the server sent between two states of its session. -/
def sent (before after : Session) : Bytes := ((replies after.log).drop (replies before.log).length).flatten

/-- `request`: the server serves the line it is sent, while it listens. -/
def request (py : Python) (link : Link) (cmd : Bytes) (results : Results) : Option (List Char) × Link :=
  let asked := { link.session with input := link.session.input ++ cmd }
  match serve asked results with
  | none => (none, link)
  | some answered => ({ session := answered, buf := link.buf ++ sent asked answered } : Link).readline py

end Link

/-- A client that has connected and read the greeting. -/
def connect (py : Python) : Link :=
  (({ session := connected [], buf := bytes "WELCOME DataAgentDB\n" } : Link).readline py).2

def hotKeys : Nat := 8

/-- `keys[i]`. -/
def hotKey (i : Fin hotKeys) : Bytes := bytes "hotk_" ++ bytes (toString i.val)

/-- What one iteration does not choose: the random key, and what the storage returns to its
requests. The VALUE column has 1024 bytes with the NUL, and no value has a newline. -/
structure Round where
  key : Fin hotKeys
  start : Results
  get : Results
  put : Results
  commit : Results
  rollback : Results
  oneLine : 10 ∉ get.value
  fits : get.value.length ≤ 1023

/-- The body of the `try` in an iteration; the flag is whether it raised. -/
def attempt (py : Python) (link : Link) (round : Round) : Bool × Link :=
  let key := hotKey round.key
  match link.request py cmdStart round.start with
  | (none, link) => (true, link)
  | (some r, link) =>
      if isOk r then
        match link.request py (cmdGet key) round.get with
        | (none, link) => (true, link)
        | (some r, link) =>
            match parseIntFromResp py r with
            | none =>
                let (rr, link) := link.request py cmdRollback round.rollback
                (rr.isNone, link)
            | some cur =>
                let nxt := cur + 1
                match link.request py (cmdPut key (bytes (toString nxt))) round.put with
                | (none, link) => (true, link)
                | (some r, link) =>
                    if isOk r then
                      let (r, link) := link.request py cmdCommit round.commit
                      (r.isNone, link)
                    else
                      let (rr, link) := link.request py cmdRollback round.rollback
                      (rr.isNone, link)
      else (false, link)

/-- One iteration of `worker`: a raised exception makes it try a rollback. -/
def iteration (py : Python) (link : Link) (round : Round) : Link :=
  match attempt py link round with
  | (false, link) => link
  | (true, link) => (link.request py cmdRollback round.rollback).2

def worker (py : Python) (rounds : List Round) : Link := rounds.foldl (iteration py) (connect py)

end DataAgentDB.Client
