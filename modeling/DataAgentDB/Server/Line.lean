import DataAgentDB.Storage.Row

/-! Lines and words of the text protocol (server.cpp `read_line`, session.cpp `split_ws`,
`upper`). Input is what the client sends before it disconnects or the socket fails. -/

namespace DataAgentDB.Server
open Storage

/-- `read_line` with `out` read so far: the line when `ok`, and the input left. -/
def readLine (out : Bytes) : Bytes → Option Bytes × Bytes
  | [] => (none, [])
  | c :: rest =>
      if c = 10 then (some out, rest)
      else
        let out := if c ≠ 13 then out ++ [c] else out
        if out.length > 64 * 1024 then (none, rest) else readLine out rest

/-- `isspace` of the C locale. -/
def isSpace (c : UInt8) : Bool := c = 32 || (9 ≤ c && c ≤ 13)

def splitWs (s : Bytes) : List Bytes := (s.splitOnP isSpace).filter (fun word => word ≠ [])

def upper (s : Bytes) : Bytes := s.map (fun c => if 97 ≤ c ∧ c ≤ 122 then c - 32 else c)

/-- `std::string::find` of a character; `none` is `npos`. -/
def find (s : Bytes) (c : UInt8) (pos : Nat) : Option Nat :=
  ((s.drop pos).findIdx? (fun other => other = c)).map (fun offset => pos + offset)

end DataAgentDB.Server
