import DataAgentDB.Storage.Row

/-! The codes and the handle of kv_api.h, and the `Rc` that kv_api.cpp makes of what the
storage answered. -/

namespace DataAgentDB.Server
open Storage

inductive Rc where
  | OK | NOT_FOUND | ABORT | ERROR
  deriving DecidableEq, Repr

/-- `impl` is the `TxnContext` pointer, `none` when null. -/
structure TxnHandle where
  impl : Option Nat
  id : Nat
  deriving DecidableEq, Repr

/-- `get`'s code for what `txn_man::Read` returned. -/
def Rc.ofRead (rc : RC) : Rc := if rc = .RCOK then .OK else .NOT_FOUND

/-- `put`'s code for what `txn_man::Write` returned. -/
def Rc.ofWrite (rc : RC) : Rc := if rc = .RCOK then .OK else .ERROR

/-- `commit`'s code for what `txn_man::finish` returned. -/
def Rc.ofFinish (rc : RC) : Rc := if rc = .RCOK ∨ rc = .Commit then .OK else .ABORT

/-- `get` and `put` never answer `ABORT`, although `handle_client` has branches for it. -/
theorem Rc.ofRead_ne_abort (rc : RC) : Rc.ofRead rc ≠ .ABORT := by
  unfold Rc.ofRead
  split <;> decide

theorem Rc.ofWrite_ne_abort (rc : RC) : Rc.ofWrite rc ≠ .ABORT := by
  unfold Rc.ofWrite
  split <;> decide

end DataAgentDB.Server
