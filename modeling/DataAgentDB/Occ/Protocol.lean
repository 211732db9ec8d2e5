import DataAgentDB.Lib.CommitReplay
import DataAgentDB.Lib.LabelledRun
import DataAgentDB.Storage.TxnMan

/-! The row-level protocol of occ.cpp, occ_row.cpp and txn.cpp as a transition system.
Any number of transactions interleave; one `Row_occ::access`, one latch with its check, one
`get_ts`, one `Row_occ::write` and one release are each a step, and a latched row blocks
the steps that lock it. Rows are addressed by `ρ` and are neither inserted nor freed here. -/

namespace DataAgentDB.Occ
open Storage

/-- Where a transaction stands. After `running` it executes `finish`, whose next step is fixed:
the latch loop of `validate`, the write-back loop of `cleanup(RCOK)` over the accesses still to
return, and the release loop over the rows still latched. -/
inductive Phase (ρ α : Type) where
  | running
  | latching
  | writing (todo : List (Access ρ α))
  | releasing (held : List ρ) (rc : RC)
  | ended (rc : RC)

/-- A transaction with a record of what its first successful `get_row` of each row returned
and, from its end timestamp on, of the local copies it writes back. -/
structure Client (ρ α : Type) where
  man : TxnMan ρ α
  phase : Phase ρ α
  copied : List (ρ × α)
  installs : List (ρ × α)

structure State (ρ α : Type) where
  rows : ρ → Row α
  timestamp : Nat
  txns : Nat → Option (Client ρ α)
  begun : Nat

inductive Action (ρ α : Type) where
  | begin
  | getRow (t : Nat) (row : ρ) (type : AccessT)
  | setLocal (t : Nat) (row : ρ) (value : α)
  | finish (t : Nat) (rc : RC)
  | advance (t : Nat)

section Definitions
variable {ρ α : Type}

/-- The rows whose latch the code has taken and not released. -/
def Client.holds (client : Client ρ α) : List ρ :=
  match client.phase with
  | .running => []
  | .latching => (client.man.accesses.take client.man.lockCnt).map Access.origRow
  | .writing _ => client.man.accesses.map Access.origRow
  | .releasing held _ => held
  | .ended _ => []

/-- The local copies `cleanup(RCOK)` writes back. -/
def writeSet (accesses : List (Access ρ α)) : List (ρ × α) :=
  (accesses.filter (fun acc => acc.type = .WR)).map (fun acc => (acc.origRow, acc.data))

def State.setClient (s : State ρ α) (t : Nat) (client : Client ρ α) : State ρ α :=
  { s with txns := Function.update s.txns t (some client) }

end Definitions

variable {ρ α : Type} [DecidableEq ρ]

/-- The record after a `get_row` of the row. -/
def noteFirst (copied : List (ρ × α)) (row : ρ) (result : Option α) : List (ρ × α) :=
  match result with
  | none => copied
  | some copy => if row ∈ copied.map Prod.fst then copied else copied ++ [(row, copy)]

def State.setRow (s : State ρ α) (row : ρ) (content : Row α) : State ρ α :=
  { s with rows := Function.update s.rows row content }

/-- The next step of a transaction inside `finish`. -/
def advance (s : State ρ α) (t : Nat) (client : Client ρ α) : Option (State ρ α) :=
  let man := client.man
  match client.phase with
  | .running => none
  | .latching =>
    match man.accesses[man.lockCnt]? with
    | some acc =>
      match (s.rows acc.origRow).latch t with
      | none => none
      | some row =>
        let man' := { man with lockCnt := man.lockCnt + 1 }
        if row.validate man.startTs then
          some ((s.setRow acc.origRow row).setClient t { client with man := man' })
        else
          -- the loop stops at the failed check; `cleanup(Abort)` writes no row
          let held := (man.accesses.take man'.lockCnt).map Access.origRow
          some ((s.setRow acc.origRow row).setClient t
            { client with man := man'.reset, phase := .releasing held .Abort })
    | none =>
      let client' := { client with
        man := { man with endTs := s.timestamp }
        phase := .writing man.accesses.reverse
        installs := writeSet man.accesses }
      some ({ s with timestamp := s.timestamp + 1 }.setClient t client')
  | .writing (acc :: todo) =>
    let client' := { client with phase := .writing todo }
    if acc.type = .WR then
      let row := (s.rows acc.origRow).write acc.data man.endTs
      some ((s.setRow acc.origRow row).setClient t client')
    else some (s.setClient t client')
  | .writing [] =>
    -- the array entries outlive `cleanup`, and the release loop reads them up to `lock_cnt`
    let held := (man.accesses.take man.lockCnt).map Access.origRow
    some (s.setClient t { client with man := man.reset, phase := .releasing held .RCOK })
  | .releasing (row :: held) rc =>
    some ((s.setRow row (s.rows row).release).setClient t { client with phase := .releasing held rc })
  | .releasing [] rc => some (s.setClient t { client with phase := .ended rc })
  | .ended _ => none

/-- Whether the local copy of the row is one the caller may change. -/
def Client.writable (client : Client ρ α) (rid : Nat) : Bool :=
  match client.man.recordPos rid with
  | none => false
  | some pos =>
    match client.man.accesses[pos]? with
    | none => false
    | some acc => acc.type = .WR

def step (s : State ρ α) : Action ρ α → Option (State ρ α)
  | .begin =>
    let client : Client ρ α :=
      { man := TxnMan.init s.timestamp, phase := .running, copied := [], installs := [] }
    some { s.setClient s.begun client with timestamp := s.timestamp + 1, begun := s.begun + 1 }
  | .getRow t row type =>
    match s.txns t with
    | some ⟨man, .running, copied, installs⟩ =>
      match man.getRow s.rows row type with
      | none => none
      | some (result, man') =>
        some (s.setClient t ⟨man', .running, noteFirst copied row result, installs⟩)
    | _ => none
  | .setLocal t row value =>
    match s.txns t with
    | some ⟨man, .running, copied, installs⟩ =>
      let rid := (s.rows row).primaryKey
      if (Client.mk man .running copied installs).writable rid then
        some (s.setClient t ⟨man.setLocal rid (fun _ => value), .running, copied, installs⟩)
      else none
    | _ => none
  | .finish t rc =>
    match s.txns t, rc with
    | some ⟨man, .running, copied, installs⟩, .RCOK =>
      let man' := { man.sortAccesses s.rows with lockCnt := 0 }
      some (s.setClient t ⟨man', .latching, copied, installs⟩)
    | some ⟨man, .running, copied, installs⟩, .Abort =>
      some (s.setClient t ⟨man.reset, .ended .Abort, copied, installs⟩)
    | _, _ => none
  | .advance t =>
    match s.txns t with
    | some client => advance s t client
    | none => none

/-- One step of the interleaving. -/
def Step (s : State ρ α) (action : Action ρ α) (next : State ρ α) : Prop := step s action = some next

omit [DecidableEq ρ] in
/-- The system before any transaction: rows as `init_manager` leaves them, the manager's
counter at 1. -/
def initial (rows : ρ → Row α) : State ρ α :=
  { rows := rows, timestamp := 1, txns := fun _ => none, begun := 0 }

/-- Every kind of step with its guards and its result. -/
inductive Took (s : State ρ α) : Action ρ α → State ρ α → Prop
  | begun : Took s .begin
      { s.setClient s.begun ⟨TxnMan.init s.timestamp, .running, [], []⟩ with
        timestamp := s.timestamp + 1, begun := s.begun + 1 }
  | reread {t row type man copied installs pos acc}
      (client : s.txns t = some ⟨man, .running, copied, installs⟩)
      (found : man.recordPos (s.rows row).primaryKey = some pos)
      (entry : man.accesses[pos]? = some acc) :
      Took s (.getRow t row type) (s.setClient t ⟨man.upgrade pos acc type, .running,
        noteFirst copied row (some acc.data), installs⟩)
  | refused {t row type man copied installs}
      (client : s.txns t = some ⟨man, .running, copied, installs⟩) :
      Took s (.getRow t row type) (s.setClient t ⟨man, .running, copied, installs⟩)
  | copied {t row type man copied installs}
      (client : s.txns t = some ⟨man, .running, copied, installs⟩)
      (missing : man.recordPos (s.rows row).primaryKey = none)
      (free : (s.rows row).manager.latch = none)
      (current : (s.rows row).manager.wts ≤ man.startTs) :
      Took s (.getRow t row type) (s.setClient t
        ⟨man.record (s.rows row).primaryKey row type (s.rows row).data, .running,
          noteFirst copied row (some (s.rows row).data), installs⟩)
  | changed {t row value man copied installs}
      (client : s.txns t = some ⟨man, .running, copied, installs⟩) :
      Took s (.setLocal t row value) (s.setClient t
        ⟨man.setLocal (s.rows row).primaryKey (fun _ => value), .running, copied, installs⟩)
  | sorted {t man copied installs} (client : s.txns t = some ⟨man, .running, copied, installs⟩) :
      Took s (.finish t .RCOK) (s.setClient t
        ⟨{ man.sortAccesses s.rows with lockCnt := 0 }, .latching, copied, installs⟩)
  | dropped {t man copied installs} (client : s.txns t = some ⟨man, .running, copied, installs⟩) :
      Took s (.finish t .Abort) (s.setClient t ⟨man.reset, .ended .Abort, copied, installs⟩)
  | latched {t man copied installs acc} (client : s.txns t = some ⟨man, .latching, copied, installs⟩)
      (entry : man.accesses[man.lockCnt]? = some acc)
      (free : (s.rows acc.origRow).manager.latch = none)
      (current : (s.rows acc.origRow).manager.wts ≤ man.startTs) :
      Took s (.advance t) ((s.setRow acc.origRow { s.rows acc.origRow with
          manager := { (s.rows acc.origRow).manager with latch := some t } }).setClient t
        ⟨{ man with lockCnt := man.lockCnt + 1 }, .latching, copied, installs⟩)
  | failed {t man copied installs acc} (client : s.txns t = some ⟨man, .latching, copied, installs⟩)
      (entry : man.accesses[man.lockCnt]? = some acc)
      (free : (s.rows acc.origRow).manager.latch = none) :
      Took s (.advance t) ((s.setRow acc.origRow { s.rows acc.origRow with
          manager := { (s.rows acc.origRow).manager with latch := some t } }).setClient t
        ⟨{ man with lockCnt := man.lockCnt + 1 }.reset,
          .releasing ((man.accesses.take (man.lockCnt + 1)).map Access.origRow) .Abort, copied, installs⟩)
  | drew {t man copied installs} (client : s.txns t = some ⟨man, .latching, copied, installs⟩)
      (finished : man.accesses[man.lockCnt]? = none) :
      Took s (.advance t) ({ s with timestamp := s.timestamp + 1 }.setClient t
        ⟨{ man with endTs := s.timestamp }, .writing man.accesses.reverse, copied,
          writeSet man.accesses⟩)
  | wrote {t man copied installs acc todo}
      (client : s.txns t = some ⟨man, .writing (acc :: todo), copied, installs⟩)
      (written : acc.type = .WR) :
      Took s (.advance t) ((s.setRow acc.origRow
        ((s.rows acc.origRow).write acc.data man.endTs)).setClient t
        ⟨man, .writing todo, copied, installs⟩)
  | skipped {t man copied installs acc todo}
      (client : s.txns t = some ⟨man, .writing (acc :: todo), copied, installs⟩)
      (read : acc.type ≠ .WR) :
      Took s (.advance t) (s.setClient t ⟨man, .writing todo, copied, installs⟩)
  | returned {t man copied installs}
      (client : s.txns t = some ⟨man, .writing [], copied, installs⟩) :
      Took s (.advance t) (s.setClient t
        ⟨man.reset, .releasing ((man.accesses.take man.lockCnt).map Access.origRow) .RCOK, copied,
          installs⟩)
  | released {t man copied installs row held rc}
      (client : s.txns t = some ⟨man, .releasing (row :: held) rc, copied, installs⟩) :
      Took s (.advance t) ((s.setRow row (s.rows row).release).setClient t
        ⟨man, .releasing held rc, copied, installs⟩)
  | ended {t man copied installs rc}
      (client : s.txns t = some ⟨man, .releasing [] rc, copied, installs⟩) :
      Took s (.advance t) (s.setClient t ⟨man, .ended rc, copied, installs⟩)

private theorem advance_cases {s next : State ρ α} {t : Nat} {client : Client ρ α}
    (found : s.txns t = some client) (taken : advance s t client = some next) :
    Took s (.advance t) next := by
  obtain ⟨man, phase, copied, installs⟩ := client
  cases phase with
  | running => cases taken
  | latching =>
    simp only [advance] at taken
    split at taken
    next acc entry =>
      split at taken
      next => cases taken
      next row outcome =>
        obtain ⟨free, rfl⟩ := Row.latch_eq_some.mp outcome
        split at taken
        next valid =>
          cases taken
          exact .latched found entry free (Row.validate_eq_true.mp valid)
        next =>
          cases taken
          exact .failed found entry free
    next finished =>
      cases taken
      exact .drew found finished
  | writing todo =>
    cases todo with
    | nil => cases taken; exact .returned found
    | cons acc todo =>
      simp only [advance] at taken
      split at taken
      next written => cases taken; exact .wrote found written
      next read => cases taken; exact .skipped found read
  | releasing held rc =>
    cases held with
    | nil => cases taken; exact .ended found
    | cons row held => cases taken; exact .released found
  | ended rc => cases taken

theorem step_cases {s next : State ρ α} {action : Action ρ α} (taken : Step s action next) :
    Took s action next := by
  unfold Step at taken
  cases action with
  | begin => cases taken; exact .begun
  | getRow t row type =>
    simp only [step] at taken
    split at taken
    next man copied installs client =>
      split at taken
      next => cases taken
      next result man' outcome =>
        obtain ⟨-, kind⟩ := TxnMan.getRow_cases outcome
        cases taken
        cases kind with
        | hit found entry => exact .reread client found entry
        | abort missing room free newer => exact .refused client
        | copied missing room free current => exact .copied client missing free current
    next => cases taken
  | setLocal t row value =>
    simp only [step] at taken
    split at taken
    next man copied installs client =>
      split at taken
      next => cases taken; exact .changed client
      next => cases taken
    next => cases taken
  | finish t rc =>
    simp only [step] at taken
    split at taken
    next client => cases taken; exact .sorted client
    next client => cases taken; exact .dropped client
    next => cases taken
  | advance t =>
    simp only [step] at taken
    split at taken
    next client found => exact advance_cases found taken
    next => cases taken

end DataAgentDB.Occ
