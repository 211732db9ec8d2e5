import Mathlib.Data.List.Lex
import Mathlib.Data.Prod.Lex
import Mathlib.Order.Lattice
import Mathlib.Tactic.Common

/-! Rows and their `Row_occ` managers (row.h, occ_row.cpp), over arbitrary row contents.
Timestamps and keys are 64-bit in the source; nothing here computes with keys, and a
run draws fewer than 2^64 timestamps. -/

namespace DataAgentDB.Storage

abbrev Bytes := List UInt8

/-- The bytes of a text literal. -/
def bytes (text : String) : Bytes := text.toList.map (fun c => c.toNat.toUInt8)

inductive RC where
  | RCOK | Commit | Abort | WAIT | ERROR | FINISH
  deriving DecidableEq, Repr

/-- `access_t`. -/
inductive AccessT where
  | RD | WR | XP | SCAN
  deriving DecidableEq, Repr

/-- C string comparison of NUL-free strings: the first differing byte decides, a proper
prefix is smaller. -/
def strcmp : Bytes → Bytes → Int
  | [], [] => 0
  | [], _ :: _ => -1
  | _ :: _, [] => 1
  | a :: as, b :: bs => if a = b then strcmp as bs else if a.toNat < b.toNat then -1 else 1

theorem strcmp_eq_zero (a b : Bytes) : strcmp a b = 0 ↔ a = b := by
  induction a generalizing b with
  | nil => cases b <;> simp [strcmp]
  | cons x as ih =>
    cases b with
    | nil => simp [strcmp]
    | cons y bs =>
      by_cases same : x = y
      · simp [strcmp, same, ih]
      · simp only [strcmp, same, ↓reduceIte, List.cons.injEq, false_and, iff_false]
        split <;> simp

/-- The order `strcmp` compares in. -/
def nameKey (name : Bytes) : List Nat := name.map UInt8.toNat

theorem nameKey_injective : Function.Injective nameKey :=
  List.map_injective_iff.mpr (fun _ _ same => UInt8.toNat_inj.mp same)

theorem strcmp_pos (a b : Bytes) : 0 < strcmp a b ↔ nameKey b < nameKey a := by
  induction a generalizing b with
  | nil => cases b <;> simp [strcmp, nameKey]
  | cons x as ih =>
    cases b with
    | nil => simp [strcmp, nameKey]
    | cons y bs =>
      simp only [nameKey, List.map_cons, List.cons_lt_cons_iff]
      by_cases same : x = y
      · simp only [strcmp, same, ↓reduceIte, lt_irrefl, true_and, false_or]
        exact ih bs
      · have differ : x.toNat ≠ y.toNat := fun equal => same (UInt8.toNat_inj.mp equal)
        simp only [strcmp, if_neg same]
        split <;> simp <;> omega

/-- The mutex of a row, by who holds it, and the last update time. -/
structure RowOcc where
  latch : Option Nat
  wts : Nat
  deriving DecidableEq, Repr

def RowOcc.init : RowOcc := { latch := none, wts := 0 }

/-- `row_t` with the fields the transactions use; `live` until its memory is freed. -/
structure Row (α : Type) where
  tableName : Bytes
  primaryKey : Nat
  data : α
  manager : RowOcc
  live : Bool
  deriving DecidableEq, Repr

namespace Row

variable {α : Type}

/-- `Row_occ::access` for `R_REQ`: `none` while the mutex is held, `some none` for `Abort`,
else the contents copied. -/
def access (row : Row α) (startTs : Nat) : Option (Option α) :=
  match row.manager.latch with
  | some _ => none
  | none => some (if startTs < row.manager.wts then none else some row.data)

/-- `Row_occ::latch`: `none` while the mutex is held. -/
def latch (row : Row α) (holder : Nat) : Option (Row α) :=
  match row.manager.latch with
  | some _ => none
  | none => some { row with manager := { row.manager with latch := some holder } }

/-- `Row_occ::validate`. -/
def validate (row : Row α) (ts : Nat) : Bool := if ts < row.manager.wts then false else true

/-- `Row_occ::write` with `PER_ROW_VALID`; its assertion is `row.manager.wts < ts`. -/
def write (row : Row α) (data : α) (ts : Nat) : Row α :=
  { row with data := data, manager := { row.manager with wts := ts } }

/-- `Row_occ::release`. -/
def release (row : Row α) : Row α := { row with manager := { row.manager with latch := none } }

/-- `row_t::free_row` and the release of the `row_t` itself. -/
def freeRow (row : Row α) : Row α := { row with live := false }

/-- What `OptCC::validate` sorts by. -/
def sortKey (row : Row α) : List Nat ×ₗ Nat := toLex (nameKey row.tableName, row.primaryKey)

theorem access_abort {row : Row α} {startTs : Nat} :
    row.access startTs = some none ↔ row.manager.latch = none ∧ startTs < row.manager.wts := by
  unfold access
  split <;> simp_all

theorem access_copy {row : Row α} {startTs : Nat} {copy : α} :
    row.access startTs = some (some copy) ↔
      row.manager.latch = none ∧ row.manager.wts ≤ startTs ∧ row.data = copy := by
  unfold access
  split <;> simp_all

theorem latch_eq_some {row next : Row α} {holder : Nat} :
    row.latch holder = some next ↔ row.manager.latch = none ∧
      next = { row with manager := { row.manager with latch := some holder } } := by
  unfold latch
  split <;> simp_all [eq_comm]

@[simp] theorem validate_eq_true {row : Row α} {ts : Nat} :
    row.validate ts = true ↔ row.manager.wts ≤ ts := by
  simp [validate]

end Row

/-- The swap test of `OptCC::validate`: by table name, then by primary key. -/
def sortsAfter {α : Type} (a b : Row α) : Bool :=
  let tabcmp := strcmp a.tableName b.tableName
  decide (tabcmp > 0) || (decide (tabcmp = 0) && decide (a.primaryKey > b.primaryKey))

theorem sortsAfter_iff {α : Type} (a b : Row α) : sortsAfter a b = true ↔ b.sortKey < a.sortKey := by
  have names : nameKey b.tableName = nameKey a.tableName ↔ a.tableName = b.tableName :=
    ⟨fun same => (nameKey_injective same).symm, fun same => by rw [same]⟩
  simp only [sortsAfter, Row.sortKey, Prod.Lex.toLex_lt_toLex, Bool.or_eq_true, Bool.and_eq_true,
    decide_eq_true_eq, gt_iff_lt, strcmp_pos, strcmp_eq_zero, names]

/-- Rows sort alike only when they share table name and primary key. -/
theorem sortKey_eq_iff {α : Type} (a b : Row α) :
    a.sortKey = b.sortKey ↔ a.tableName = b.tableName ∧ a.primaryKey = b.primaryKey := by
  simp only [Row.sortKey, EmbeddingLike.apply_eq_iff_eq, Prod.mk.injEq, nameKey_injective.eq_iff]

end DataAgentDB.Storage
