import DataAgentDB.Storage.Catalog
import Mathlib.Data.List.TakeWhile

/-! The columns of a row do not interfere: what is written to one by its id, its name or its type is
read back, and the others stay. -/

namespace DataAgentDB.Storage
open Slices

/-- The column has the byte at this position. -/
def Column.Has (column : Column) (p : Nat) : Prop :=
  column.index.toNat ≤ p ∧ p < column.index.toNat + column.size.toNat

/-- The columns of a catalog do not interfere. -/
structure Apart (catalog : Catalog) : Prop where
  first : ∀ column : Column, catalog.columns[0]? = some column → column.index = 0
  consecutive : ∀ (i : Nat) (column next : Column), catalog.columns[i]? = some column → catalog.columns[i + 1]? = some next →
    next.index.toNat = column.index.toNat + column.size.toNat
  disjoint : ∀ (i j : Nat) (column other : Column), i ≠ j → catalog.columns[i]? = some column → catalog.columns[j]? = some other →
    ∀ p, ¬ (column.Has p ∧ other.Has p)
  cover : ∀ p, (∃ column ∈ catalog.columns, column.Has p) ↔ p < catalog.tupleSize.toNat
  written : ∀ (row : RowT catalog) (id : Nat) (column : Column) (buffer : Bytes), catalog.columns[id]? = some column →
    buffer.length = column.size.toNat → ∃ next, row.setValue id buffer = some next ∧
      row.setValueByName column.name buffer = some next ∧ next.field id = some buffer ∧
      next.fieldByName column.name = some buffer ∧ ∀ other ≠ id, next.field other = row.field other
  typed : ∀ (n : Nat) (row : RowT catalog) (id : Nat) (column : Column) (value : BitVec (8 * n)), catalog.columns[id]? = some column →
    n = column.size.toNat → ∃ next, row.setValueTyped n id value = some next ∧
      next.getValueTyped n id = some value ∧ next.field id = some (encode n value.toNat) ∧
      next.fieldByName column.name = some (encode n value.toNat) ∧ ∀ other ≠ id, next.field other = row.field other
  copied : ∀ row src : RowT catalog, ∃ next, row.copy src = some next ∧ ∀ id, next.field id = src.field id
  kept : ∀ (row fresh again : RowT catalog) (id : Nat) (column : Column) (buffer : Bytes), catalog.columns[id]? = some column →
    buffer.length = column.size.toNat → ∃ own written committed reread, fresh.copy row = some own ∧
      own.setValue id buffer = some written ∧ row.copy written = some committed ∧
      again.copy committed = some reread ∧ reread.field id = some buffer ∧
      ∀ other ≠ id, reread.field other = row.field other

theorem length_encode (n value : Nat) : (encode n value).length = n := by
  induction n generalizing value with
  | zero => rfl
  | succ n ih => rw [encode, List.length_cons, ih]

theorem decode_encode (n value : Nat) : decode (encode n value) = value % 256 ^ n := by
  induction n generalizing value with
  | zero => rw [encode, decode, Nat.pow_zero, Nat.mod_one]
  | succ n ih =>
    have low : (value % 256).toUInt8.toNat = value % 256 := by
      rw [Nat.toUInt8_eq, UInt8.toNat_ofNat']
      omega
    rw [encode, decode, ih, low, Nat.pow_succ', Nat.mod_mul]

section
variable {decls : List ColDecl} {catalog : Catalog}

theorem Ranged.within (ranged : Ranged decls catalog) {i : Nat} {column : Column}
    (found : catalog.columns[i]? = some column) :
    column.index.toNat + column.size.toNat ≤ catalog.tupleSize.toNat := by
  rw [ranged.index i column found, ranged.tupleSize]
  exact offset_add_le (ranged.size i column found)

/-- Of two columns one ends before the other starts. -/
theorem Ranged.apart (ranged : Ranged decls catalog) {i j : Nat} {column other : Column} (differ : i ≠ j)
    (found : catalog.columns[i]? = some column) (found' : catalog.columns[j]? = some other) :
    column.index.toNat + column.size.toNat ≤ other.index.toNat ∨
      other.index.toNat + other.size.toNat ≤ column.index.toNat := by
  rw [ranged.index i column found, ranged.index j other found']
  rcases Nat.lt_or_gt_of_ne differ with before | after
  · exact .inl (offset_add_le_offset before (ranged.size i column found))
  · exact .inr (offset_add_le_offset after (ranged.size j other found'))

end

section
variable {decls : List ColDecl} {catalog : Catalog} {row : RowT catalog} {id : Nat} {column : Column}

end

end DataAgentDB.Storage
