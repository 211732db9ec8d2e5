import DataAgentDB.Lib.Slices
import DataAgentDB.Storage.Row
import Mathlib.Data.List.Induction

/-! Catalogs and the bytes of a row (catalog.cpp, row.cpp, row.h): each column has a range of the
row, found by its id or by its name. -/

namespace DataAgentDB.Storage
open Slices

/-- What a `const char *` into these bytes reads as: the bytes before the first NUL. -/
def cstr (s : Bytes) : Bytes := s.takeWhile (fun c => c ≠ 0)

/-- `Column`. -/
structure Column where
  id : UInt64
  size : UInt32
  index : UInt32
  type : Bytes
  name : Bytes
  deriving DecidableEq, Repr

/-- `Catalog`; `capacity` is the length of the array `_columns`. The pointer `table_name` is left out: it
points into a string that `init_schema` destroys at the end of the section. -/
structure Catalog where
  capacity : Nat
  columns : List Column
  tupleSize : UInt32
  deriving DecidableEq, Repr

/-- The arguments of `add_col`. -/
structure ColDecl where
  colName : Bytes
  size : UInt64
  type : Bytes
  deriving DecidableEq, Repr

namespace Catalog

/-- `field_cnt`. -/
def fieldCnt (catalog : Catalog) : Nat := catalog.columns.length

def init (_tableName : Bytes) (fieldCnt : Nat) : Catalog :=
  { capacity := fieldCnt, columns := [], tupleSize := 0 }

/-- `add_col`; `none` when it writes past `_columns` or past the 80 bytes of a name or type. -/
def addCol (catalog : Catalog) (decl : ColDecl) : Option Catalog :=
  if catalog.fieldCnt < catalog.capacity ∧ (cstr decl.type).length < 80 ∧ (cstr decl.colName).length < 80 then
    let column : Column := {
      id := catalog.fieldCnt.toUInt64
      size := decl.size.toUInt32
      index := catalog.tupleSize
      type := cstr decl.type
      name := cstr decl.colName }
    some { catalog with columns := catalog.columns ++ [column], tupleSize := catalog.tupleSize + decl.size.toUInt32 }
  else none

def addCols (catalog : Catalog) (decls : List ColDecl) : Option Catalog := decls.foldlM addCol catalog

/-- `get_field_id`; `none` when its assertion fails. -/
def getFieldId (catalog : Catalog) (name : Bytes) : Option Nat :=
  catalog.columns.findIdx? (fun column => strcmp (cstr name) column.name = 0)

/-- `get_field_size(id)`; `none` past the columns. -/
def getFieldSize (catalog : Catalog) (id : Nat) : Option Nat := catalog.columns[id]?.map (fun column => column.size.toNat)

/-- `get_field_index(id)`. -/
def getFieldIndex (catalog : Catalog) (id : Nat) : Option Nat :=
  catalog.columns[id]?.map (fun column => column.index.toNat)

end Catalog

/-- `memcpy` of `size` bytes to `dst` at `pos`; `none` when it leaves one of the two buffers. -/
def memcpy (dst : Bytes) (pos : Nat) (src : Bytes) (size : Nat) : Option { data : Bytes // data.length = dst.length } :=
  if fits : size ≤ src.length ∧ pos + size ≤ dst.length then
    some ⟨splice pos (src.take size) dst, length_splice (by rw [List.length_take]; omega)⟩
  else none

/-- The bytes of a number of `n` bytes, the lowest first. -/
def encode : Nat → Nat → Bytes
  | 0, _ => []
  | n + 1, value => (value % 256).toUInt8 :: encode n (value / 256)

def decode : Bytes → Nat
  | [] => 0
  | c :: rest => c.toNat + 256 * decode rest

/-- The memory of a row of a table with this schema. -/
structure RowT (schema : Catalog) where
  data : Bytes
  full : data.length = schema.tupleSize.toNat
  deriving DecidableEq

namespace RowT

variable {schema : Catalog}

/-- A write to the memory of the row. -/
def store (row : RowT schema) (pos : Nat) (ptr : Bytes) (size : Nat) : Option (RowT schema) :=
  (memcpy row.data pos ptr size).map (fun data => { data := data.val, full := data.property.trans row.full })

/-- `set_value(id, ptr)`. -/
def setValue (row : RowT schema) (id : Nat) (ptr : Bytes) : Option (RowT schema) := do
  let datasize ← schema.getFieldSize id
  let pos ← schema.getFieldIndex id
  row.store pos ptr datasize

/-- `set_value(col_name, ptr)`. -/
def setValueByName (row : RowT schema) (colName : Bytes) (ptr : Bytes) : Option (RowT schema) := do
  let id ← schema.getFieldId colName
  row.setValue id ptr

/-- `get_value(id)`, by what the pointer points to. -/
def getValue (row : RowT schema) (id : Nat) : Option Bytes := do
  let pos ← schema.getFieldIndex id
  return row.data.drop pos

/-- `get_value(col_name)`. -/
def getValueByName (row : RowT schema) (colName : Bytes) : Option Bytes := do
  let id ← schema.getFieldId colName
  row.getValue id

/-- `SET_VALUE` for a type of `n` bytes, by the bits of the value. -/
def setValueTyped (n : Nat) (row : RowT schema) (id : Nat) (value : BitVec (8 * n)) : Option (RowT schema) :=
  row.setValue id (encode n value.toNat)

/-- `GET_VALUE`; `none` when it reads past the row. -/
def getValueTyped (n : Nat) (row : RowT schema) (id : Nat) : Option (BitVec (8 * n)) := do
  let bytes ← row.getValue id
  if n ≤ bytes.length then some (BitVec.ofNat (8 * n) (decode (bytes.take n))) else none

def setData (row : RowT schema) (data : Bytes) (size : Nat) : Option (RowT schema) := row.store 0 data size

/-- `copy` from `src` to the row. -/
def copy (row src : RowT schema) : Option (RowT schema) := row.setData src.data schema.tupleSize.toNat

/-- The bytes of a column. -/
def field (row : RowT schema) (id : Nat) : Option Bytes := do
  let size ← schema.getFieldSize id
  return (← row.getValue id).take size

def fieldByName (row : RowT schema) (colName : Bytes) : Option Bytes := do
  let size ← schema.getFieldSize (← schema.getFieldId colName)
  return (← row.getValueByName colName).take size

end RowT

def sizes (decls : List ColDecl) : List Nat := decls.map (fun decl => decl.size.toNat)

/-- The column of a declaration. -/
def ColDecl.column (decl : ColDecl) (i start : Nat) : Column where
  id := i.toUInt64
  size := decl.size.toUInt32
  index := start.toUInt32
  type := cstr decl.type
  name := cstr decl.colName

/-- The catalog of these declarations. -/
structure Laid (decls : List ColDecl) (catalog : Catalog) : Prop where
  count : catalog.columns.length = decls.length
  column : ∀ (i : Nat) (decl : ColDecl), decls[i]? = some decl →
    catalog.columns[i]? = some (decl.column i (offset (sizes decls) i))
  tupleSize : catalog.tupleSize = (sizes decls).sum.toUInt32

theorem sizes_snoc (decls : List ColDecl) (decl : ColDecl) :
    sizes (decls ++ [decl]) = sizes decls ++ [decl.size.toNat] := by
  rw [sizes, List.map_append]
  rfl

theorem toUInt32_add (a : Nat) (size : UInt64) : a.toUInt32 + size.toUInt32 = (a + size.toNat).toUInt32 := by
  apply UInt32.toNat_inj.mp
  rw [UInt32.toNat_add, UInt64.toNat_toUInt32]
  simp only [Nat.toUInt32_eq, UInt32.toNat_ofNat']
  omega

theorem offset_snoc (front : List Nat) (size : Nat) {i : Nat} (within : i ≤ front.length) :
    offset (front ++ [size]) i = offset front i := by
  rw [offset, List.take_append_of_le_length within]
  rfl

theorem Laid.addCol {decls : List ColDecl} {catalog next : Catalog} (laid : Laid decls catalog) {decl : ColDecl}
    (added : catalog.addCol decl = some next) : Laid (decls ++ [decl]) next := by
  unfold Catalog.addCol at added
  split at added
  next =>
    cases added
    have count : (sizes decls).length = decls.length := List.length_map _
    constructor
    · simp only [List.length_append, List.length_singleton, laid.count]
    · intro i other found
      rcases Nat.lt_or_ge i decls.length with before | after
      · rw [List.getElem?_append_left before] at found
        rw [List.getElem?_append_left (by rw [laid.count]; exact before), laid.column i other found, sizes_snoc,
          offset_snoc _ _ (by omega)]
      · have last : i = decls.length := by
          have inside := (List.getElem?_eq_some_iff.mp found).1
          rw [List.length_append, List.length_singleton] at inside
          omega
        subst last
        rw [List.getElem?_concat_length] at found
        cases found
        rw [← laid.count, List.getElem?_concat_length, laid.count, sizes_snoc, offset_snoc _ _ (by omega),
          offset_of_length_le (by omega)]
        simp only [ColDecl.column, Catalog.fieldCnt, laid.count, laid.tupleSize]
    · dsimp only
      rw [laid.tupleSize, toUInt32_add, sizes_snoc, List.sum_append, List.sum_singleton]
  next => cases added

theorem laid_of_addCols {tableName : Bytes} {fieldCnt : Nat} {decls : List ColDecl} {catalog : Catalog}
    (built : (Catalog.init tableName fieldCnt).addCols decls = some catalog) : Laid decls catalog := by
  induction decls using List.reverseRecOn generalizing catalog with
  | nil =>
    cases built
    exact ⟨rfl, fun i decl found => (nomatch found), rfl⟩
  | append_singleton decls decl ih =>
    rw [Catalog.addCols, List.foldlM_append] at built
    obtain ⟨middle, front, last⟩ := Option.bind_eq_some_iff.mp built
    obtain ⟨next, added, same⟩ := Option.bind_eq_some_iff.mp last
    cases same
    exact (ih front).addCol added

/-- The ranges of the columns, as numbers. -/
structure Ranged (decls : List ColDecl) (catalog : Catalog) : Prop where
  count : catalog.columns.length = decls.length
  index : ∀ (i : Nat) (column : Column), catalog.columns[i]? = some column → column.index.toNat = offset (sizes decls) i
  size : ∀ (i : Nat) (column : Column), catalog.columns[i]? = some column → (sizes decls)[i]? = some column.size.toNat
  named : ∀ (i : Nat) (column : Column), catalog.columns[i]? = some column →
    (decls.map (fun decl => cstr decl.colName))[i]? = some column.name
  tupleSize : catalog.tupleSize.toNat = (sizes decls).sum

theorem Laid.ranged {decls : List ColDecl} {catalog : Catalog} (laid : Laid decls catalog)
    (small : (sizes decls).sum < 2 ^ 31) : Ranged decls catalog := by
  have declared : ∀ {i column}, catalog.columns[i]? = some column → ∃ decl, decls[i]? = some decl ∧
      column = decl.column i (offset (sizes decls) i) ∧ offset (sizes decls) i + decl.size.toNat < 2 ^ 31 := by
    intro i column found
    have inside : i < decls.length := laid.count ▸ (List.getElem?_eq_some_iff.mp found).1
    have given := List.getElem?_eq_getElem inside
    have sized : (sizes decls)[i]? = some decls[i].size.toNat := by rw [sizes, List.getElem?_map, given]; rfl
    rw [laid.column i _ given] at found
    cases found
    exact ⟨_, given, rfl, Nat.lt_of_le_of_lt (offset_add_le sized) small⟩
  constructor
  case count =>
    exact laid.count
  case index =>
    intro i column found
    obtain ⟨decl, given, rfl, below⟩ := declared found
    simp only [ColDecl.column, Nat.toUInt32_eq, UInt32.toNat_ofNat']
    omega
  case size =>
    intro i column found
    obtain ⟨decl, given, rfl, below⟩ := declared found
    have low : decl.size.toUInt32.toNat = decl.size.toNat := by
      rw [UInt64.toNat_toUInt32]
      omega
    rw [sizes, List.getElem?_map, given, ColDecl.column, low]
    rfl
  case named =>
    intro i column found
    obtain ⟨decl, given, rfl, below⟩ := declared found
    rw [List.getElem?_map, given]
    rfl
  case tupleSize =>
    rw [laid.tupleSize, Nat.toUInt32_eq, UInt32.toNat_ofNat']
    omega

end DataAgentDB.Storage
