import DataAgentDB.Storage.Catalog
import Mathlib.Logic.Function.Basic

/-! `workload::init_schema` (wl.cpp): the schema file is read line by line, with a loop over the
sections of the file and in it a loop over the columns of a table. -/

namespace DataAgentDB.Storage

/-- An `ifstream`: what is left of the file, and whether no flag is set. -/
structure Stream where
  rest : Bytes
  good : Bool
  deriving DecidableEq, Repr

/-- `std::getline`: whether it succeeds, and the stream and the string after it. A stream that has
hit the end of the file leaves the string as it is. -/
def getline (fin : Stream) (line : Bytes) : Bool × Stream × Bytes :=
  if fin.good then
    if 10 ∈ fin.rest then
      (true, ⟨(fin.rest.dropWhile (fun c => c ≠ 10)).drop 1, true⟩, fin.rest.takeWhile (fun c => c ≠ 10))
    else (!fin.rest.isEmpty, ⟨[], false⟩, fin.rest)
  else (false, fin, line)

/-- The loop that splits a line at its commas; a comma at the end opens no token. -/
def tokens (token : Bytes) : Bytes → List Bytes
  | [] => if token.isEmpty then [] else [token]
  | c :: rest => if c = 44 then token :: tokens [] rest else tokens (token ++ [c]) rest

/-- `isspace` of the C locale. -/
def isBlank (c : UInt8) : Bool := c = 32 || (9 ≤ c && c ≤ 13)

def isDigit (c : UInt8) : Bool := 48 ≤ c && c ≤ 57

def number (s : Bytes) : Nat := (s.takeWhile isDigit).foldl (fun n c => 10 * n + (c.toNat - 48)) 0

/-- `atoi`: the `long` that `strtol` reads, cut to an `int`. -/
def atoi (s : Bytes) : Int :=
  let value : Int := match s.dropWhile isBlank with
    | 45 :: digits => -(number digits : Int)
    | 43 :: digits => number digits
    | digits => number digits
  Int.bmod (max (-2 ^ 63) (min (2 ^ 63 - 1) value)) (2 ^ 32)

/-- The tables and indexes of a `workload`. The `table_t` objects are numbered as they are made, each
with its catalog, and so are the `INDEX` objects, each with its table. -/
structure Workload where
  catalogs : List Catalog
  tables : Bytes → Option Nat
  bound : List Nat
  indexes : Bytes → Option Nat

namespace Workload

def empty : Workload := { catalogs := [], tables := fun _ => none, bound := [], indexes := fun _ => none }

/-- `tables[tname] = cur_tab`. -/
def addTable (w : Workload) (tname : Bytes) (schema : Catalog) : Workload :=
  { w with catalogs := w.catalogs ++ [schema], tables := Function.update w.tables tname (some w.catalogs.length) }

/-- `indexes[iname] = index`. -/
def addIndex (w : Workload) (iname : Bytes) (table : Nat) : Workload :=
  { w with bound := w.bound ++ [table], indexes := Function.update w.indexes iname (some w.bound.length) }

end Workload

/-- How `init_schema` ends: it returns, an assertion fails, or what it does is undefined. -/
inductive Ended where
  | returned (w : Workload)
  | assertion
  | undefined

/-- The three fields of a column line. -/
def parseColumn (line : Bytes) : Option ColDecl :=
  match tokens [] line with
  | [size, type, name] => some { colName := name, size := UInt64.ofInt (atoi size), type := type }
  | _ => none

/-- The loop over the column lines of a table. -/
def addColumns : Catalog → List Bytes → Except Ended Catalog
  | schema, [] => .ok schema
  | schema, line :: lines =>
      match parseColumn line with
      | none => .error .assertion
      | some decl =>
          match schema.addCol decl with
          | none => .error .undefined
          | some schema => addColumns schema lines

/-- Where the next iteration is: in the loop over the sections, or in the loop that collects the column
lines of a table. -/
inductive Loop where
  | sections
  | columns (tname : Bytes) (lines : List Bytes)

structure Scan where
  fin : Stream
  line : Bytes
  loop : Loop
  w : Workload

namespace Scan

/-- The first line of a section is read. -/
def header (fin : Stream) (line : Bytes) (w : Workload) : Scan ⊕ Ended :=
  if line.take 6 = bytes "TABLE=" then
    let tname := cstr (line.drop 6)
    let (_, fin, line) := getline fin line
    .inl { fin := fin, line := line, loop := .columns tname [], w := w }
  else if line.take 6 = bytes "INDEX=" then
    let iname := cstr (line.drop 6)
    let (_, fin, line) := getline fin line
    match tokens [] line with
    | [] => .inr .undefined
    | tname :: _ =>
        match w.tables tname with
        | none => .inr .assertion
        | some table => .inl { fin := fin, line := [], loop := .sections, w := w.addIndex iname table }
  else .inl { fin := fin, line := line, loop := .sections, w := w }

/-- One iteration of the loop the scan is in. -/
def step (s : Scan) : Scan ⊕ Ended :=
  match s.loop with
  | .sections =>
      match getline s.fin s.line with
      | (false, _, _) => .inr (.returned s.w)
      | (true, fin, line) => header fin line s.w
  | .columns tname lines =>
      if s.line.length > 1 then
        let (_, fin, line) := getline s.fin s.line
        .inl { s with fin := fin, line := line, loop := .columns tname (lines ++ [s.line]) }
      else
        match addColumns (Catalog.init tname lines.length) lines with
        | .error ended => .inr ended
        | .ok schema => .inl { s with loop := .sections, w := s.w.addTable tname schema }

/-- The scan for at most `n` iterations. -/
def run : Nat → Scan → Option Ended
  | 0, _ => none
  | n + 1, s =>
      match s.step with
      | .inl next => run n next
      | .inr ended => some ended

end Scan

/-- `init_schema` as it opens the file. -/
def initSchema (content : Bytes) : Scan :=
  { fin := { rest := content, good := true }, line := [], loop := .sections, w := Workload.empty }

section
variable {text rest line : Bytes}

theorem getline_line (clean : 10 ∉ text) (rest line : Bytes) :
    getline ⟨text ++ 10 :: rest, true⟩ line = (true, ⟨rest, true⟩, text) := by
  have other : ∀ c ∈ text, decide (c ≠ 10) = true := by
    intro c member
    have apart : c ≠ 10 := fun same => clean (same ▸ member)
    simpa using apart
  have front : (text ++ 10 :: rest).takeWhile (fun c => c ≠ 10) = text := by
    rw [List.takeWhile_append_of_pos other]
    simp
  have back : (text ++ 10 :: rest).dropWhile (fun c => c ≠ 10) = 10 :: rest := by
    rw [List.dropWhile_append_of_pos other]
    rfl
  have present : 10 ∈ text ++ 10 :: rest := List.mem_append_right _ List.mem_cons_self
  simp only [getline, if_true, if_pos present, front, back]
  rfl

theorem getline_last (clean : 10 ∉ text) (line : Bytes) :
    getline ⟨text, true⟩ line = (!text.isEmpty, ⟨[], false⟩, text) := by
  simp only [getline, if_true, if_neg clean]

/-- A text is one line, or begins with a line. -/
theorem line_cases (text : Bytes) : 10 ∉ text ∨ ∃ line rest, 10 ∉ line ∧ text = line ++ 10 :: rest := by
  by_cases present : 10 ∈ text
  · obtain ⟨line, rest, split, clean⟩ := List.eq_append_cons_of_mem present
    exact .inr ⟨line, rest, clean, split⟩
  · exact .inl present

end

end DataAgentDB.Storage
