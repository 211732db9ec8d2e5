import DataAgentDB.Storage.Numeral
import DataAgentDB.Storage.SchemaEnds
import Mathlib.Data.List.TakeWhile

/-! The text of a schema, as the two schema files of the repository have it, and what `init_schema` makes
of each of its parts. -/

namespace DataAgentDB.Storage
open Slices

structure ColText where
  indent : Bytes
  size : Nat
  type : Bytes
  name : Bytes
  deriving DecidableEq, Repr

structure TableText where
  name : Bytes
  columns : List ColText
  deriving DecidableEq, Repr

structure IndexText where
  name : Bytes
  indent : Bytes
  table : Bytes
  number : Nat
  deriving DecidableEq, Repr

inductive Entry where
  | table (t : TableText)
  | index (x : IndexText)
  deriving DecidableEq, Repr

/-- A table or an index, with the comment lines before it. -/
structure Part where
  comments : List Bytes
  entry : Entry
  deriving DecidableEq, Repr

def ColText.line (c : ColText) : Bytes :=
  c.indent ++ (bytes (toString c.size) ++ 44 :: (c.type ++ 44 :: c.name))

def TableText.header (t : TableText) : Bytes := bytes "TABLE=" ++ t.name

def IndexText.header (x : IndexText) : Bytes := bytes "INDEX=" ++ x.name

def IndexText.line (x : IndexText) : Bytes := x.indent ++ x.table ++ 44 :: bytes (toString x.number)

def Entry.lines : Entry → List Bytes
  | .table t => t.header :: (t.columns.map ColText.line ++ [[]])
  | .index x => [x.header, x.line]

def Part.lines (part : Part) : List Bytes := part.comments ++ part.entry.lines

/-- The file; the newline after its last line can be missing. -/
def file (newline : Bool) (parts : List Part) : Bytes :=
  let text := unlines (parts.flatMap Part.lines)
  if newline then text else text.dropLast

def Blanks (indent : Bytes) : Prop := ∀ c ∈ indent, c = 32 ∨ c = 9

/-- A name or a type. -/
structure Word (s : Bytes) : Prop where
  nonempty : s ≠ []
  comma : 44 ∉ s
  clean : 10 ∉ s
  short : s.length < 80

structure ColText.Fine (c : ColText) : Prop where
  indent : Blanks c.indent
  positive : 0 < c.size
  type : Word c.type
  name : Word c.name

structure TableText.Fine (t : TableText) : Prop where
  name : Word t.name
  nonempty : t.columns ≠ []
  columns : ∀ c ∈ t.columns, c.Fine
  total : (t.columns.map ColText.size).sum < 2 ^ 31

structure IndexText.Fine (x : IndexText) : Prop where
  name : Word x.name
  indent : Blanks x.indent
  table : Word x.table

def Entry.Fine : Entry → Prop
  | .table t => t.Fine
  | .index x => x.Fine

/-- A line that begins no section. -/
structure Comment (line : Bytes) : Prop where
  clean : 10 ∉ line
  noTable : line.take 6 ≠ bytes "TABLE="
  noIndex : line.take 6 ≠ bytes "INDEX="

structure Part.Fine (part : Part) : Prop where
  comments : ∀ line ∈ part.comments, Comment line
  entry : part.entry.Fine

section
variable {token word rest digits indent line : Bytes} {c : ColText} {t : TableText} {x : IndexText}

theorem tokens_comma (comma : 44 ∉ word) (token rest : Bytes) :
    tokens token (word ++ 44 :: rest) = (token ++ word) :: tokens [] rest := by
  induction word generalizing token with
  | nil => rw [List.nil_append, tokens, if_pos rfl, List.append_nil]
  | cons c word ih =>
    have other : c ≠ 44 := fun same => comma (same ▸ List.mem_cons_self)
    rw [List.cons_append, tokens, if_neg other, ih (fun member => comma (List.mem_cons_of_mem c member)),
      List.append_assoc]
    rfl

theorem tokens_last (comma : 44 ∉ word) (nonempty : token ++ word ≠ []) : tokens token word = [token ++ word] := by
  induction word generalizing token with
  | nil =>
    rw [List.append_nil] at nonempty ⊢
    rw [tokens, List.isEmpty_eq_false_iff.mpr nonempty]
    rfl
  | cons c word ih =>
    have other : c ≠ 44 := fun same => comma (same ▸ List.mem_cons_self)
    have joined : token ++ c :: word = token ++ [c] ++ word := by rw [List.append_assoc]; rfl
    rw [joined] at nonempty ⊢
    rw [tokens, if_neg other, ih (fun member => comma (List.mem_cons_of_mem c member)) nonempty]

theorem digit_ne {n : Nat} {c : UInt8} (low : c.toNat < 48) : c ∉ bytes (toString n) := by
  intro member
  have range := digit_of_mem member
  omega

theorem Blanks.not_mem (blanks : Blanks indent) {c : UInt8} (other : c ≠ 32 ∧ c ≠ 9) : c ∉ indent := by
  intro member
  rcases blanks c member with same | same
  · exact other.1 same
  · exact other.2 same

theorem number_numeral (n : Nat) : number (bytes (toString n)) = n := by
  have all : (bytes (toString n)).takeWhile isDigit = bytes (toString n) := by
    refine List.takeWhile_eq_self_iff.mpr (fun c member => ?_)
    have range := digit_of_mem member
    simp only [isDigit, Bool.and_eq_true, decide_eq_true_eq, UInt8.le_iff_toNat_le]
    exact range
  rw [number, all, foldl_numeral]

/-- `atoi` skips the blanks before a number. -/
theorem atoi_indented (blanks : Blanks indent) {n : Nat} (small : n < 2 ^ 31) :
    atoi (indent ++ bytes (toString n)) = n := by
  have skipped : (indent ++ bytes (toString n)).dropWhile isBlank = bytes (toString n) := by
    have blank : ∀ c ∈ indent, isBlank c = true := by
      intro c member
      rcases blanks c member with rfl | rfl <;> rfl
    rw [List.dropWhile_append_of_pos blank]
    cases written : bytes (toString n) with
    | nil => rfl
    | cons c digits =>
      have range := digit_of_mem (n := n) (written ▸ List.mem_cons_self : c ∈ bytes (toString n))
      have notBlank : isBlank c = false := by
        simp only [isBlank, Bool.or_eq_false_iff, Bool.and_eq_false_iff, decide_eq_false_iff_not, UInt8.le_iff_toNat_le]
        refine ⟨fun same => ?_, .inr ?_⟩
        · rw [same] at range
          exact absurd range.1 (by decide)
        · have top : (13 : UInt8).toNat = 13 := rfl
          omega
      rw [List.dropWhile_cons_of_neg (by rw [notBlank]; exact Bool.false_ne_true)]
  have kept : Int.bmod (max (-2 ^ 63) (min (2 ^ 63 - 1) (n : Int))) (2 ^ 32) = n := by
    have inside : max (-2 ^ 63) (min (2 ^ 63 - 1) (n : Int)) = n := by omega
    rw [inside]
    exact Int.bmod_eq_of_le (by omega) (by omega)
  rw [atoi, skipped]
  split
  next digits written =>
    exact absurd (written ▸ List.mem_cons_self) (digit_ne (n := n) (c := 45) (by decide))
  next digits written =>
    exact absurd (written ▸ List.mem_cons_self) (digit_ne (n := n) (c := 43) (by decide))
  next =>
    rw [number_numeral]
    exact kept

def ColText.decl (c : ColText) : ColDecl where
  colName := c.name
  size := c.size.toUInt64
  type := c.type

theorem not_mem_line (fine : c.Fine) : 10 ∉ c.line := by
  simp only [ColText.line, List.mem_append, List.mem_cons, not_or]
  exact ⟨fine.indent.not_mem (by decide), digit_ne (by decide), by decide, fine.type.clean, by decide,
    fine.name.clean⟩

theorem one_lt_length_line (c : ColText) : 1 < c.line.length := by
  simp only [ColText.line, List.length_append, List.length_cons]
  omega

theorem length_cstr_le (s : Bytes) : (cstr s).length ≤ s.length := (List.takeWhile_prefix _).length_le

theorem parseColumn_line (fine : c.Fine) (small : c.size < 2 ^ 31) : parseColumn c.line = some c.decl := by
  have first : 44 ∉ c.indent ++ bytes (toString c.size) := by
    rw [List.mem_append, not_or]
    exact ⟨fine.indent.not_mem (by decide), digit_ne (by decide)⟩
  have split : tokens [] c.line = [c.indent ++ bytes (toString c.size), c.type, c.name] := by
    rw [ColText.line, ← List.append_assoc, tokens_comma first, tokens_comma fine.type.comma,
      tokens_last fine.name.comma (by simpa using fine.name.nonempty)]
    rfl
  have same : UInt64.ofInt (c.size : Int) = c.size.toUInt64 := by
    apply UInt64.toNat_inj.mp
    simp only [UInt64.ofInt, Nat.toUInt64_eq, UInt64.toNat_ofNat']
    omega
  rw [parseColumn, split]
  dsimp only
  rw [atoi_indented fine.indent small, same]
  rfl

theorem columnLine (fine : c.Fine) (small : c.size < 2 ^ 31) : ColumnLine c.line :=
  ⟨c.decl, parseColumn_line fine small, Nat.lt_of_le_of_lt (length_cstr_le _) fine.type.short,
    Nat.lt_of_le_of_lt (length_cstr_le _) fine.name.short⟩

def TableText.decls (t : TableText) : List ColDecl := t.columns.map ColText.decl

theorem size_lt (fine : t.Fine) (member : c ∈ t.columns) : c.size < 2 ^ 31 := by
  obtain ⟨i, found⟩ := List.mem_iff_getElem?.mp (List.mem_map_of_mem (f := ColText.size) member)
  have within := offset_add_le found
  exact Nat.lt_of_le_of_lt (Nat.le_trans (Nat.le_add_left _ _) within) fine.total

theorem sizes_decls (fine : t.Fine) : sizes t.decls = t.columns.map ColText.size := by
  rw [sizes, TableText.decls, List.map_map]
  refine List.map_congr_left (fun c member => ?_)
  have small := size_lt fine member
  simp only [Function.comp_apply, ColText.decl, Nat.toUInt64_eq, UInt64.toNat_ofNat']
  omega

/-- The columns that the loop adds are those that the lines declare. -/
theorem addColumns_addCols {columns : List ColText} {schema next : Catalog}
    (parsed : ∀ c ∈ columns, parseColumn c.line = some c.decl)
    (added : addColumns schema (columns.map ColText.line) = .ok next) :
    schema.addCols (columns.map ColText.decl) = some next := by
  induction columns generalizing schema with
  | nil =>
    cases added
    rfl
  | cons c columns ih =>
    obtain ⟨here, later⟩ := List.forall_mem_cons.mp parsed
    rw [List.map_cons, addColumns, here] at added
    dsimp only at added
    split at added
    next => cases added
    next middle first =>
      rw [List.map_cons, Catalog.addCols, List.foldlM_cons, first]
      exact ih later added

/-- The catalog of a table. -/
theorem exists_schema (fine : t.Fine) : ∃ schema,
    addColumns (Catalog.init (cstr t.name) (t.columns.map ColText.line).length) (t.columns.map ColText.line) = .ok schema ∧
      Laid t.decls schema := by
  have room := room_init (cstr t.name) (t.columns.map ColText.line)
  have parsed : ∀ c ∈ t.columns, parseColumn c.line = some c.decl :=
    fun c member => parseColumn_line (fine.columns c member) (size_lt fine member)
  rcases addColumns_cases room with ⟨-, schema, built⟩ | ⟨⟨line, member, odd⟩, -⟩ |
    ⟨front, line, back, split, -, wide⟩
  · exact ⟨schema, built, laid_of_addCols (addColumns_addCols parsed built)⟩
  · obtain ⟨c, listed, rfl⟩ := List.mem_map.mp member
    exact absurd (columnLine (fine.columns c listed) (size_lt fine listed)) odd
  · have member : line ∈ t.columns.map ColText.line := split ▸ List.mem_append_right _ List.mem_cons_self
    obtain ⟨c, listed, rfl⟩ := List.mem_map.mp member
    exact absurd (columnLine (fine.columns c listed) (size_lt fine listed)) wide.not_columnLine

end

/-- What a part adds to the workload; `none` when an assertion fails. -/
def Entry.add (w : Workload) : Entry → Option Workload
  | .table t =>
      let lines := t.columns.map ColText.line
      match addColumns (Catalog.init (cstr t.name) lines.length) lines with
      | .error _ => none
      | .ok schema => some (w.addTable (cstr t.name) schema)
  | .index x => (w.tables (x.indent ++ x.table)).map (w.addIndex (cstr x.name))

/-- The lines, with what the file has after them; `none` when it ends without their last newline. -/
def closed (lines : List Bytes) : Option Bytes → Bytes
  | some rest => unlines lines ++ rest
  | none => (unlines lines).dropLast

def left : Option Bytes → Stream
  | some rest => { rest := rest, good := true }
  | none => { rest := [], good := false }

section
variable {lines : List Bytes} {line rest old : Bytes} {fin : Stream} {w w' : Workload} {ended : Ended}
  {t : TableText} {x : IndexText} {entry : Entry} {part : Part} {parts : List Part}

theorem unlines_append (front lines : List Bytes) : unlines (front ++ lines) = unlines front ++ unlines lines :=
  List.flatMap_append

theorem unlines_ne_nil (nonempty : lines ≠ []) : unlines lines ≠ [] := by
  obtain ⟨line, lines, rfl⟩ := List.exists_cons_of_ne_nil nonempty
  simp [unlines]

theorem closed_append (front : List Bytes) (nonempty : lines ≠ []) (after : Option Bytes) :
    closed (front ++ lines) after = unlines front ++ closed lines after := by
  cases after with
  | none => rw [closed, closed, unlines_append, List.dropLast_append_of_ne_nil (unlines_ne_nil nonempty)]
  | some rest => rw [closed, closed, unlines_append, List.append_assoc]

theorem closed_cons (line : Bytes) (nonempty : lines ≠ []) (after : Option Bytes) :
    closed (line :: lines) after = line ++ 10 :: closed lines after := by
  have split := closed_append [line] nonempty after
  rwa [unlines_cons] at split

/-- The last line is read with its newline or without. -/
theorem getline_closed (clean : 10 ∉ line) (after : Option Bytes) (old : Bytes) :
    (getline ⟨closed [line] after, true⟩ old).2 = (left after, line) := by
  cases after with
  | none =>
    have text : closed [line] none = line := by simp [closed, unlines]
    rw [text, getline_last clean]
    rfl
  | some rest =>
    rw [closed, unlines_cons, getline_line clean]
    rfl

/-- Between the sections the line that was read last is not read again. -/
theorem ends_old (old old' : Bytes) : Ends ⟨fin, old, .sections, w⟩ ended ↔ Ends ⟨fin, old', .sections, w⟩ ended := by
  have same : Scan.step ⟨fin, old, .sections, w⟩ = Scan.step ⟨fin, old', .sections, w⟩ := by
    obtain ⟨rest, good⟩ := fin
    cases good with
    | false => rfl
    | true => rfl
  cases step : Scan.step ⟨fin, old, .sections, w⟩ with
  | inl next => rw [ends_step step, ends_step (same.symm.trans step)]
  | inr ended' => rw [ends_iff_of_step step, ends_iff_of_step (same.symm.trans step)]

theorem ends_comments {comments : List Bytes} (all : ∀ line ∈ comments, Comment line) (rest old : Bytes) :
    Ends ⟨⟨unlines comments ++ rest, true⟩, old, .sections, w⟩ ended ↔
      Ends ⟨⟨rest, true⟩, old, .sections, w⟩ ended := by
  induction comments with
  | nil => exact Iff.rfl
  | cons line comments ih =>
    obtain ⟨here, later⟩ := List.forall_mem_cons.mp all
    have step := (step_sections (w := w) here.clean (unlines comments ++ rest) old).trans
      (header_other here.noTable here.noIndex)
    rw [unlines_cons, ends_step step, ends_old line old]
    exact ih later

theorem take_header (front : Bytes) (six : front.length = 6) (name : Bytes) :
    (front ++ name).take 6 = front ∧ (front ++ name).drop 6 = name :=
  ⟨List.take_left' six, List.drop_left' six⟩

theorem not_mem_header {front name : Bytes} (clean : 10 ∉ front) (word : Word name) : 10 ∉ front ++ name := by
  rw [List.mem_append, not_or]
  exact ⟨clean, word.clean⟩

theorem add_table (fine : t.Fine) (w : Workload) : ∃ schema, Laid t.decls schema ∧
    addColumns (Catalog.init (cstr t.name) (t.columns.map ColText.line).length) (t.columns.map ColText.line) = .ok schema ∧
      (Entry.table t).add w = some (w.addTable (cstr t.name) schema) := by
  obtain ⟨schema, built, laid⟩ := exists_schema fine
  refine ⟨schema, laid, built, ?_⟩
  simp only [Entry.add, built]

theorem ends_table (fine : t.Fine) (after : Option Bytes) (old : Bytes) :
    Ends ⟨⟨closed (Entry.table t).lines after, true⟩, old, .sections, w⟩ ended ↔
      ∃ next, (Entry.table t).add w = some next ∧ Ends ⟨left after, [], .sections, next⟩ ended := by
  obtain ⟨schema, -, built, added⟩ := add_table fine w
  have long : ∀ column ∈ t.columns.map ColText.line, 10 ∉ column ∧ 1 < column.length := by
    intro column member
    obtain ⟨c, listed, rfl⟩ := List.mem_map.mp member
    exact ⟨not_mem_line (fine.columns c listed), one_lt_length_line c⟩
  have clean : 10 ∉ t.header := not_mem_header (by decide) fine.name
  obtain ⟨isTable, name⟩ := take_header (bytes "TABLE=") (by decide) t.name
  have opened := (step_sections (w := w) clean (unlines (t.columns.map ColText.line) ++ closed [[]] after) old).trans
    (header_table isTable)
  have ends := @step_columns_short [] (left after) (cstr t.name) (t.columns.map ColText.line) w (Nat.zero_le 1)
  rw [built] at ends
  rw [Entry.lines, closed_cons _ (by simp), closed_append _ (by simp), ends_step opened, ends_columns long,
    List.nil_append, getline_closed (by simp), TableText.header, name, ends_step ends, added]
  simp

/-- The table of an index is looked up under the whole first field of its line. -/
theorem ends_index (fine : x.Fine) (after : Option Bytes) (old : Bytes) :
    Ends ⟨⟨closed (Entry.index x).lines after, true⟩, old, .sections, w⟩ (.returned w') ↔
      ∃ next, (Entry.index x).add w = some next ∧ Ends ⟨left after, [], .sections, next⟩ (.returned w') := by
  have clean : 10 ∉ x.header := not_mem_header (by decide) fine.name
  have clean' : 10 ∉ x.line := by
    simp only [IndexText.line, List.mem_append, List.mem_cons, not_or]
    exact ⟨⟨fine.indent.not_mem (by decide), fine.table.clean⟩, by decide, digit_ne (by decide)⟩
  have first : (tokens [] x.line).head? = some (x.indent ++ x.table) := by
    have comma : 44 ∉ x.indent ++ x.table := by
      rw [List.mem_append, not_or]
      exact ⟨fine.indent.not_mem (by decide), fine.table.comma⟩
    rw [IndexText.line, tokens_comma comma]
    rfl
  obtain ⟨isIndex, name⟩ := take_header (bytes "INDEX=") (by decide) x.name
  have step := step_sections (w := w) clean (closed [x.line] after) old
  have read := getline_closed clean' after x.header
  rw [Entry.lines, closed_cons _ (by simp)]
  rcases header_index ⟨closed [x.line] after, true⟩ w isIndex with
    ⟨ended, stops, fails, -, missing⟩ | ⟨tname, table, first', found, goes⟩
  · rw [← IndexText.header] at stops missing
    rw [read] at missing
    rw [ends_iff_of_step (step.trans stops), Entry.add, missing _ first]
    exact ⟨fun same => absurd same (fails w'), fun ⟨_, added, _⟩ => nomatch added⟩
  · rw [← IndexText.header] at first' goes
    rw [read] at first' goes
    cases first.symm.trans first'
    rw [ends_step (step.trans goes), Entry.add, found, IndexText.header, name]
    simp

theorem ends_entry (fine : entry.Fine) (after : Option Bytes) (old : Bytes) :
    Ends ⟨⟨closed entry.lines after, true⟩, old, .sections, w⟩ (.returned w') ↔
      ∃ next, entry.add w = some next ∧ Ends ⟨left after, [], .sections, next⟩ (.returned w') := by
  cases entry with
  | table t => exact ends_table fine after old
  | index x => exact ends_index fine after old

theorem lines_ne_nil (entry : Entry) : entry.lines ≠ [] := by
  cases entry <;> simp [Entry.lines]

theorem file_cons (newline : Bool) (part : Part) (nonempty : parts ≠ []) :
    file newline (part :: parts) = unlines part.lines ++ file newline parts := by
  have filled : parts.flatMap Part.lines ≠ [] := by
    obtain ⟨first, parts, rfl⟩ := List.exists_cons_of_ne_nil nonempty
    simp [Part.lines, lines_ne_nil]
  cases newline with
  | false => exact closed_append part.lines filled none
  | true => exact unlines_append part.lines _

theorem step_file_nil (newline : Bool) (old : Bytes) (w : Workload) :
    Scan.step ⟨⟨file newline [], true⟩, old, .sections, w⟩ = .inr (.returned w) := by
  cases newline <;> rfl

theorem file_closed (newline : Bool) (part : Part) (parts : List Part) : ∃ after,
    file newline (part :: parts) = closed part.lines after ∧ ∀ w old ended,
      Ends ⟨left after, old, .sections, w⟩ ended ↔ Ends ⟨⟨file newline parts, true⟩, old, .sections, w⟩ ended := by
  cases parts with
  | cons next parts =>
    refine ⟨some (file newline (next :: parts)), file_cons newline part (by simp), fun w old ended => Iff.rfl⟩
  | nil =>
    have alone : [part].flatMap Part.lines = part.lines := by simp
    cases newline with
    | false =>
      refine ⟨none, congrArg (fun lines => (unlines lines).dropLast) alone, fun w old ended => ?_⟩
      have ended' : Scan.step ⟨left none, old, .sections, w⟩ = .inr (.returned w) := rfl
      rw [ends_iff_of_step ended', ends_iff_of_step (step_file_nil false old w)]
    | true =>
      refine ⟨some [], ?_, fun w old ended => Iff.rfl⟩
      rw [closed, List.append_nil, ← alone]
      rfl

/-- The whole file adds its parts one after another. -/
theorem ends_file (fine : ∀ part ∈ parts, part.Fine) (newline : Bool) (old : Bytes) :
    Ends ⟨⟨file newline parts, true⟩, old, .sections, w⟩ (.returned w') ↔
      parts.foldlM (fun w part => part.entry.add w) w = some w' := by
  induction parts generalizing w old with
  | nil =>
    rw [ends_iff_of_step (step_file_nil newline old w)]
    simp
  | cons part parts ih =>
    obtain ⟨here, later⟩ := List.forall_mem_cons.mp fine
    obtain ⟨after, text, goes⟩ := file_closed newline part parts
    rw [text, Part.lines, closed_append _ (lines_ne_nil part.entry), ends_comments here.comments,
      ends_entry here.entry, List.foldlM_cons]
    simp only [goes, ih later, Option.bind_eq_bind, Option.bind_eq_some_iff]

end

end DataAgentDB.Storage
