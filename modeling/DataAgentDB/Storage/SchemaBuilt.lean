import DataAgentDB.Lib.Numbering
import DataAgentDB.Storage.SchemaText

/-! The workload that `init_schema` builds from the text of a schema. -/

namespace DataAgentDB.Storage
open Slices Numbering

def Entry.table? : Entry → Option TableText
  | .table t => some t
  | .index _ => none

def Entry.index? : Entry → Option IndexText
  | .table _ => none
  | .index x => some x

def tablesOf (parts : List Part) : List TableText := parts.filterMap (fun part => part.entry.table?)

def indexesOf (parts : List Part) : List IndexText := parts.filterMap (fun part => part.entry.index?)

/-- A schema: each part is well formed, and each index is on a table declared before it. -/
structure WellFormed (parts : List Part) : Prop where
  fine : ∀ part ∈ parts, part.Fine
  declared : ∀ (front after : List Part) (part : Part) (x : IndexText), parts = front ++ part :: after →
    part.entry = .index x → x.table ∈ (tablesOf front).map TableText.name

/-- The catalog has exactly the columns of the table, in order and one behind another. -/
structure Holds (t : TableText) (catalog : Catalog) : Prop where
  count : catalog.columns.length = t.columns.length
  column : ∀ (i : Nat) (c : ColText), t.columns[i]? = some c → ∃ column : Column,
    catalog.columns[i]? = some column ∧ column.size.toNat = c.size ∧ column.type = c.type ∧ column.name = c.name ∧
      column.index.toNat = offset (t.columns.map ColText.size) i

/-- The workload has exactly these tables and indexes, and each index is on the table it names. -/
structure Built (parts : List Part) (w : Workload) : Prop where
  tables : ∀ (name : Bytes) (i : Nat), w.tables name = some i ↔
    ((tablesOf parts).map TableText.name)[i]? = some name
  catalogs : List.Forall₂ Holds (tablesOf parts) w.catalogs
  indexes : ∀ (name : Bytes) (j : Nat), w.indexes name = some j ↔
    ((indexesOf parts).map IndexText.name)[j]? = some name
  bound : List.Forall₂ (fun x table => w.tables x.table = some table) (indexesOf parts) w.bound

/-- No index line is indented, no name is declared twice, and none contains a NUL. -/
structure Plain (parts : List Part) : Prop where
  unindented : ∀ x ∈ indexesOf parts, x.indent = []
  tables : ((tablesOf parts).map TableText.name).Nodup
  indexes : ((indexesOf parts).map IndexText.name).Nodup
  tableNames : ∀ t ∈ tablesOf parts, 0 ∉ t.name
  indexNames : ∀ x ∈ indexesOf parts, 0 ∉ x.name
  columns : ∀ t ∈ tablesOf parts, ∀ c ∈ t.columns, 0 ∉ c.type ∧ 0 ∉ c.name

section
variable {parts : List Part} {part : Part} {w w' : Workload} {t : TableText} {x : IndexText} {schema : Catalog}

theorem cstr_eq_self_iff (s : Bytes) : cstr s = s ↔ 0 ∉ s := by
  rw [cstr, List.takeWhile_eq_self_iff]
  constructor
  · intro all member
    simpa using all 0 member
  · intro absent c member
    have apart : c ≠ 0 := fun same => absent (same ▸ member)
    simpa using apart

/-- What the loop over the columns built, by the text of the column. -/
theorem laid_column (fine : t.Fine) (laid : Laid t.decls schema) {i : Nat} {c : ColText}
    (found : t.columns[i]? = some c) : ∃ column : Column, schema.columns[i]? = some column ∧
      column.size.toNat = c.size ∧ column.type = cstr c.type ∧ column.name = cstr c.name ∧
        column.index.toNat = offset (t.columns.map ColText.size) i := by
  have given : t.decls[i]? = some c.decl := by rw [TableText.decls, List.getElem?_map, found]; rfl
  have built := laid.column i c.decl given
  have ranged := laid.ranged (by rw [sizes_decls fine]; exact fine.total)
  have sized := ranged.size i _ built
  rw [sizes_decls fine, List.getElem?_map, found] at sized
  refine ⟨_, built, (Option.some.inj sized).symm, rfl, rfl, ?_⟩
  rw [ranged.index i _ built, sizes_decls fine]

theorem holds_of_laid (fine : t.Fine) (laid : Laid t.decls schema)
    (nulFree : ∀ c ∈ t.columns, 0 ∉ c.type ∧ 0 ∉ c.name) : Holds t schema := by
  constructor
  · rw [laid.count, TableText.decls, List.length_map]
  · intro i c found
    obtain ⟨column, built, size, type, name, index⟩ := laid_column fine laid found
    obtain ⟨cleanType, cleanName⟩ := nulFree c (List.mem_of_getElem? found)
    refine ⟨column, built, size, ?_, ?_, index⟩
    · rw [type, (cstr_eq_self_iff _).mpr cleanType]
    · rw [name, (cstr_eq_self_iff _).mpr cleanName]

theorem nulFree_of_holds (fine : t.Fine) (laid : Laid t.decls schema) (holds : Holds t schema) :
    ∀ c ∈ t.columns, 0 ∉ c.type ∧ 0 ∉ c.name := by
  intro c member
  obtain ⟨i, found⟩ := List.mem_iff_getElem?.mp member
  obtain ⟨column, built, -, type, name, -⟩ := laid_column fine laid found
  obtain ⟨other, held, -, type', name', -⟩ := holds.column i c found
  cases built.symm.trans held
  exact ⟨(cstr_eq_self_iff _).mp (type.symm.trans type'), (cstr_eq_self_iff _).mp (name.symm.trans name')⟩

/-- The workload after the parts were added, as their lines are read. -/
structure Folded (parts : List Part) (w : Workload) : Prop where
  tables : Numbers ((tablesOf parts).map (fun t => cstr t.name)) w.tables
  catalogs : List.Forall₂ (fun t schema => Laid t.decls schema) (tablesOf parts) w.catalogs
  indexes : Numbers ((indexesOf parts).map (fun x => cstr x.name)) w.indexes
  bound : List.Forall₂ (fun x table => ((tablesOf parts).map (fun t => cstr t.name))[table]? = some (x.indent ++ x.table))
    (indexesOf parts) w.bound

theorem Folded.empty : Folded [] Workload.empty := ⟨.nil, .nil, .nil, .nil⟩

theorem Folded.add (folded : Folded parts w) (fine : part.Fine) (added : part.entry.add w = some w') :
    Folded (parts ++ [part]) w' := by
  obtain ⟨comments, entry⟩ := part
  cases entry with
  | table t =>
    obtain ⟨schema, laid, -, same⟩ := add_table fine.entry w
    cases same.symm.trans added
    have tables : tablesOf (parts ++ [⟨comments, .table t⟩]) = tablesOf parts ++ [t] := filterMap_snoc _ _ _
    have indexes : indexesOf (parts ++ [⟨comments, .table t⟩]) = indexesOf parts := by
      rw [indexesOf, filterMap_snoc]
      exact List.append_nil _
    have count : w.catalogs.length = ((tablesOf parts).map (fun t => cstr t.name)).length := by
      rw [List.length_map]
      exact folded.catalogs.length_eq.symm
    constructor
    case tables =>
      rw [tables, List.map_append, Workload.addTable, count]
      exact folded.tables.snoc (cstr t.name)
    case catalogs =>
      rw [tables]
      exact forall₂_snoc folded.catalogs laid
    case indexes =>
      rw [indexes]
      exact folded.indexes
    case bound =>
      rw [indexes, tables, List.map_append]
      refine folded.bound.imp (fun x table found => ?_)
      rw [List.getElem?_append_left (List.getElem?_eq_some_iff.mp found).1]
      exact found
  | index x =>
    rw [Entry.add, Option.map_eq_some_iff] at added
    obtain ⟨table, found, rfl⟩ := added
    have tables : tablesOf (parts ++ [⟨comments, .index x⟩]) = tablesOf parts := by
      rw [tablesOf, filterMap_snoc]
      exact List.append_nil _
    have indexes : indexesOf (parts ++ [⟨comments, .index x⟩]) = indexesOf parts ++ [x] := filterMap_snoc _ _ _
    have count : w.bound.length = ((indexesOf parts).map (fun x => cstr x.name)).length := by
      rw [List.length_map]
      exact folded.bound.length_eq.symm
    constructor
    case tables =>
      rw [tables]
      exact folded.tables
    case catalogs =>
      rw [tables]
      exact folded.catalogs
    case indexes =>
      rw [indexes, List.map_append, Workload.addIndex, count]
      exact folded.indexes.snoc (cstr x.name)
    case bound =>
      rw [indexes, tables]
      exact forall₂_snoc folded.bound (folded.tables.named _ _ found)

theorem folded_of_foldlM (fine : ∀ part ∈ parts, part.Fine)
    (added : parts.foldlM (fun w part => part.entry.add w) Workload.empty = some w) : Folded parts w := by
  induction parts using List.reverseRecOn generalizing w with
  | nil =>
    cases added
    exact Folded.empty
  | append_singleton parts part ih =>
    rw [List.foldlM_append] at added
    obtain ⟨middle, front, last⟩ := Option.bind_eq_some_iff.mp added
    obtain ⟨next, here, same⟩ := Option.bind_eq_some_iff.mp last
    cases same
    have folded := ih (fun part member => fine part (List.mem_append_left _ member)) front
    exact folded.add (fine part (List.mem_append_right _ List.mem_cons_self)) here

theorem WellFormed.front {back : List Part} (formed : WellFormed (parts ++ back)) : WellFormed parts := by
  constructor
  · exact fun part member => formed.fine part (List.mem_append_left _ member)
  · rintro front after part x rfl entry
    exact formed.declared front (after ++ back) part x (by simp) entry

/-- No assertion fails if no index line is indented and no table's name has a NUL. -/
theorem exists_folded (formed : WellFormed parts) (unindented : ∀ x ∈ indexesOf parts, x.indent = [])
    (nulFree : ∀ t ∈ tablesOf parts, 0 ∉ t.name) :
    ∃ w, parts.foldlM (fun w part => part.entry.add w) Workload.empty = some w := by
  induction parts using List.reverseRecOn with
  | nil => exact ⟨_, rfl⟩
  | append_singleton parts part ih =>
    rw [indexesOf, filterMap_snoc] at unindented
    rw [tablesOf, filterMap_snoc] at nulFree
    obtain ⟨w, front⟩ := ih formed.front (fun x member => unindented x (List.mem_append_left _ member))
      (fun t member => nulFree t (List.mem_append_left _ member))
    have folded := folded_of_foldlM formed.front.fine front
    have fine := formed.fine part (List.mem_append_right _ List.mem_cons_self)
    have last : ∃ next, part.entry.add w = some next := by
      cases entry : part.entry with
      | table t =>
        have fine' := fine.entry
        rw [entry] at fine'
        obtain ⟨schema, -, -, added⟩ := add_table fine' w
        exact ⟨_, added⟩
      | index x =>
        have plain : x.indent = [] := unindented x (List.mem_append_right _ (by rw [entry]; exact List.mem_cons_self))
        obtain ⟨t, listed, named⟩ := List.mem_map.mp (formed.declared parts [] part x rfl entry)
        have clean := (cstr_eq_self_iff _).mpr (nulFree t (List.mem_append_left _ listed))
        obtain ⟨table, known⟩ := folded.tables.known _ (List.mem_map_of_mem listed)
        rw [clean, named] at known
        rw [Entry.add, plain, List.nil_append, known]
        exact ⟨_, rfl⟩
    obtain ⟨next, added⟩ := last
    refine ⟨next, ?_⟩
    rw [List.foldlM_append, front]
    simp [added]

theorem fine_of_mem (formed : WellFormed parts) (member : t ∈ tablesOf parts) : t.Fine := by
  obtain ⟨part, listed, entry⟩ := List.mem_filterMap.mp member
  have fine := (formed.fine part listed).entry
  cases kind : part.entry with
  | table other =>
    rw [kind] at fine entry
    cases entry
    exact fine
  | index x =>
    rw [kind] at entry
    cases entry

theorem built_of_plain (formed : WellFormed parts) (folded : Folded parts w) (plain : Plain parts) :
    Built parts w := by
  have names : (tablesOf parts).map (fun t => cstr t.name) = (tablesOf parts).map TableText.name :=
    List.map_congr_left (fun t member => (cstr_eq_self_iff _).mpr (plain.tableNames t member))
  have names' : (indexesOf parts).map (fun x => cstr x.name) = (indexesOf parts).map IndexText.name :=
    List.map_congr_left (fun x member => (cstr_eq_self_iff _).mpr (plain.indexNames x member))
  obtain ⟨tables, catalogs, indexes, bound⟩ := folded
  rw [names] at tables bound
  rw [names'] at indexes
  constructor
  case tables =>
    exact tables.eq_some_iff plain.tables
  case catalogs =>
    have readable : ∀ t ∈ tablesOf parts, t.Fine ∧ ∀ c ∈ t.columns, 0 ∉ c.type ∧ 0 ∉ c.name :=
      fun t member => ⟨fine_of_mem formed member, plain.columns t member⟩
    refine ((List.forall₂_and_left _ _).mpr ⟨readable, catalogs⟩).imp (fun t schema both => ?_)
    obtain ⟨⟨fine, nulFree⟩, laid⟩ := both
    exact holds_of_laid fine laid nulFree
  case indexes =>
    exact indexes.eq_some_iff plain.indexes
  case bound =>
    refine ((List.forall₂_and_left _ _).mpr ⟨plain.unindented, bound⟩).imp (fun x table both => ?_)
    obtain ⟨unindented, found⟩ := both
    rw [unindented, List.nil_append] at found
    exact (tables.eq_some_iff plain.tables _ _).mpr found

/-- A name by which its item is found has no NUL. -/
theorem nulFree_of_found {α : Type} {items : List α} {name : α → Bytes} {number : Bytes → Option Nat}
    (numbers : Numbers (items.map (fun item => cstr (name item))) number)
    (found : ∀ (s : Bytes) (i : Nat), number s = some i ↔ (items.map name)[i]? = some s) :
    ∀ item ∈ items, 0 ∉ name item := by
  intro item member
  obtain ⟨i, here⟩ := List.mem_iff_getElem?.mp member
  have listed : (items.map name)[i]? = some (name item) := by rw [List.getElem?_map, here]; rfl
  have named := numbers.named _ i ((found _ i).mpr listed)
  rw [List.getElem?_map, here] at named
  exact (cstr_eq_self_iff _).mp (Option.some.inj named)

theorem plain_of_built (formed : WellFormed parts) (folded : Folded parts w) (built : Built parts w) :
    Plain parts := by
  constructor
  case unindented =>
    intro x member
    obtain ⟨table, found, known⟩ := exists_of_mem folded.bound built.bound member
    have same := (folded.tables.named _ _ known).symm.trans found
    exact List.append_left_eq_self.mp (Option.some.inj same).symm
  case tables =>
    exact nodup_of_found (fun name i => (built.tables name i).mpr)
  case indexes =>
    exact nodup_of_found (fun name i => (built.indexes name i).mpr)
  case tableNames =>
    exact nulFree_of_found folded.tables built.tables
  case indexNames =>
    exact nulFree_of_found folded.indexes built.indexes
  case columns =>
    intro t member
    obtain ⟨schema, laid, holds⟩ := exists_of_mem folded.catalogs built.catalogs member
    exact nulFree_of_holds (fine_of_mem formed member) laid holds

end

/-- The text of a schema is read back, each table and index as it was written, exactly when no index
line is indented, no name is declared twice and none has a NUL. -/
theorem schema_text_iff (newline : Bool) (parts : List Part) (formed : WellFormed parts) :
    (∃ w, Ends (initSchema (file newline parts)) (.returned w) ∧ Built parts w) ↔ Plain parts := by
  constructor
  · rintro ⟨w, ends, built⟩
    have folded := folded_of_foldlM formed.fine ((ends_file formed.fine newline []).mp ends)
    exact plain_of_built formed folded built
  · intro plain
    obtain ⟨w, added⟩ := exists_folded formed plain.unindented plain.tableNames
    have folded := folded_of_foldlM formed.fine added
    exact ⟨w, (ends_file formed.fine newline []).mpr added, built_of_plain formed folded plain⟩

/-- A file with a table and an index on it, as the two files of the repository are. -/
def tableAndIndex (t : TableText) (x : IndexText) : List Part :=
  [{ comments := [bytes "//size, type, name"], entry := .table t }, { comments := [], entry := .index x }]

theorem tableAndIndex_formed {t : TableText} {x : IndexText} (fine : t.Fine) (fine' : x.Fine) (same : x.table = t.name) :
    WellFormed (tableAndIndex t x) := by
  constructor
  · intro part member
    rcases List.mem_pair.mp member with rfl | rfl
    · refine ⟨fun line listed => ?_, fine⟩
      rw [List.mem_singleton.mp listed]
      exact ⟨by decide, by decide, by decide⟩
    · exact ⟨nofun, fine'⟩
  · intro front after part x' split entry
    match front, split with
    | [], split =>
      cases split
      cases entry
    | [first], split =>
      cases split
      cases entry
      exact List.mem_singleton.mpr same
    | first :: second :: front, split =>
      have count := congrArg List.length split
      simp only [tableAndIndex, List.length_append, List.length_cons, List.length_nil] at count
      omega

instance (s : Bytes) : Decidable (Word s) :=
  decidable_of_iff (s ≠ [] ∧ 44 ∉ s ∧ 10 ∉ s ∧ s.length < 80)
    ⟨fun ⟨nonempty, comma, clean, short⟩ => ⟨nonempty, comma, clean, short⟩,
      fun word => ⟨word.nonempty, word.comma, word.clean, word.short⟩⟩

instance (indent : Bytes) : Decidable (Blanks indent) :=
  List.decidableBAll (fun c => c = 32 ∨ c = 9) indent

instance (c : ColText) : Decidable c.Fine :=
  decidable_of_iff (Blanks c.indent ∧ 0 < c.size ∧ Word c.type ∧ Word c.name)
    ⟨fun ⟨indent, positive, type, name⟩ => ⟨indent, positive, type, name⟩,
      fun fine => ⟨fine.indent, fine.positive, fine.type, fine.name⟩⟩

def dataTable : TableText where
  name := bytes "Data_TABLE"
  columns := [⟨bytes "    ", 128, bytes "string", bytes "KEY"⟩, ⟨bytes "    ", 1024, bytes "string", bytes "VALUE"⟩]

def dataIndex : IndexText where
  name := bytes "Data_INDEX"
  indent := []
  table := bytes "Data_TABLE"
  number := 1

theorem dataSchema_formed : WellFormed (tableAndIndex dataTable dataIndex) :=
  tableAndIndex_formed ⟨by decide, by decide, by decide, by decide⟩ ⟨by decide, by decide, by decide⟩ rfl

/-- data_schema.txt has no newline after its last line, and its index line is not indented. -/
theorem dataSchema_built : ∃ w, Ends (initSchema (file false (tableAndIndex dataTable dataIndex))) (.returned w) ∧
    Built (tableAndIndex dataTable dataIndex) w := by
  refine (schema_text_iff false _ dataSchema_formed).mpr ⟨?_, by decide, by decide, ?_, ?_, ?_⟩
  · exact fun x member => (List.mem_singleton.mp member) ▸ rfl
  · exact fun t member => (List.mem_singleton.mp member) ▸ (by decide : 0 ∉ dataTable.name)
  · exact fun x member => (List.mem_singleton.mp member) ▸ (by decide : 0 ∉ dataIndex.name)
  · exact fun t member => (List.mem_singleton.mp member) ▸ (by decide : ∀ c ∈ dataTable.columns, 0 ∉ c.type ∧ 0 ∉ c.name)

def testTable : TableText where
  name := bytes "MAIN_TABLE"
  columns := [⟨bytes "\t", 4, bytes "int", bytes "F0"⟩, ⟨bytes "\t", 8, bytes "double", bytes "F1"⟩,
    ⟨bytes "\t", 8, bytes "uint64", bytes "F2"⟩, ⟨bytes "\t", 100, bytes "string", bytes "F3"⟩]

def testIndex : IndexText where
  name := bytes "MAIN_INDEX"
  indent := bytes "\t"
  table := bytes "MAIN_TABLE"
  number := 0

example : file true (tableAndIndex testTable testIndex) =
    bytes ("//size, type, name\nTABLE=MAIN_TABLE\n\t4,int,F0\n\t8,double,F1\n\t8,uint64,F2\n\t100,string,F3\n" ++
      "\nINDEX=MAIN_INDEX\n\tMAIN_TABLE,0\n") := by decide +kernel

theorem testSchema_formed : WellFormed (tableAndIndex testTable testIndex) :=
  tableAndIndex_formed ⟨by decide, by decide, by decide, by decide⟩ ⟨by decide, by decide, by decide⟩ rfl

/-- The index line of TEST_schema.txt is indented: its table is looked up with the tab before its name. -/
theorem testSchema_unbuilt : ¬ ∀ newline parts, WellFormed parts →
    ∃ w, Ends (initSchema (file newline parts)) (.returned w) ∧ Built parts w := by
  intro built
  obtain ⟨w, ends, built⟩ := built true _ testSchema_formed
  have folded := folded_of_foldlM testSchema_formed.fine ((ends_file testSchema_formed.fine true []).mp ends)
  have plain := (plain_of_built testSchema_formed folded built).unindented testIndex List.mem_cons_self
  exact absurd plain (by decide)

end DataAgentDB.Storage
