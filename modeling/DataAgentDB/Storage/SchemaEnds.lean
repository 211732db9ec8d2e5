import DataAgentDB.Storage.Schema

/-! When `init_schema` returns or fails one of its assertions. The loop over the column lines ends at a
short line; a file that ends in a long one, without a newline, has none. An index without items reads past an
empty vector, and a type or a name of a column that is too long is copied past its buffer. -/

namespace DataAgentDB.Storage

/-- The scan ends so, after finitely many iterations of its loops. -/
def Ends (s : Scan) (ended : Ended) : Prop := ∃ n, s.run n = some ended

/-- The scan returns, or an assertion fails. -/
def Terminates (s : Scan) : Prop := ∃ ended, ended ≠ .undefined ∧ Ends s ended

/-- Lines of more than a byte, the last of them without a newline. -/
inductive CutOff : Bytes → Prop
  | last {line : Bytes} : 10 ∉ line → 1 < line.length → CutOff line
  | more {line rest : Bytes} : 10 ∉ line → 1 < line.length → CutOff rest → CutOff (line ++ 10 :: rest)

def unlines (lines : List Bytes) : Bytes := lines.flatMap (fun line => line ++ [10])

/-- A column line that is added without a failing assertion. -/
def ColumnLine (line : Bytes) : Prop :=
  ∃ decl, parseColumn line = some decl ∧ (cstr decl.type).length < 80 ∧ (cstr decl.colName).length < 80

/-- A column line that is read and has a type or a name that does not fit the 80 bytes of its buffer. -/
def Overlong (line : Bytes) : Prop :=
  ∃ decl, parseColumn line = some decl ∧ ¬ ((cstr decl.type).length < 80 ∧ (cstr decl.colName).length < 80)

/-- Sections that are complete, of a file that has declared some tables and then others. -/
inductive Scanned : List Bytes → Bytes → List Bytes → Prop
  | nil {names : List Bytes} : Scanned names [] names
  | other {names names' : List Bytes} {line rest : Bytes} (clean : 10 ∉ line)
      (noTable : line.take 6 ≠ bytes "TABLE=") (noIndex : line.take 6 ≠ bytes "INDEX=")
      (later : Scanned names rest names') : Scanned names (line ++ 10 :: rest) names'
  | table {names names' : List Bytes} {line short rest : Bytes} {columns : List Bytes} (clean : 10 ∉ line)
      (isTable : line.take 6 = bytes "TABLE=") (long : ∀ column ∈ columns, 10 ∉ column ∧ 1 < column.length)
      (fine : ∀ column ∈ columns, ColumnLine column) (ends : 10 ∉ short ∧ short.length ≤ 1)
      (later : Scanned (cstr (line.drop 6) :: names) rest names') :
      Scanned names (line ++ 10 :: (unlines columns ++ (short ++ 10 :: rest))) names'
  | index {names names' : List Bytes} {line items rest tname : Bytes} (clean : 10 ∉ line)
      (isIndex : line.take 6 = bytes "INDEX=") (clean' : 10 ∉ items) (first : (tokens [] items).head? = some tname)
      (declared : tname ∈ names) (later : Scanned names rest names') :
      Scanned names (line ++ 10 :: (items ++ 10 :: rest)) names'

/-- A text whose first section the scan does not get out of, or leaves the defined behaviour in. -/
inductive Faulty : Bytes → Prop
  | cutOff {text : Bytes} (isTable : text.take 6 = bytes "TABLE=") (cut : CutOff text) : Faulty text
  | overlong {line column short rest : Bytes} {front back : List Bytes} (clean : 10 ∉ line)
      (isTable : line.take 6 = bytes "TABLE=")
      (long : ∀ other ∈ front ++ column :: back, 10 ∉ other ∧ 1 < other.length)
      (fine : ∀ other ∈ front, ColumnLine other) (wide : Overlong column) (ends : 10 ∉ short ∧ short.length ≤ 1)
      (after : rest = [] ∨ rest.head? = some 10) :
      Faulty (line ++ 10 :: (unlines (front ++ column :: back) ++ (short ++ rest)))
  | noItems {line rest : Bytes} (clean : 10 ∉ line) (isIndex : line.take 6 = bytes "INDEX=")
      (after : rest = [] ∨ rest.head? = some 10) : Faulty (line ++ 10 :: rest)

/-- The tables of the workload are those declared. -/
def Declares (w : Workload) (names : List Bytes) : Prop := ∀ tname, (w.tables tname).isSome = true ↔ tname ∈ names

section
variable {s next : Scan} {ended : Ended} {fin : Stream} {line rest text tname : Bytes} {lines : List Bytes}
  {w : Workload} {names : List Bytes}

theorem ends_of_step (ends : s.step = .inr ended) : Ends s ended :=
  ⟨1, by rw [Scan.run, ends]⟩

theorem ends_step (steps : s.step = .inl next) : Ends s ended ↔ Ends next ended := by
  constructor
  · rintro ⟨n, done⟩
    cases n with
    | zero => cases done
    | succ n =>
      rw [Scan.run, steps] at done
      exact ⟨n, done⟩
  · rintro ⟨n, done⟩
    exact ⟨n + 1, by rw [Scan.run, steps]; exact done⟩

theorem ends_iff_of_step {ended' : Ended} (ends : s.step = .inr ended) : Ends s ended' ↔ ended = ended' := by
  constructor
  · rintro ⟨n, done⟩
    cases n with
    | zero => cases done
    | succ n =>
      rw [Scan.run, ends] at done
      exact Option.some.inj done
  · rintro rfl
    exact ends_of_step ends

theorem terminates_of_end (ends : s.step = .inr ended) (defined : ended ≠ .undefined) : Terminates s :=
  ⟨ended, defined, ends_of_step ends⟩

theorem not_terminates_of_undefined (ends : s.step = .inr .undefined) : ¬ Terminates s := by
  rintro ⟨ended, defined, done⟩
  exact defined ((ends_iff_of_step ends).mp done).symm

theorem terminates_congr (same : ∀ ended, Ends s ended ↔ Ends next ended) : Terminates s ↔ Terminates next :=
  exists_congr (fun ended => and_congr_right (fun _ => same ended))

theorem terminates_step (steps : s.step = .inl next) : Terminates s ↔ Terminates next :=
  terminates_congr (fun _ => ends_step steps)

theorem step_columns_long (long : 1 < line.length) :
    Scan.step ⟨fin, line, .columns tname lines, w⟩ =
      .inl ⟨(getline fin line).2.1, (getline fin line).2.2, .columns tname (lines ++ [line]), w⟩ := by
  simp only [Scan.step, gt_iff_lt, if_pos long]

theorem step_columns_short (fin : Stream) (tname : Bytes) (lines : List Bytes) (w : Workload)
    (short : line.length ≤ 1) :
    Scan.step ⟨fin, line, .columns tname lines, w⟩ =
      match addColumns (Catalog.init tname lines.length) lines with
      | .error ended => .inr ended
      | .ok schema => .inl ⟨fin, line, .sections, w.addTable tname schema⟩ := by
  unfold Scan.step
  exact if_neg (Nat.not_lt.mpr short)

/-- At the end of the file a long line stays, and the loop goes on with it. -/
theorem diverges_of_ended (long : 1 < line.length) :
    ¬ Terminates ⟨⟨rest, false⟩, line, .columns tname lines, w⟩ := by
  rintro ⟨ended, -, n, done⟩
  induction n generalizing lines with
  | zero => cases done
  | succ n ih =>
    rw [Scan.run, step_columns_long long] at done
    exact ih done

/-- The loop over the columns, as it has read the next line of a text that is cut off. -/
theorem diverges_of_cutOff (cut : CutOff text) (old : Bytes) :
    ¬ Terminates ⟨(getline ⟨text, true⟩ old).2.1, (getline ⟨text, true⟩ old).2.2, .columns tname lines, w⟩ := by
  induction cut generalizing old lines with
  | last clean long =>
    rw [getline_last clean]
    exact diverges_of_ended long
  | more clean long later ih =>
    rw [getline_line clean, terminates_step (step_columns_long long)]
    exact ih _

theorem unlines_cons (line : Bytes) (lines : List Bytes) (rest : Bytes) :
    unlines (line :: lines) ++ rest = line ++ 10 :: (unlines lines ++ rest) := by
  simp only [unlines, List.flatMap_cons, List.append_assoc, List.cons_append, List.nil_append]

/-- The loop collects the column lines, and goes on with the line after them. -/
theorem ends_columns {columns : List Bytes} (long : ∀ column ∈ columns, 10 ∉ column ∧ 1 < column.length)
    (rest old : Bytes) :
    Ends ⟨(getline ⟨unlines columns ++ rest, true⟩ old).2.1, (getline ⟨unlines columns ++ rest, true⟩ old).2.2,
        .columns tname lines, w⟩ ended ↔
      Ends ⟨(getline ⟨rest, true⟩ old).2.1, (getline ⟨rest, true⟩ old).2.2, .columns tname (lines ++ columns), w⟩
        ended := by
  induction columns generalizing lines old with
  | nil => rw [unlines, List.flatMap_nil, List.nil_append, List.append_nil]
  | cons column columns ih =>
    obtain ⟨here, later⟩ := List.forall_mem_cons.mp long
    have again : ∀ old', getline ⟨rest, true⟩ old' = getline ⟨rest, true⟩ old := fun _ => rfl
    rw [unlines_cons, getline_line here.1, ends_step (step_columns_long here.2), ih later, List.append_assoc,
      again column]
    rfl

theorem terminates_columns {columns : List Bytes} {short : Bytes}
    (long : ∀ column ∈ columns, 10 ∉ column ∧ 1 < column.length) (clean : 10 ∉ short) (rest old : Bytes) :
    Terminates ⟨(getline ⟨unlines columns ++ (short ++ 10 :: rest), true⟩ old).2.1,
        (getline ⟨unlines columns ++ (short ++ 10 :: rest), true⟩ old).2.2, .columns tname lines, w⟩ ↔
      Terminates ⟨⟨rest, true⟩, short, .columns tname (lines ++ columns), w⟩ := by
  refine terminates_congr (fun ended => (ends_columns long _ old).trans ?_)
  rw [getline_line clean]

/-- The same at the end of the file. -/
theorem terminates_columns_last {columns : List Bytes} {short : Bytes}
    (long : ∀ column ∈ columns, 10 ∉ column ∧ 1 < column.length) (clean : 10 ∉ short) (old : Bytes) :
    Terminates ⟨(getline ⟨unlines columns ++ short, true⟩ old).2.1,
        (getline ⟨unlines columns ++ short, true⟩ old).2.2, .columns tname lines, w⟩ ↔
      Terminates ⟨⟨[], false⟩, short, .columns tname (lines ++ columns), w⟩ := by
  refine terminates_congr (fun ended => (ends_columns long _ old).trans ?_)
  rw [getline_last clean]

/-- What follows the first line of a table: it is cut off, or has a short line that ends the columns. -/
theorem columns_cases (text : Bytes) : CutOff text ∨ ∃ columns short,
    (∀ column ∈ columns, 10 ∉ column ∧ 1 < column.length) ∧ 10 ∉ short ∧ short.length ≤ 1 ∧
      (text = unlines columns ++ short ∨ ∃ rest, text = unlines columns ++ (short ++ 10 :: rest)) := by
  induction size : text.length using Nat.strong_induction_on generalizing text with
  | _ n ih =>
    subst size
    rcases line_cases text with clean | ⟨line, rest, clean, rfl⟩
    · rcases Nat.lt_or_ge 1 text.length with long | short
      · exact .inl (.last clean long)
      · exact .inr ⟨[], text, nofun, clean, short, .inl rfl⟩
    · rcases Nat.lt_or_ge 1 line.length with long | short
      · have smaller : rest.length < (line ++ 10 :: rest).length := by
          rw [List.length_append, List.length_cons]
          omega
        rcases ih _ smaller rest rfl with cut | ⟨columns, short, all, clean', low, split⟩
        · exact .inl (.more clean long cut)
        · refine .inr ⟨line :: columns, short, List.forall_mem_cons.mpr ⟨⟨clean, long⟩, all⟩, clean', low, ?_⟩
          rcases split with rfl | ⟨later, rfl⟩
          · exact .inl (unlines_cons line columns short).symm
          · exact .inr ⟨later, (unlines_cons line columns _).symm⟩
      · exact .inr ⟨[], line, nofun, clean, short, .inr ⟨rest, rfl⟩⟩

theorem addCol_of_columnLine (schema : Catalog) {decl : ColDecl} (room : schema.fieldCnt < schema.capacity)
    (fits : (cstr decl.type).length < 80 ∧ (cstr decl.colName).length < 80) :
    ∃ next, schema.addCol decl = some next ∧ next.fieldCnt = schema.fieldCnt + 1 ∧ next.capacity = schema.capacity := by
  rw [Catalog.addCol, if_pos ⟨room, fits⟩]
  exact ⟨_, rfl, by simp only [Catalog.fieldCnt, List.length_append, List.length_singleton], rfl⟩

/-- The columns are added when each line is one that can be; else the first other line fails an assertion,
or it is too long. -/
theorem addColumns_cases {schema : Catalog} (room : schema.fieldCnt + lines.length ≤ schema.capacity) :
    ((∀ line ∈ lines, ColumnLine line) ∧ ∃ next, addColumns schema lines = .ok next) ∨
    ((∃ line ∈ lines, ¬ ColumnLine line) ∧ addColumns schema lines = .error .assertion) ∨
    ∃ front column back, lines = front ++ column :: back ∧ (∀ line ∈ front, ColumnLine line) ∧ Overlong column := by
  induction lines generalizing schema with
  | nil => exact .inl ⟨nofun, schema, rfl⟩
  | cons line lines ih =>
    rw [List.length_cons] at room
    cases parsed : parseColumn line with
    | none =>
      refine .inr (.inl ⟨⟨line, List.mem_cons_self, ?_⟩, by simp only [addColumns, parsed]⟩)
      rintro ⟨decl, given, -⟩
      rw [parsed] at given
      cases given
    | some decl =>
      by_cases fits : (cstr decl.type).length < 80 ∧ (cstr decl.colName).length < 80
      · obtain ⟨next, added, count, capacity⟩ := addCol_of_columnLine schema (by omega) fits
        have more : addColumns schema (line :: lines) = addColumns next lines := by
          simp only [addColumns, parsed, added]
        have here : ColumnLine line := ⟨decl, parsed, fits⟩
        rw [more]
        rcases @ih next (by omega) with ⟨all, built⟩ | ⟨⟨bad, member, odd⟩, failed⟩ |
          ⟨front, column, back, rfl, fine, wide⟩
        · exact .inl ⟨List.forall_mem_cons.mpr ⟨here, all⟩, built⟩
        · exact .inr (.inl ⟨⟨bad, List.mem_cons_of_mem _ member, odd⟩, failed⟩)
        · exact .inr (.inr ⟨line :: front, column, back, rfl, List.forall_mem_cons.mpr ⟨here, fine⟩, wide⟩)
      · exact .inr (.inr ⟨[], line, lines, rfl, nofun, decl, parsed, fits⟩)

theorem Overlong.not_columnLine (wide : Overlong line) : ¬ ColumnLine line := by
  rintro ⟨decl, parsed, fits⟩
  obtain ⟨other, parsed', odd⟩ := wide
  rw [parsed] at parsed'
  cases parsed'
  exact odd fits

/-- A column that is too long stops the loop, if the columns before it are added. -/
theorem addColumns_overlong {schema : Catalog} {front back : List Bytes} {column : Bytes}
    (room : schema.fieldCnt + front.length < schema.capacity) (fine : ∀ line ∈ front, ColumnLine line)
    (wide : Overlong column) : addColumns schema (front ++ column :: back) = .error .undefined := by
  induction front generalizing schema with
  | nil =>
    obtain ⟨decl, parsed, odd⟩ := wide
    have overflows : schema.addCol decl = none := by
      rw [Catalog.addCol, if_neg (fun all => odd all.2)]
    simp only [List.nil_append, addColumns, parsed, overflows]
  | cons line front ih =>
    obtain ⟨⟨decl, parsed, fits⟩, later⟩ := List.forall_mem_cons.mp fine
    rw [List.length_cons] at room
    obtain ⟨next, added, count, capacity⟩ := addCol_of_columnLine schema (by omega) fits
    simp only [List.cons_append, addColumns, parsed, added]
    exact ih (by omega) later

theorem room_init (tname : Bytes) (lines : List Bytes) :
    (Catalog.init tname lines.length).fieldCnt + lines.length ≤ (Catalog.init tname lines.length).capacity :=
  Nat.le_of_eq (Nat.zero_add _)

/-- A short line ends the columns: the table is added, or an assertion fails, or a column is too long. -/
theorem terminates_of_short (low : line.length ≤ 1)
    (fits : ∀ front column back, lines = front ++ column :: back → (∀ line ∈ front, ColumnLine line) → ¬ Overlong column)
    (goesOn : ∀ schema, (∀ column ∈ lines, ColumnLine column) →
      Terminates ⟨fin, line, .sections, w.addTable tname schema⟩) : Terminates ⟨fin, line, .columns tname lines, w⟩ := by
  have closed := step_columns_short fin tname lines w low
  rcases addColumns_cases (room_init tname lines) with ⟨all, schema, built⟩ | ⟨-, failed⟩ |
    ⟨front, column, back, split, fine, wide⟩
  · rw [built] at closed
    exact (terminates_step closed).mpr (goesOn schema all)
  · rw [failed] at closed
    exact terminates_of_end closed nofun
  · exact absurd wide (fits front column back split fine)

theorem not_terminates_of_overlong {front back : List Bytes} {column : Bytes} (low : line.length ≤ 1)
    (fine : ∀ line ∈ front, ColumnLine line) (wide : Overlong column) :
    ¬ Terminates ⟨fin, line, .columns tname (front ++ column :: back), w⟩ := by
  have closed := step_columns_short fin tname (front ++ column :: back) w low
  have room : (Catalog.init tname (front ++ column :: back).length).fieldCnt + front.length <
      (Catalog.init tname (front ++ column :: back).length).capacity := by
    change 0 + front.length < (front ++ column :: back).length
    rw [List.length_append, List.length_cons]
    omega
  rw [addColumns_overlong room fine wide] at closed
  exact not_terminates_of_undefined closed

theorem step_sections (clean : 10 ∉ line) (rest old : Bytes) :
    Scan.step ⟨⟨line ++ 10 :: rest, true⟩, old, .sections, w⟩ = Scan.header ⟨rest, true⟩ line w := by
  simp only [Scan.step, getline_line clean]

theorem step_sections_last (clean : 10 ∉ text) (nonempty : text ≠ []) (old : Bytes) :
    Scan.step ⟨⟨text, true⟩, old, .sections, w⟩ = Scan.header ⟨[], false⟩ text w := by
  have read : getline ⟨text, true⟩ old = (true, ⟨[], false⟩, text) := by
    rw [getline_last clean, List.isEmpty_eq_false_iff.mpr nonempty]
    rfl
  simp only [Scan.step, read]

theorem length_of_table (isTable : text.take 6 = bytes "TABLE=") : 6 ≤ text.length := by
  have same := congrArg List.length isTable
  have fixed : (bytes "TABLE=").length = 6 := by decide
  rw [List.length_take] at same
  omega

theorem header_table (isTable : line.take 6 = bytes "TABLE=") : Scan.header fin line w =
    .inl ⟨(getline fin line).2.1, (getline fin line).2.2, .columns (cstr (line.drop 6)) [], w⟩ := by
  simp only [Scan.header, if_pos isTable]

theorem header_other (noTable : line.take 6 ≠ bytes "TABLE=") (noIndex : line.take 6 ≠ bytes "INDEX=") :
    Scan.header fin line w = .inl ⟨fin, line, .sections, w⟩ := by
  simp only [Scan.header, if_neg noTable, if_neg noIndex]

theorem not_table_of_index (isIndex : line.take 6 = bytes "INDEX=") : line.take 6 ≠ bytes "TABLE=" := by
  rw [isIndex]
  decide

/-- Only an empty line has no tokens. -/
theorem tokens_eq_nil {token : Bytes} (none : tokens token line = []) : token = [] ∧ line = [] := by
  induction line generalizing token with
  | nil =>
    rw [tokens] at none
    split at none
    next empty => exact ⟨List.isEmpty_iff.mp empty, rfl⟩
    next => cases none
  | cons c rest ih =>
    rw [tokens] at none
    split at none
    · cases none
    · exact absurd (ih none).1 (by simp)

/-- An index goes to the table that its line begins with. -/
theorem header_index (fin : Stream) (w : Workload) (isIndex : line.take 6 = bytes "INDEX=") :
    (∃ ended, Scan.header fin line w = .inr ended ∧ (∀ w', ended ≠ .returned w') ∧
      (ended = .undefined → (getline fin line).2.2 = []) ∧ ∀ tname,
      (tokens [] (getline fin line).2.2).head? = some tname → w.tables tname = none) ∨
    ∃ tname table, (tokens [] (getline fin line).2.2).head? = some tname ∧ w.tables tname = some table ∧
      Scan.header fin line w =
        .inl ⟨(getline fin line).2.1, [], .sections, w.addIndex (cstr (line.drop 6)) table⟩ := by
  simp only [Scan.header, if_neg (not_table_of_index isIndex), if_pos isIndex]
  cases split : tokens [] (getline fin line).2.2 with
  | nil => exact .inl ⟨_, rfl, nofun, fun _ => (tokens_eq_nil split).2, nofun⟩
  | cons tname more =>
    cases found : w.tables tname with
    | none =>
      refine .inl ⟨.assertion, by simp only [found], nofun, nofun, fun other first => ?_⟩
      cases first
      exact found
    | some table => exact .inr ⟨tname, table, rfl, found, by simp only [found]⟩

theorem Declares.addTable (declares : Declares w names) (tname : Bytes) (schema : Catalog) :
    Declares (w.addTable tname schema) (tname :: names) := by
  intro other
  rw [List.mem_cons]
  by_cases same : other = tname
  · subst same
    simp [Workload.addTable]
  · rw [← declares other]
    simp only [Workload.addTable, Function.update_of_ne same, same, false_or]

/-- An index whose next line is empty reads the first of no items. -/
theorem header_noItems (fin : Stream) (w : Workload) (isIndex : line.take 6 = bytes "INDEX=")
    (empty : (getline fin line).2.2 = []) : Scan.header fin line w = .inr .undefined := by
  simp only [Scan.header, if_neg (not_table_of_index isIndex), if_pos isIndex, empty]
  rfl

/-- The scan gets through complete sections. -/
theorem terminates_scanned {names' : List Bytes} {text : Bytes} (scanned : Scanned names text names')
    (declares : Declares w names) (rest old : Bytes) :
    ∃ w' old', Declares w' names' ∧ (Terminates ⟨⟨text ++ rest, true⟩, old, .sections, w⟩ ↔
      Terminates ⟨⟨rest, true⟩, old', .sections, w'⟩) := by
  induction scanned generalizing w old with
  | nil => exact ⟨w, old, declares, Iff.rfl⟩
  | @other names names' line text clean noTable noIndex later ih =>
    obtain ⟨w', old', declares', same⟩ := ih declares line
    refine ⟨w', old', declares', ?_⟩
    rw [List.append_assoc, List.cons_append, terminates_step ((step_sections clean _ old).trans (header_other noTable noIndex))]
    exact same
  | @table names names' line short text columns clean isTable long fine ends later ih =>
    rcases addColumns_cases (room_init (cstr (line.drop 6)) columns) with ⟨-, schema, built⟩ | ⟨⟨bad, member, odd⟩, -⟩ |
      ⟨front, column, back, rfl, -, wide⟩
    · obtain ⟨w', old', declares', same⟩ := ih (declares.addTable (cstr (line.drop 6)) schema) short
      refine ⟨w', old', declares', ?_⟩
      have tail : line ++ 10 :: (unlines columns ++ (short ++ 10 :: text)) ++ rest =
          line ++ 10 :: (unlines columns ++ (short ++ 10 :: (text ++ rest))) := by
        simp only [List.append_assoc, List.cons_append]
      rw [tail, terminates_step ((step_sections clean _ old).trans (header_table isTable)),
        terminates_columns long ends.1, List.nil_append]
      have closed := step_columns_short ⟨text ++ rest, true⟩ (cstr (line.drop 6)) columns w ends.2
      rw [built] at closed
      rw [terminates_step closed]
      exact same
    · exact absurd (fine bad member) odd
    · exact absurd (fine column (List.mem_append_right _ List.mem_cons_self)) wide.not_columnLine
  | @index names names' line items text tname clean isIndex clean' first declared later ih =>
    have step := @step_sections line w clean (items ++ 10 :: (text ++ rest)) old
    have read := getline_line clean' (text ++ rest) line
    have tail : line ++ 10 :: (items ++ 10 :: text) ++ rest = line ++ 10 :: (items ++ 10 :: (text ++ rest)) := by
      simp only [List.append_assoc, List.cons_append]
    rcases header_index ⟨items ++ 10 :: (text ++ rest), true⟩ w isIndex with
      ⟨ended, stops, -, -, missing⟩ | ⟨found, table, first', _, goes⟩
    · rw [read] at missing
      have known := (declares tname).mpr declared
      rw [missing tname first] at known
      cases known
    · rw [goes, read] at step
      obtain ⟨w', old', declares', same⟩ := @ih (w.addIndex (cstr (line.drop 6)) table) declares []
      refine ⟨w', old', declares', ?_⟩
      rw [tail, terminates_step step]
      exact same

/-- A file without its last newline ends in a table that is cut off, in an index, or in another line. -/
theorem terminates_last (clean : 10 ∉ text) (noTable : text.take 6 ≠ bytes "TABLE=") (old : Bytes) :
    Terminates ⟨⟨text, true⟩, old, .sections, w⟩ := by
  have stops : ∀ (line : Bytes) (w : Workload), Terminates ⟨⟨[], false⟩, line, .sections, w⟩ :=
    fun line w => terminates_of_end rfl nofun
  by_cases nonempty : text = []
  · rw [nonempty]
    exact terminates_of_end rfl nofun
  · have step := @step_sections_last text w clean nonempty old
    by_cases isIndex : text.take 6 = bytes "INDEX="
    · rcases header_index ⟨[], false⟩ w isIndex with ⟨ended, stopped, -, wrong, -⟩ | ⟨tname, table, -, -, goes⟩
      · exact terminates_of_end (step.trans stopped) (fun undefined => nonempty (wrong undefined))
      · exact (terminates_step (step.trans goes)).mpr (stops _ _)
    · exact (terminates_step (step.trans (header_other noTable isIndex))).mpr (stops _ _)

theorem Scanned.append {front : Bytes} {names' names'' : List Bytes} (scanned : Scanned names front names')
    (later : Scanned names' text names'') : Scanned names (front ++ text) names'' := by
  induction scanned with
  | nil => exact later
  | other clean noTable noIndex _ ih =>
    rw [List.append_assoc, List.cons_append]
    exact .other clean noTable noIndex (ih later)
  | table clean isTable long fine ends _ ih =>
    simp only [List.append_assoc, List.cons_append]
    exact .table clean isTable long fine ends (ih later)
  | index clean isIndex clean' first declared _ ih =>
    simp only [List.append_assoc, List.cons_append]
    exact .index clean isIndex clean' first declared (ih later)

/-- An empty line is read where the next byte is a newline, or at the end of the file. -/
theorem getline_empty {rest : Bytes} (after : rest = [] ∨ rest.head? = some 10) (old : Bytes) :
    (getline ⟨rest, true⟩ old).2.2 = [] := by
  rcases after with rfl | next
  · rfl
  · obtain ⟨later, rfl⟩ := List.head?_eq_some_iff.mp next
    have read : getline ⟨[] ++ 10 :: later, true⟩ old = _ := getline_line List.not_mem_nil later old
    exact congrArg (fun read => read.2.2) read

theorem empty_of_getline {rest old : Bytes} (empty : (getline ⟨rest, true⟩ old).2.2 = []) :
    rest = [] ∨ rest.head? = some 10 := by
  rcases line_cases rest with clean | ⟨line, later, clean, rfl⟩
  · rw [getline_last clean] at empty
    exact .inl empty
  · rw [getline_line clean] at empty
    have none : line = [] := empty
    exact .inr (by rw [none]; rfl)

/-- The first section of a text is at fault, or the scan ends in it, or it is complete. -/
def Begins (w : Workload) (names : List Bytes) (text : Bytes) : Prop :=
  Faulty text ∨ (∀ old, Terminates ⟨⟨text, true⟩, old, .sections, w⟩) ∨
    ∃ front later names', text = front ++ later ∧ later.length < text.length ∧ Scanned names front names'

theorem first_table (clean : 10 ∉ line) (isTable : line.take 6 = bytes "TABLE=") (rest : Bytes) :
    Begins w names (line ++ 10 :: rest) := by
  have step := fun old => (step_sections (w := w) clean rest old).trans (header_table isTable)
  rcases columns_cases rest with cut | ⟨columns, short, long, clean', low, ended⟩
  · have six := length_of_table isTable
    refine .inl (.cutOff ?_ (.more clean (Nat.lt_of_lt_of_le (by decide) six) cut))
    rw [List.take_append_of_le_length six, isTable]
  by_cases fits : ∀ front column back, columns = front ++ column :: back → (∀ line ∈ front, ColumnLine line) →
      ¬ Overlong column
  · rcases ended with rfl | ⟨later, rfl⟩
    · refine .inr (.inl (fun old => ?_))
      rw [terminates_step (step old), terminates_columns_last long clean', List.nil_append]
      exact terminates_of_short low fits (fun _ _ => terminates_of_end rfl nofun)
    · by_cases fine : ∀ column ∈ columns, ColumnLine column
      · refine .inr (.inr ⟨line ++ 10 :: (unlines columns ++ (short ++ 10 :: [])), later, _, by simp, ?_,
          .table clean isTable long fine ⟨clean', low⟩ .nil⟩)
        simp only [List.length_append, List.length_cons]
        omega
      · refine .inr (.inl (fun old => ?_))
        rw [terminates_step (step old), terminates_columns long clean', List.nil_append]
        exact terminates_of_short low fits (fun _ all => absurd all fine)
  · push Not at fits
    obtain ⟨front, column, back, rfl, fine, wide⟩ := fits
    have faulty : ∀ rest, rest = [] ∨ rest.head? = some 10 →
        Faulty (line ++ 10 :: (unlines (front ++ column :: back) ++ (short ++ rest))) :=
      fun rest after => .overlong clean isTable long fine wide ⟨clean', low⟩ after
    rcases ended with rfl | ⟨later, rfl⟩
    · have atEnd := faulty [] (.inl rfl)
      rw [List.append_nil] at atEnd
      exact .inl atEnd
    · exact .inl (faulty (10 :: later) (.inr rfl))

theorem first_index (declares : Declares w names) (clean : 10 ∉ line) (isIndex : line.take 6 = bytes "INDEX=")
    (rest : Bytes) : Begins w names (line ++ 10 :: rest) := by
  have step := fun old => step_sections (w := w) clean rest old
  by_cases after : rest = [] ∨ rest.head? = some 10
  · exact .inl (.noItems clean isIndex after)
  rcases header_index ⟨rest, true⟩ w isIndex with ⟨ended, stopped, -, wrong, -⟩ | ⟨tname, table, first, found, goes⟩
  · refine .inr (.inl (fun old => terminates_of_end ((step old).trans stopped) (fun undefined => ?_)))
    exact after (empty_of_getline (wrong undefined))
  · rcases line_cases rest with clean' | ⟨items, later, clean', rfl⟩
    · refine .inr (.inl (fun old => (terminates_step ((step old).trans goes)).mpr ?_))
      rw [getline_last clean']
      exact terminates_of_end rfl nofun
    · rw [getline_line clean'] at first
      have declared : tname ∈ names := (declares tname).mp (by rw [found]; rfl)
      refine .inr (.inr ⟨line ++ 10 :: (items ++ 10 :: []), later, names, by simp, ?_,
        .index clean isIndex clean' first declared .nil⟩)
      simp only [List.length_append, List.length_cons]
      omega

theorem first_section (declares : Declares w names) (text : Bytes) : Begins w names text := by
  rcases line_cases text with clean | ⟨line, rest, clean, rfl⟩
  · by_cases isTable : text.take 6 = bytes "TABLE="
    · exact .inl (.cutOff isTable (.last clean (Nat.lt_of_lt_of_le (by decide) (length_of_table isTable))))
    · exact .inr (.inl (terminates_last clean isTable))
  · by_cases isTable : line.take 6 = bytes "TABLE="
    · exact first_table clean isTable rest
    · by_cases isIndex : line.take 6 = bytes "INDEX="
      · exact first_index declares clean isIndex rest
      · refine .inr (.inr ⟨line ++ 10 :: [], rest, names, by simp, ?_, .other clean isTable isIndex .nil⟩)
        rw [List.length_append, List.length_cons]
        omega

/-- The scan ends if no section that it comes to is at fault. -/
theorem terminates_of_faultless (declares : Declares w names) (old : Bytes)
    (faultless : ∀ done rest names', text = done ++ rest → Scanned names done names' → ¬ Faulty rest) :
    Terminates ⟨⟨text, true⟩, old, .sections, w⟩ := by
  induction size : text.length using Nat.strong_induction_on generalizing text w names old with
  | _ n ih =>
    subst size
    rcases first_section declares text with faulty | ends | ⟨front, later, names', rfl, shorter, scanned⟩
    · exact absurd faulty (faultless [] text names rfl .nil)
    · exact ends old
    · obtain ⟨w', old', declares', same⟩ := terminates_scanned scanned declares later old
      refine same.mpr (ih _ shorter declares' old' ?_ rfl)
      rintro done rest names'' rfl scanned'
      exact faultless (front ++ done) rest names'' (List.append_assoc _ _ _).symm (scanned.append scanned')

/-- A table that is cut off leaves the scan in the loop over its columns. -/
theorem diverges_of_cut_table (isTable : text.take 6 = bytes "TABLE=") (cut : CutOff text) (old : Bytes) :
    ¬ Terminates ⟨⟨text, true⟩, old, .sections, w⟩ := by
  cases cut with
  | last clean long =>
    have nonempty : text ≠ [] := List.ne_nil_of_length_pos (Nat.lt_trans Nat.zero_lt_one long)
    rw [terminates_step ((step_sections_last clean nonempty old).trans (header_table isTable))]
    exact diverges_of_ended long
  | @more line rest clean long later =>
    have isTable' : line.take 6 = bytes "TABLE=" := by
      have long : 6 ≤ line.length := by
        by_contra short
        have here : (bytes "TABLE=")[line.length]? = some 10 := by
          rw [← isTable, List.getElem?_take_of_lt (Nat.lt_of_not_le short), List.getElem?_append_right (Nat.le_refl _),
            Nat.sub_self, List.getElem?_cons_zero]
        exact absurd (List.mem_of_getElem? here) (by decide)
      rwa [List.take_append_of_le_length long] at isTable
    rw [terminates_step ((step_sections clean rest old).trans (header_table isTable'))]
    exact diverges_of_cutOff later line

theorem not_terminates_of_faulty (faulty : Faulty text) (old : Bytes) :
    ¬ Terminates ⟨⟨text, true⟩, old, .sections, w⟩ := by
  cases faulty with
  | cutOff isTable cut => exact diverges_of_cut_table isTable cut old
  | @overlong line column short rest front back clean isTable long fine wide ends after =>
    rw [terminates_step ((step_sections clean _ old).trans (header_table isTable))]
    rcases after with rfl | next
    · rw [List.append_nil, terminates_columns_last long ends.1]
      exact not_terminates_of_overlong ends.2 fine wide
    · obtain ⟨later, rfl⟩ := List.head?_eq_some_iff.mp next
      rw [terminates_columns long ends.1]
      exact not_terminates_of_overlong ends.2 fine wide
  | @noItems line rest clean isIndex after =>
    have stops := header_noItems ⟨rest, true⟩ w isIndex (getline_empty after line)
    exact not_terminates_of_undefined ((step_sections clean rest old).trans stops)

theorem declares_empty : Declares Workload.empty [] := fun _ => ⟨nofun, nofun⟩

end

/-- `init_schema` returns or fails an assertion after finitely many iterations, exactly when no section it
comes to is at fault: a TABLE section that is cut off by the end of the file in a line of more than one byte,
or has, after columns that are added, one with a type or a name of 80 bytes or more; an INDEX section whose
next line is empty. -/
theorem initSchema_terminates_iff (content : Bytes) : Terminates (initSchema content) ↔
    ¬ ∃ done text names, content = done ++ text ∧ Scanned [] done names ∧ Faulty text := by
  constructor
  · rintro done ⟨front, text, names, rfl, scanned, faulty⟩
    obtain ⟨w, old, -, same⟩ := terminates_scanned scanned declares_empty text []
    have reached : Terminates ⟨⟨text, true⟩, old, .sections, w⟩ := same.mp done
    exact not_terminates_of_faulty faulty old reached
  · intro faultless
    refine terminates_of_faultless declares_empty [] ?_
    intro done rest names same scanned faulty
    exact faultless ⟨done, rest, names, same, scanned, faulty⟩

/-- A table without its last newline: the scan does not end. -/
theorem initSchema_hangs : ¬ ∀ content, Terminates (initSchema content) := by
  intro ends
  have cut : CutOff (bytes "TABLE=T" ++ 10 :: bytes "\t8,uint64,F0") :=
    .more (by decide) (by decide) (.last (by decide) (by decide))
  exact diverges_of_cut_table (by decide) cut [] (ends _)

end DataAgentDB.Storage
