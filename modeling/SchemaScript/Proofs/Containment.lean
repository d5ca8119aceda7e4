import Mathlib
import SchemaScript.Proofs.ForeignKeys
import SchemaScript.Proofs.Quoting

namespace SchemaScript

/-- A text that cannot open or close a literal. -/
def QuoteFree (text : String) : Prop := '\x27' ∉ text.toList

/-- The names and actions of a reference cannot open or close a literal. -/
structure Reference.QuoteFree (reference : Reference) : Prop where
  source : SchemaScript.QuoteFree reference.source
  table : SchemaScript.QuoteFree reference.table
  column : SchemaScript.QuoteFree reference.column
  actions : ∀ occasion action, reference.action? occasion = some action →
    SchemaScript.QuoteFree action

/-- What an attribute passes through to the SQL text as it is cannot open or close a
literal. -/
def Attribute.QuoteFree : Attribute → Prop
  | .rawType literal => SchemaScript.QuoteFree literal
  | .defaultValue (.raw value) => SchemaScript.QuoteFree value
  | _ => True

/-- Nothing that the table passes through to the SQL text can open or close a literal. -/
@[mk_iff quoteFree_iff]
structure Table.QuoteFree (table : Table) : Prop where
  attributes : ∀ column ∈ table.columns, ∀ attached ∈ column.attributes, attached.QuoteFree
  references : ∀ reference ∈ table.references, reference.QuoteFree

/-- The value of an argument that is a text. -/
def Argument.text? : Argument → Option String
  | .text value => some value
  | .raw _ => none

/-- The value of a default that is given as a text. -/
def Attribute.textDefault? (self : Attribute) : Option String := self.default?.bind Argument.text?

/-- The texts that a column gives as defaults. -/
def Column.textDefaults (self : Column) : List String :=
  self.attributes.filterMap Attribute.textDefault?

/-- The texts that are given as defaults, in the order of tables and columns. -/
def Schema.textDefaults (self : Schema) : List String :=
  self.tables.flatMap fun table => table.columns.flatMap Column.textDefaults

/-- The argument with its text emptied. Raw expressions stay. -/
def Argument.blank : Argument → Argument
  | .text _ => .text ""
  | .raw value => .raw value

/-- The attribute with the text of its default emptied. -/
def Attribute.blank : Attribute → Attribute
  | .defaultValue value => .defaultValue value.blank
  | other => other

/-- The column with the texts of its defaults emptied. -/
def Column.blank (self : Column) : Column :=
  { self with attributes := self.attributes.map Attribute.blank }

/-- The table with the texts of its defaults emptied. -/
def Table.blank (self : Table) : Table := { self with columns := self.columns.map Column.blank }

/-- The schema with the texts of its defaults emptied. Schemas that are equal when blanked
differ in these texts alone. -/
def Schema.blank (self : Schema) : Schema := { self with tables := self.tables.map Table.blank }

/-- The definition with the text of its default emptied. -/
def ColumnDefinition.blank (self : ColumnDefinition) : ColumnDefinition :=
  { self with defaultValue := self.defaultValue.map Argument.blank }

/-- The statement with the texts of its defaults emptied. -/
def CreateTable.blank (self : CreateTable) : CreateTable :=
  { self with columns := self.columns.map ColumnDefinition.blank }

section Tidiness

theorem quoteFree_of_isSqlName {name : String} (h : isSqlName name) : QuoteFree name := by
  unfold isSqlName at h
  unfold QuoteFree
  split at h
  next => cases h
  next c cs hlist =>
    simp only [Bool.and_eq_true, List.all_eq_true] at h
    rw [hlist, List.mem_cons]
    rintro (rfl | hmem)
    · exact absurd h.1 (by decide)
    · exact absurd (h.2 _ hmem) (by decide)

theorem quoteFree_of_isName {name : String} (h : isName name) : QuoteFree name :=
  not_mem_of_isWord (isWord_of_isName h) (by decide)

/-- The SQL type of a column is one of the dialect, or the literal of an attribute. -/
theorem Column.quoteFree_of_sqlType {self : Column} {type : String}
    (hfree : ∀ attached ∈ self.attributes, attached.QuoteFree)
    (h : self.sqlType .sqlite = .ok type) : QuoteFree type := by
  rcases sqlType_eq_ok_iff.mp h with ⟨name, _, htype⟩ | ⟨_, hraw, _⟩
  · have htypes : ∀ entry ∈ Dialect.sqlite.types, '\x27' ∉ entry.2.toList := by decide
    exact htypes _ (Dialect.mem_types_of_sqlType? htype)
  · obtain ⟨attached, hmem, hsome⟩ := List.exists_of_findSome?_eq_some hraw
    cases attached with
    | rawType literal =>
      cases hsome
      exact hfree _ hmem
    | _ => cases hsome

namespace ColumnDefinition

variable {self : ColumnDefinition}

theorem parts_tidy (hname : QuoteFree self.name) (htype : QuoteFree self.type)
    (hdefault : ∀ value, self.defaultValue = some (.raw value) → QuoteFree value) :
    SqlPart.Tidy self.parts := by
  unfold QuoteFree at hname htype hdefault
  have hkey : '\x27' ∉ (if self.primaryKey then " PRIMARY KEY UNIQUE" else "").toList := by
    split <;> decide
  have hends : '\x27' ∉ ((if self.autoIncrement then " AUTO_INCREMENT" else "") ++
      (if self.nullable then " NULL" else " NOT NULL")).toList := by
    split <;> split <;> decide
  have hne : (if self.autoIncrement then " AUTO_INCREMENT" else "") ++
      (if self.nullable then " NULL" else " NOT NULL") ≠ "" := by
    split <;> split <;> decide
  unfold parts
  refine ⟨by simp [hname, htype, hkey], ?_⟩
  cases hvalue : self.defaultValue with
  | none => exact ⟨hends, trivial⟩
  | some value =>
    cases value with
    | text value => exact ⟨by decide, ⟨_, [], rfl, hne⟩, hends, trivial⟩
    | raw value => exact ⟨by decide, hdefault value hvalue, hends, trivial⟩

theorem Defines.parts_tidy {column : Column} (h : self.Defines .sqlite column)
    (hfree : ∀ attached ∈ column.attributes, attached.QuoteFree) : SqlPart.Tidy self.parts := by
  refine ColumnDefinition.parts_tidy ?_ (Column.quoteFree_of_sqlType hfree h.type) ?_
  · rw [h.name]
    exact quoteFree_of_isSqlName h.valid
  · intro value hvalue
    rw [h.defaultValue] at hvalue
    obtain ⟨attached, hmem, hsome⟩ := List.mem_filterMap.mp (List.mem_of_getLast? hvalue)
    cases attached with
    | defaultValue given =>
      cases hsome
      exact hfree _ hmem
    | _ => cases hsome

end ColumnDefinition

theorem Reference.QuoteFree.sql {reference : Reference} (h : reference.QuoteFree) :
    SchemaScript.QuoteFree reference.sql := by
  obtain ⟨hsource, htable, hcolumn, hactions⟩ := h
  have hdelete := hactions .delete
  have hupdate := hactions .update
  unfold SchemaScript.QuoteFree at *
  unfold Reference.sql
  simp only [Reference.action?] at hdelete hupdate
  cases hd : reference.onDelete <;> cases hu : reference.onUpdate <;> simp_all

namespace CreateTable

theorem Defines.parts_tidy {self : CreateTable} {table : Table} (h : self.Defines .sqlite table)
    (hfree : table.QuoteFree) : SqlPart.Tidy self.parts := by
  have hname : QuoteFree self.name := h.name ▸ quoteFree_of_isSqlName h.valid
  have hcolumns : SqlPart.Tidy (self.columns.flatMap fun definition =>
      .plain "\t" :: definition.parts ++ [.plain ",\n"]) := by
    apply SqlPart.Tidy.flatMap
    intro definition hmem
    obtain ⟨column, hcolumn, hdefines⟩ := exists_right_of_mem h.columns hmem
    have htidy := hdefines.parts_tidy (hfree.attributes column hcolumn)
    exact ⟨by decide, htidy.append ⟨by decide, trivial⟩⟩
  have hreferences : SqlPart.Tidy (self.references.map fun reference =>
      .plain ("\t" ++ reference.sql ++ ",\n")) := by
    rw [List.map_eq_flatMap]
    apply SqlPart.Tidy.flatMap
    intro reference hmem
    rw [h.references] at hmem
    have hsql : '\x27' ∉ reference.sql.toList := (hfree.references reference hmem).sql
    exact ⟨by simp [hsql], trivial⟩
  have hopening : '\x27' ∉ ("CREATE TABLE " ++ self.name ++ " (\n").toList := by
    have hname : '\x27' ∉ self.name.toList := hname
    simp [hname]
  exact ⟨hopening, (hcolumns.append hreferences).append ⟨by decide, trivial⟩⟩

theorem scriptParts_tidy {statements : List CreateTable}
    (h : ∀ statement ∈ statements, SqlPart.Tidy statement.parts) :
    SqlPart.Tidy (scriptParts statements) := by
  cases statements with
  | nil => exact ⟨by decide, trivial⟩
  | cons first rest =>
    rw [List.forall_mem_cons] at h
    refine h.1.append ⟨by decide, SqlPart.Tidy.flatMap ?_⟩
    intro statement hmem
    exact ⟨by decide, (h.2 statement hmem).append ⟨by decide, trivial⟩⟩

end CreateTable

end Tidiness

/-- The texts that a definition writes as literals. -/
def ColumnDefinition.literals (self : ColumnDefinition) : List String :=
  (self.defaultValue.bind Argument.text?).toList

theorem ColumnDefinition.parts_literals (self : ColumnDefinition) :
    self.parts.filterMap SqlPart.value? = self.literals := by
  unfold parts literals
  cases self.defaultValue with
  | none => rfl
  | some value => cases value <;> rfl

/-- The literal of a column is its only default. Of several the last one would count. -/
theorem ColumnDefinition.Defines.literals_eq {definition : ColumnDefinition} {column : Column}
    {dialect : Dialect} (h : definition.Defines dialect column)
    (honce : (column.attributes.filterMap Attribute.default?).length ≤ 1) :
    definition.literals = column.textDefaults := by
  have htexts : column.textDefaults =
      (column.attributes.filterMap Attribute.default?).filterMap Argument.text? := by
    rw [List.filterMap_filterMap]
    rfl
  rw [literals, h.defaultValue, htexts]
  match hdefaults : column.attributes.filterMap Attribute.default? with
  | [] => rfl
  | [value] => cases value <;> rfl
  | first :: second :: rest => simp [hdefaults] at honce

namespace CreateTable

theorem parts_literals (self : CreateTable) :
    self.parts.filterMap SqlPart.value? = self.columns.flatMap ColumnDefinition.literals := by
  unfold parts
  simp [List.filterMap_cons, List.filterMap_flatMap, List.filterMap_map, Function.comp_def,
    SqlPart.value?, ColumnDefinition.parts_literals]

/-- The literals of a generated text are the texts of the defaults. -/
theorem scriptParts_literals (statements : List CreateTable) :
    (scriptParts statements).filterMap SqlPart.value? =
      statements.flatMap fun statement => statement.columns.flatMap ColumnDefinition.literals := by
  cases statements with
  | nil => rfl
  | cons first rest =>
    simp [scriptParts, SqlPart.value?, parts_literals, List.filterMap_cons, List.filterMap_flatMap]

end CreateTable

namespace Column

theorem sqlType_blank (self : Column) (dialect : Dialect) :
    self.blank.sqlType dialect = self.sqlType dialect := by
  have hraw : Attribute.rawType? ∘ Attribute.blank = Attribute.rawType? := by
    funext attached
    cases attached <;> rfl
  simp only [sqlType, blank, List.findSome?_map, hraw]

theorem has_blank (self : Column) (kind : Attribute.Kind) :
    self.blank.has kind = self.has kind := by
  have hkind : (fun attached : Attribute => attached.blank.kind == kind) =
      fun attached => attached.kind == kind := by
    funext attached
    cases attached <;> rfl
  simp only [has, blank, List.any_map, Function.comp_def, hkind]

theorem defaults_blank (self : Column) :
    self.blank.attributes.filterMap Attribute.default? =
      (self.attributes.filterMap Attribute.default?).map Argument.blank := by
  have hdefault : Attribute.default? ∘ Attribute.blank =
      fun attached => attached.default?.map Argument.blank := by
    funext attached
    cases attached <;> rfl
  simp only [blank, List.filterMap_map, hdefault, List.map_filterMap]

end Column

section Blanking

variable {dialect : Dialect}

theorem ColumnDefinition.parts_blank (self : ColumnDefinition) :
    self.blank.parts = self.parts.map SqlPart.blank := by
  unfold parts blank
  cases self.defaultValue with
  | none => rfl
  | some value => cases value <;> rfl

theorem ColumnDefinition.Defines.exists_of_blank {definition : ColumnDefinition}
    {column other : Column} (h : definition.Defines dialect column)
    (hblank : other.blank = column.blank) :
    ∃ changed : ColumnDefinition, changed.Defines dialect other ∧
      changed.blank = definition.blank := by
  obtain ⟨hname, _, _⟩ := Column.mk.inj hblank
  have htype : other.sqlType dialect = column.sqlType dialect := by
    rw [← other.sqlType_blank, hblank, column.sqlType_blank]
  have hhas : ∀ kind, other.has kind = column.has kind := by
    intro kind
    rw [← other.has_blank, hblank, column.has_blank]
  refine ⟨{ definition with
    defaultValue := (other.attributes.filterMap Attribute.default?).getLast? }, ?_, ?_⟩
  · exact {
      valid := hname ▸ h.valid
      name := hname ▸ h.name
      type := htype ▸ h.type
      primaryKey := hhas .primaryKey ▸ h.primaryKey
      defaultValue := rfl
      autoIncrement := hhas .autoIncrement ▸ h.autoIncrement
      nullable := hhas .nullable ▸ h.nullable }
  · have hdefault : (other.attributes.filterMap Attribute.default?).getLast?.map Argument.blank =
        definition.defaultValue.map Argument.blank := by
      rw [h.defaultValue, ← List.getLast?_map, ← List.getLast?_map, ← other.defaults_blank, hblank,
        column.defaults_blank]
    simp only [ColumnDefinition.blank, hdefault]

namespace CreateTable

theorem parts_blank (self : CreateTable) : self.blank.parts = self.parts.map SqlPart.blank := by
  unfold parts blank
  simp [List.map_flatMap, List.flatMap_map, ColumnDefinition.parts_blank, SqlPart.blank]

theorem scriptParts_blank (statements : List CreateTable) :
    scriptParts (statements.map blank) = (scriptParts statements).map SqlPart.blank := by
  cases statements with
  | nil => rfl
  | cons first rest =>
    simp [scriptParts, parts_blank, List.map_flatMap, List.flatMap_map, SqlPart.blank]

/-- Tables that are equal when blanked have the same statement up to the texts of defaults. -/
theorem Defines.exists_of_blank {statement : CreateTable} {table other : Table}
    (h : statement.Defines dialect table) (hblank : other.blank = table.blank) :
    ∃ changed : CreateTable, changed.Defines dialect other ∧ changed.blank = statement.blank := by
  obtain ⟨hname, hcolumns, hreferences⟩ := Table.mk.inj hblank
  have hnonempty : other.columns ≠ [] := by
    intro hnil
    rw [hnil, List.map_nil, eq_comm, List.map_eq_nil_iff] at hcolumns
    exact h.nonempty hcolumns
  obtain ⟨columns, hdefines, heq⟩ := exists_forall₂_of_map_eq h.columns hcolumns
    fun _ _ _ hdefines => hdefines.exists_of_blank
  refine ⟨{ statement with columns }, ?_, by simp only [CreateTable.blank, heq]⟩
  exact ⟨hname ▸ h.valid, hnonempty, hname ▸ h.name, hdefines, hreferences ▸ h.references⟩

end CreateTable

theorem Schema.exists_statements_of_blank {schema other : Schema} {statements : List CreateTable}
    (h : schema.statements.outcome = .ok statements) (hblank : other.blank = schema.blank) :
    ∃ changed, other.statements.outcome = .ok changed ∧
      changed.map CreateTable.blank = statements.map CreateTable.blank := by
  obtain ⟨hprovider, hnonempty, hdefines⟩ := statements_eq_ok_iff.mp h
  obtain ⟨hconfiguration, htables⟩ := Schema.mk.inj hblank
  obtain ⟨changed, hchanged, heq⟩ := exists_forall₂_of_map_eq hdefines htables
    fun _ _ _ hdefines => hdefines.exists_of_blank
  refine ⟨changed, statements_eq_ok_iff.mpr ⟨hconfiguration ▸ hprovider, ?_, hchanged⟩, heq⟩
  intro hnil
  rw [hnil, List.map_nil, eq_comm, List.map_eq_nil_iff] at htables
  exact hnonempty htables

end Blanking

theorem Attribute.quoteFree_blank_iff {self : Attribute} :
    self.blank.QuoteFree ↔ self.QuoteFree := by
  cases self with
  | defaultValue value => cases value <;> rfl
  | _ => rfl

theorem Table.quoteFree_blank_iff {self : Table} : self.blank.QuoteFree ↔ self.QuoteFree := by
  simp only [quoteFree_iff, blank, Column.blank, List.forall_mem_map, Attribute.quoteFree_blank_iff]

namespace Schema

variable {schema : Schema}

/-- No raw text and no reference of the schema can open or close a literal. -/
def QuoteFree (schema : Schema) : Prop := ∀ table ∈ schema.tables, table.QuoteFree

/-- No column has two defaults. -/
def DefaultsOnce (schema : Schema) : Prop :=
  ∀ table ∈ schema.tables, ∀ column ∈ table.columns,
    (column.attributes.filterMap Attribute.default?).length ≤ 1

/-- The texts of defaults may have quotes or not. -/
theorem quoteFree_blank_iff : schema.blank.QuoteFree ↔ schema.QuoteFree := by
  simp only [QuoteFree, blank, List.forall_mem_map, Table.quoteFree_blank_iff]

theorem QuoteFree.scan_generate (h : schema.QuoteFree) {statements : List CreateTable}
    (hstatements : schema.statements.outcome = .ok statements) :
    scan (CreateTable.script statements).toList =
      SqlPart.reading (CreateTable.scriptParts statements) := by
  obtain ⟨_, _, hdefines⟩ := statements_eq_ok_iff.mp hstatements
  rw [CreateTable.script_eq_parts]
  apply SqlPart.Tidy.scan_eq
  apply CreateTable.scriptParts_tidy
  intro statement hmem
  obtain ⟨table, htable, hdefines⟩ := exists_right_of_mem hdefines hmem
  exact hdefines.parts_tidy (h table htable)

/-- What can be read in a generated text: it ends outside of literals, and its literals
hold the texts of the defaults. -/
theorem QuoteFree.scan_generate_literals (h : schema.QuoteFree) (honce : schema.DefaultsOnce)
    {statements : List CreateTable} (hstatements : schema.statements.outcome = .ok statements) :
    (scan (CreateTable.script statements).toList).literals =
      schema.textDefaults.map String.toList := by
  obtain ⟨_, _, hdefines⟩ := statements_eq_ok_iff.mp hstatements
  rw [h.scan_generate hstatements, SqlPart.reading_literals, CreateTable.scriptParts_literals]
  congr 1
  apply flatMap_eq_flatMap_of_forall₂ hdefines
  intro statement table htable hdefines
  apply flatMap_eq_flatMap_of_forall₂ hdefines.columns
  intro definition column hcolumn hdefines
  exact hdefines.literals_eq (honce table htable column hcolumn)

theorem QuoteFree.exists_generate_of_blank (h : schema.QuoteFree) {other : Schema}
    (hblank : other.blank = schema.blank) {statements : List CreateTable}
    (hstatements : schema.statements.outcome = .ok statements) :
    ∃ sql, other.generate.outcome = .ok sql ∧
      (scan sql.toList).outside = (scan (CreateTable.script statements).toList).outside := by
  obtain ⟨changed, hchanged, heq⟩ := exists_statements_of_blank hstatements hblank
  have hother : other.QuoteFree := by rwa [← quoteFree_blank_iff, hblank, quoteFree_blank_iff]
  refine ⟨_, generate_eq_ok_iff.mpr ⟨changed, hchanged, rfl⟩, ?_⟩
  rw [h.scan_generate hstatements, hother.scan_generate hchanged, ← SqlPart.reading_outside_blank,
    ← CreateTable.scriptParts_blank, heq, CreateTable.scriptParts_blank,
    SqlPart.reading_outside_blank]

theorem WellFormed.references_quoteFree (h : schema.WellFormed) {table : Table}
    (htable : table ∈ schema.tables) {reference : Reference} (hmem : reference ∈ table.references) :
    reference.QuoteFree := by
  have hnamed := h.reference_named htable hmem
  have hactions : ∀ name ∈ Action.all.map Action.name, '\x27' ∉ name.toList := by decide
  exact {
    source := quoteFree_of_isName hnamed.source
    table := quoteFree_of_isName hnamed.table
    column := quoteFree_of_isName hnamed.column
    actions := fun occasion name haction => hactions name (hnamed.actions occasion name haction) }

/-- The text of a default cannot get out of its literal. What is generated ends outside
of literals, its literals hold the texts of the defaults one by one, and what stands
outside of them does not depend on these texts. References that are read from a source
text have no quotes, so only raw texts can break this. -/
theorem generate_contains_defaults :
    (∀ source schema, (Schema.parse source).outcome = .ok schema →
      ∀ table ∈ schema.tables, ∀ reference ∈ table.references, reference.QuoteFree) ∧
    ∀ (schema : Schema) (sql : String), schema.DefaultsOnce → schema.QuoteFree →
      schema.generate.outcome = .ok sql →
      (scan sql.toList).closed = true ∧
        (scan sql.toList).literals = schema.textDefaults.map String.toList ∧
        ∀ other : Schema, other.blank = schema.blank →
          ∃ changed, other.generate.outcome = .ok changed ∧
            (scan changed.toList).outside = (scan sql.toList).outside := by
  constructor
  · intro source schema hparse table htable reference hmem
    exact (parse_wellFormed hparse).references_quoteFree htable hmem
  · intro schema sql honce hfree hgenerate
    obtain ⟨statements, hstatements, rfl⟩ := generate_eq_ok_iff.mp hgenerate
    refine ⟨?_, hfree.scan_generate_literals honce hstatements, ?_⟩
    · rw [hfree.scan_generate hstatements, SqlPart.reading_closed]
    · intro other hblank
      exact hfree.exists_generate_of_blank hblank hstatements

/-- A default that looks like the end of its statement stays a default. -/
theorem generate_contains_defaults_with_quote :
    ∃ schema : String → Schema,
      (Schema.parse ("table a\n x int\nend\ntable b\n" ++
        " y string @default(\"');\") @reference(\"a\",\"x\")\nend")).outcome = .ok (schema "');") ∧
      (schema "');").DefaultsOnce ∧ (schema "');").QuoteFree ∧
      ∃ sql, (schema "');").generate.outcome = .ok sql ∧ (scan sql.toList).closed = true ∧
        (scan sql.toList).literals = ["');".toList] ∧
        ∀ value, ∃ changed, (schema value).generate.outcome = .ok changed ∧
          (scan changed.toList).outside = (scan sql.toList).outside := by
  let schema : String → Schema := fun value =>
    ⟨.initial, [⟨"a", [⟨"x", .named "int", []⟩], []⟩,
      ⟨"b", [⟨"y", .named "string", [.defaultValue (.text value), .reference "a" "x"]⟩],
        [⟨"y", "a", "x", none, none⟩]⟩]⟩
  have hparse : (Schema.parse ("table a\n x int\nend\ntable b\n" ++
      " y string @default(\"');\") @reference(\"a\",\"x\")\nend")).outcome =
      .ok (schema "');") := by
    cbv
  have hstatements : (schema "');").statements.outcome =
      .ok [⟨"a", [⟨"x", "INTEGER", false, none, false, false⟩], []⟩,
        ⟨"b", [⟨"y", "TEXT", false, some (.text "');"), false, false⟩],
          [⟨"y", "a", "x", none, none⟩]⟩] := by
    cbv
  have hgenerate := generate_eq_ok_iff.mpr ⟨_, hstatements, rfl⟩
  have honce : (schema "');").DefaultsOnce := by
    simp [schema, DefaultsOnce, Attribute.default?]
  have hattributes : ∀ table ∈ (schema "');").tables, ∀ column ∈ table.columns,
      ∀ attached ∈ column.attributes, attached.QuoteFree := by
    simp [schema, Attribute.QuoteFree]
  have hfree : (schema "');").QuoteFree := fun table htable =>
    ⟨hattributes table htable, generate_contains_defaults.1 _ _ hparse table htable⟩
  obtain ⟨hclosed, hliterals, hother⟩ :=
    generate_contains_defaults.2 _ _ honce hfree hgenerate
  exact ⟨schema, hparse, honce, hfree, _, hgenerate, hclosed, hliterals,
    fun value => hother (schema value) rfl⟩

end Schema

end SchemaScript
