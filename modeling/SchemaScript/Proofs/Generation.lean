import Mathlib
import SchemaScript.Sql.Generate

namespace SchemaScript

/-- The definition is the one that the column has in the dialect. -/
structure ColumnDefinition.Defines (dialect : Dialect) (definition : ColumnDefinition)
    (column : Column) : Prop where
  valid : isSqlName column.name
  name : definition.name = column.name
  type : column.sqlType dialect = .ok definition.type
  primaryKey : definition.primaryKey = column.has .primaryKey
  defaultValue : definition.defaultValue =
    (column.attributes.filterMap Attribute.default?).getLast?
  autoIncrement : definition.autoIncrement = column.has .autoIncrement
  nullable : definition.nullable = column.has .nullable

/-- The statement creates the table as it is declared. -/
structure CreateTable.Defines (dialect : Dialect) (statement : CreateTable) (table : Table) :
    Prop where
  valid : isSqlName table.name
  nonempty : table.columns ≠ []
  name : statement.name = table.name
  columns : List.Forall₂ (ColumnDefinition.Defines dialect) statement.columns table.columns
  references : statement.references = table.references

variable {dialect : Dialect}

theorem Dialect.mem_types_of_sqlType? {name type : String}
    (h : dialect.sqlType? name = some type) : (name, type) ∈ dialect.types := by
  obtain ⟨before, after, hsplit, _⟩ := List.lookup_eq_some_iff.mp h
  simp [hsplit]

namespace Column

theorem sqlType_eq_ok_iff {self : Column} {type : String} :
    self.sqlType dialect = .ok type ↔
      (∃ name, self.type = .named name ∧ dialect.sqlType? name = some type) ∨
        self.type = .raw ∧ self.attributes.findSome? Attribute.rawType? = some type ∧
          type ≠ "" := by
  unfold sqlType
  cases self.type with
  | named name => cases hfound : dialect.sqlType? name <;> simp [hfound]
  | raw =>
    cases hfound : self.attributes.findSome? Attribute.rawType? with
    | none => simp
    | some literal =>
      by_cases hempty : literal = ""
      · subst hempty
        simp
      · simp only [hempty, if_false, Except.ok.injEq, reduceCtorEq, false_and, exists_false,
          false_or, true_and, Option.some.injEq]
        constructor
        · rintro rfl
          exact ⟨rfl, hempty⟩
        · exact And.left

theorem definition_eq_ok_iff {self : Column} {table : String} {definition : ColumnDefinition} :
    self.definition dialect table = .ok definition ↔ definition.Defines dialect self := by
  unfold Column.definition
  constructor
  · intro h
    split at h
    next => cases h
    next hvalid =>
      split at h
      next => cases h
      next type htype =>
        cases h
        exact ⟨by simpa using hvalid, rfl, htype, rfl, rfl, rfl, rfl⟩
  · intro h
    obtain ⟨name, type, primaryKey, defaultValue, autoIncrement, nullable⟩ := definition
    obtain ⟨hvalid, rfl, htype, rfl, rfl, rfl, rfl⟩ := h
    simp [hvalid, htype]

theorem definitions_eq_ok_iff {table : String} {columns : List Column}
    {definitions : List ColumnDefinition} :
    Column.definitions dialect table columns = .ok definitions ↔
      List.Forall₂ (ColumnDefinition.Defines dialect) definitions columns := by
  induction columns generalizing definitions with
  | nil => simp [Column.definitions, eq_comm]
  | cons column rest ih =>
    rw [Column.definitions, List.forall₂_cons_right_iff]
    constructor
    · intro h
      split at h
      next => cases h
      next definition hdefinition =>
        split at h
        next => cases h
        next later hlater =>
          cases h
          exact ⟨definition, later, definition_eq_ok_iff.mp hdefinition, ih.mp hlater, rfl⟩
    · rintro ⟨definition, later, hdefinition, hlater, rfl⟩
      rw [definition_eq_ok_iff.mpr hdefinition, ih.mpr hlater]

end Column

namespace Table

theorem statement_eq_ok_iff {self : Table} {statement : CreateTable} :
    self.statement dialect = .ok statement ↔ statement.Defines dialect self := by
  unfold Table.statement
  constructor
  · intro h
    split at h
    next => cases h
    next hvalid =>
      split at h
      next => cases h
      next hnonempty =>
        split at h
        next => cases h
        next columns hcolumns =>
          cases h
          exact ⟨by simpa using hvalid, by simpa using hnonempty, rfl,
            Column.definitions_eq_ok_iff.mp hcolumns, rfl⟩
  · intro h
    obtain ⟨name, columns, references⟩ := statement
    obtain ⟨hvalid, hnonempty, rfl, hcolumns, rfl⟩ := h
    simp [hvalid, hnonempty, Column.definitions_eq_ok_iff.mpr hcolumns]

theorem statements_eq_ok_iff {tables : List Table} {statements : List CreateTable} :
    (Table.statements dialect tables).outcome = .ok statements ↔
      List.Forall₂ (CreateTable.Defines dialect) statements tables := by
  induction tables generalizing statements with
  | nil => simp [Table.statements, eq_comm]
  | cons table rest ih =>
    rw [Table.statements, List.forall₂_cons_right_iff]
    constructor
    · intro h
      split at h
      next => cases h
      next statement hstatement =>
        cases hlater : (Table.statements dialect rest).outcome with
        | error e => simp [hlater, Except.map] at h
        | ok later =>
          simp only [hlater, Except.map, Except.ok.injEq] at h
          exact ⟨statement, later, statement_eq_ok_iff.mp hstatement, ih.mp hlater, h.symm⟩
    · rintro ⟨statement, later, hstatement, hlater, rfl⟩
      rw [statement_eq_ok_iff.mpr hstatement]
      simp [ih.mpr hlater, Except.map]

end Table

namespace Schema

variable {schema : Schema}

/-- The tables of a schema are created one by one, if it is for the known dialect and
has tables at all. -/
theorem statements_eq_ok_iff {statements : List CreateTable} :
    schema.statements.outcome = .ok statements ↔
      schema.configuration.provider = "sqlite" ∧ schema.tables ≠ [] ∧
        List.Forall₂ (CreateTable.Defines .sqlite) statements schema.tables := by
  unfold Schema.statements Dialect.ofName?
  by_cases hprovider : schema.configuration.provider = "sqlite"
  · by_cases htables : schema.tables = []
    · simp [hprovider, htables]
    · simp [hprovider, htables, Table.statements_eq_ok_iff]
  · simp [hprovider]

theorem generate_eq_ok_iff {sql : String} :
    schema.generate.outcome = .ok sql ↔
      ∃ statements, schema.statements.outcome = .ok statements ∧
        sql = CreateTable.script statements := by
  unfold Schema.generate
  cases houtcome : schema.statements.outcome <;> simp [houtcome, Except.map, eq_comm]

end Schema

end SchemaScript
