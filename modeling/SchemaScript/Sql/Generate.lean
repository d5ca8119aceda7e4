import SchemaScript.Error
import SchemaScript.Event
import SchemaScript.Sql.Dialect
import SchemaScript.Sql.Statement

namespace SchemaScript

/-- A name that needs no quotes in SQL: an ASCII letter or an underscore, then
ASCII letters, ASCII digits, underscores and dollar signs. -/
def isSqlName (name : String) : Bool :=
  match name.toList with
  | [] => false
  | c :: cs => (c.isAlpha || c == '_') && cs.all fun d => d.isAlphanum || d == '_' || d == '$'

namespace Column

/-- The SQL type of a column. Of several raw literals the first counts. -/
def sqlType (self : Column) (dialect : Dialect) : Except GenerationError String :=
  match self.type with
  | .named name =>
    match dialect.sqlType? name with
    | some type => .ok type
    | none => .error (.unknownType name)
  | .raw =>
    match self.attributes.findSome? Attribute.rawType? with
    | none => .error (.missingRawType self.name)
    | some literal => if literal = "" then .error (.emptyRawType self.name) else .ok literal

/-- The definition of a column of the table named `table`. Of several defaults
the last counts. -/
def definition (self : Column) (dialect : Dialect) (table : String) :
    Except GenerationError ColumnDefinition :=
  if !isSqlName self.name then .error (.badColumnName self.name table)
  else
    match self.sqlType dialect with
    | .error e => .error e
    | .ok type =>
      .ok {
        name := self.name
        type
        primaryKey := self.has .primaryKey
        defaultValue := (self.attributes.filterMap Attribute.default?).getLast?
        autoIncrement := self.has .autoIncrement
        nullable := self.has .nullable }

/-- The definitions of some columns, or what is wrong with the first column that
has none. -/
def definitions (dialect : Dialect) (table : String) :
    List Column → Except GenerationError (List ColumnDefinition)
  | [] => .ok []
  | column :: rest =>
    match column.definition dialect table with
    | .error e => .error e
    | .ok definition =>
      match definitions dialect table rest with
      | .error e => .error e
      | .ok later => .ok (definition :: later)

end Column

namespace Table

/-- The statement that creates a table. References are taken over as they are. -/
def statement (self : Table) (dialect : Dialect) : Except GenerationError CreateTable :=
  if !isSqlName self.name then .error (.badTableName self.name)
  else if self.columns.isEmpty then .error (.noColumns self.name)
  else
    match Column.definitions dialect self.name self.columns with
    | .error e => .error e
    | .ok columns => .ok ⟨self.name, columns, self.references⟩

/-- The statements of some tables, up to the first table that has none. -/
def statements (dialect : Dialect) : List Table → Report GenerationError (List CreateTable)
  | [] => ⟨[], .ok []⟩
  | table :: rest =>
    match table.statement dialect with
    | .error e => ⟨[], .error e⟩
    | .ok statement =>
      let later := statements dialect rest
      ⟨.statementGenerated table.name :: later.log, later.outcome.map (statement :: ·)⟩

end Table

/-- The statements of a schema. The dialect is looked at first, then whether
there is a table, then the tables in order. -/
def Schema.statements (self : Schema) : Report GenerationError (List CreateTable) :=
  match Dialect.ofName? self.configuration.provider with
  | none => ⟨[], .error (.unsupportedProvider self.configuration.provider)⟩
  | some dialect =>
    if self.tables.isEmpty then ⟨[], .error .noTables⟩
    else Table.statements dialect self.tables

/-- The SQL text of a schema. -/
def Schema.generate (self : Schema) : Report GenerationError String :=
  let statements := self.statements
  ⟨statements.log, statements.outcome.map CreateTable.script⟩

end SchemaScript
