import SchemaScript.Schema.Basic

namespace SchemaScript

/-- A text as an SQL literal: in single quotes, with each single quote of the
text written twice. -/
def quoteLiteral (text : String) : String :=
  "'" ++ String.ofList (text.toList.flatMap fun c => if c = '\x27' then [c, c] else [c]) ++ "'"

/-- The definition of a column in a statement. -/
structure ColumnDefinition where
  name : String
  type : String
  primaryKey : Bool
  defaultValue : Option Argument
  autoIncrement : Bool
  nullable : Bool
deriving DecidableEq

/-- A statement that creates a table. -/
structure CreateTable where
  name : String
  columns : List ColumnDefinition
  references : List Reference
deriving DecidableEq

/-- A raw default is passed through as it is. -/
def Argument.sql : Argument → String
  | .text value => quoteLiteral value
  | .raw value => value

/-- The optional parts of a definition stand in a fixed order, each with one
space before it. -/
def ColumnDefinition.sql (self : ColumnDefinition) : String :=
  self.name ++ " " ++ self.type ++
    (if self.primaryKey then " PRIMARY KEY UNIQUE" else "") ++
    (self.defaultValue.elim "" fun value => " DEFAULT " ++ value.sql) ++
    (if self.autoIncrement then " AUTO_INCREMENT" else "") ++
    (if self.nullable then " NULL" else " NOT NULL")

/-- The clause of a foreign key. Actions stand at its end, that on deletion first. -/
def Reference.sql (self : Reference) : String :=
  "FOREIGN KEY (" ++ self.source ++ ") REFERENCES " ++ self.table ++ "(" ++ self.column ++ ")" ++
    (self.onDelete.elim "" fun action => " ON DELETE " ++ action) ++
    (self.onUpdate.elim "" fun action => " ON UPDATE " ++ action)

namespace CreateTable

/-- Each definition and each reference stands on a line of its own, with a tab
before it and a comma after it. -/
def sql (self : CreateTable) : String :=
  "CREATE TABLE " ++ self.name ++ " (\n" ++
    String.join ((self.columns.map ColumnDefinition.sql ++ self.references.map Reference.sql).map
      fun line => "\t" ++ line ++ ",\n") ++
    ");"

/-- A blank line stands between statements, and the last one ends with a line
break. -/
def script (statements : List CreateTable) : String :=
  "\n\n".intercalate (statements.map sql) ++ "\n"

end CreateTable

end SchemaScript
