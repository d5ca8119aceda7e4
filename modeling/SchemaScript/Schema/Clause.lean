import SchemaScript.Error
import SchemaScript.Schema.Basic

namespace SchemaScript

/-- An attribute clause on a column that is being read, with the arguments read
so far. `table` is the open table, which does not hold the column yet. -/
structure Clause where
  table : Table
  column : Column
  name : Token
  arguments : List Argument
deriving DecidableEq

namespace Clause

/-- Adds an argument behind the others. -/
def addArgument (self : Clause) (added : Argument) : Clause :=
  { self with arguments := self.arguments ++ [added] }

/-- The reference that `@reference` declares. Its target is a column of a table
that is complete already, so no table can refer to itself. -/
def reference (schema : Schema) (table : Table) (column : Column) :
    List Argument → Except Fault (Table × Attribute)
  | [.text target, .text key] =>
    match schema.table? target with
    | none => .error (.noSuchTable target)
    | some found =>
      if (found.column? key).isNone then .error (.noSuchColumn key target)
      else .ok (table.addReference ⟨column.name, target, key, none, none⟩, .reference target key)
  | [_, _] => .error (.stringsExpected .reference)
  | _ => .error (.twoParameters .reference)

/-- The action that `@onDelete` or `@onUpdate` declares on the reference of the
column. -/
def action (occasion : Occasion) (table : Table) (column : Column) :
    List Argument → Except Fault (Table × Attribute)
  | [.text text] =>
    match Action.ofName? text with
    | none => .error (.actionExpected (.action occasion))
    | some found =>
      match table.setAction? column.name occasion (some found.name) with
      | none => .error (.referenceRequired (.action occasion))
      | some changed => .ok (changed, .action occasion found.name)
  | [_] => .error (.stringExpected (.action occasion))
  | _ => .error (.oneParameter (.action occasion))

/-- The attribute of a kind with the given arguments, and the open table with
what the attribute changes in it. -/
def resolve (schema : Schema) (table : Table) (column : Column) (arguments : List Argument) :
    Attribute.Kind → Except Fault (Table × Attribute)
  | .primaryKey =>
    if arguments.isEmpty then .ok (table, .primaryKey) else .error (.noParameters .primaryKey)
  | .autoIncrement =>
    if arguments.isEmpty then .ok (table, .autoIncrement) else .error (.noParameters .autoIncrement)
  | .nullable =>
    if arguments.isEmpty then .ok (table, .nullable) else .error (.noParameters .nullable)
  | .defaultValue =>
    match arguments with
    | [value] => .ok (table, .defaultValue value)
    | _ => .error (.oneParameter .defaultValue)
  | .reference => reference schema table column arguments
  | .action occasion => action occasion table column arguments
  | .rawType => .error (.unknownAttribute Attribute.Kind.rawType.name)

/-- Adds the attribute of a finished clause to its column. Arguments are looked
at only after the name, and only if the column has no such attribute yet. -/
def attach (schema : Schema) (self : Clause) : Except Fault (Table × Column) :=
  match Attribute.Kind.ofName? self.name.literal with
  | none => .error (.unknownAttribute self.name.literal)
  | some kind =>
    if self.column.has kind then .error (.attributeRepeated kind)
    else
      match resolve schema self.table self.column self.arguments kind with
      | .ok (table, added) => .ok (table, self.column.addAttribute added)
      | .error fault => .error fault

end Clause

end SchemaScript
