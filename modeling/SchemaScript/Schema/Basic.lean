import SchemaScript.Schema.Attribute
import SchemaScript.Schema.Configuration

namespace SchemaScript

/-- The type of a column: a logical name, or a raw type whose text is in an
attribute of the column. -/
inductive DataType where
  | named (name : String)
  | raw
deriving DecidableEq

/-- The type as it is shown in the log. -/
def DataType.text : DataType → String
  | .named name => name
  | .raw => "raw"

/-- A foreign key of a table, from its column `source` to a column of another
table. -/
structure Reference where
  source : String
  table : String
  column : String
  onDelete : Option String
  onUpdate : Option String
deriving DecidableEq

namespace Reference

/-- The action for an occasion. -/
def action? (self : Reference) : Occasion → Option String
  | .delete => self.onDelete
  | .update => self.onUpdate

/-- Sets or clears the action for an occasion. -/
def setAction (self : Reference) (action : Option String) : Occasion → Reference
  | .delete => { self with onDelete := action }
  | .update => { self with onUpdate := action }

end Reference

/-- A column, with its attributes in the order of their declaration. -/
structure Column where
  name : String
  type : DataType
  attributes : List Attribute
deriving DecidableEq

namespace Column

/-- The first attribute of a kind. -/
def attribute? (self : Column) (kind : Attribute.Kind) : Option Attribute :=
  self.attributes.find? (·.kind == kind)

/-- The column has an attribute of the kind. -/
def has (self : Column) (kind : Attribute.Kind) : Bool :=
  self.attributes.any (·.kind == kind)

/-- Adds an attribute behind the others. -/
def addAttribute (self : Column) (added : Attribute) : Column :=
  { self with attributes := self.attributes ++ [added] }

end Column

/-- A table, with columns and references in the order of their declaration. -/
structure Table where
  name : String
  columns : List Column
  references : List Reference
deriving DecidableEq

namespace Table

/-- A table of which nothing but the name is known. -/
def empty (name : String) : Table := ⟨name, [], []⟩

/-- The first column of a name. -/
def column? (self : Table) (name : String) : Option Column :=
  self.columns.find? (·.name == name)

/-- The first reference from a column. -/
def reference? (self : Table) (source : String) : Option Reference :=
  self.references.find? (·.source == source)

/-- Adds a column behind the others. -/
def addColumn (self : Table) (added : Column) : Table :=
  { self with columns := self.columns ++ [added] }

/-- Puts a column in the place of the one at an index. -/
def setColumn (self : Table) (index : Nat) (column : Column) : Table :=
  { self with columns := self.columns.set index column }

/-- Adds a reference behind the others. -/
def addReference (self : Table) (added : Reference) : Table :=
  { self with references := self.references ++ [added] }

/-- Sets an action of the first reference from a column, if there is one. -/
def setAction? (self : Table) (source : String) (occasion : Occasion) (action : Option String) :
    Option Table :=
  (self.references.findIdx? (·.source == source)).map fun index =>
    { self with references := self.references.modify index (·.setAction action occasion) }

end Table

/-- A schema: its settings, and its tables in the order of their declaration. -/
structure Schema where
  configuration : Configuration
  tables : List Table
deriving DecidableEq

namespace Schema

/-- The schema of an empty source text. -/
def initial : Schema := ⟨.initial, []⟩

/-- The first table of a name. -/
def table? (self : Schema) (name : String) : Option Table :=
  self.tables.find? (·.name == name)

/-- Adds a table behind the others. -/
def addTable (self : Schema) (added : Table) : Schema :=
  { self with tables := self.tables ++ [added] }

/-- Puts a table in the place of the one at an index. -/
def setTable (self : Schema) (index : Nat) (table : Table) : Schema :=
  { self with tables := self.tables.set index table }

/-- Sets a key of the configuration, over an earlier value. -/
def configure (self : Schema) (key value : String) : Schema :=
  { self with configuration := self.configuration.insert key value }

end Schema

end SchemaScript
