namespace SchemaScript

/-- An argument of an attribute: text that stands for itself, or a raw
expression that is passed through. -/
inductive Argument where
  | text (value : String)
  | raw (value : String)
deriving DecidableEq

/-- What happens to a referenced row. -/
inductive Occasion where
  | delete
  | update
deriving DecidableEq

/-- What is done with the referencing rows on an occasion. -/
inductive Action where
  | cascade
  | setNull
  | setDefault
  | restrict
  | noAction
deriving DecidableEq

namespace Action

/-- All actions, in the order in which messages list them. -/
def all : List Action := [.cascade, .setNull, .setDefault, .restrict, .noAction]

/-- The name that is kept and written to the SQL text. -/
def name : Action → String
  | .cascade => "CASCADE"
  | .setNull => "SET NULL"
  | .setDefault => "SET DEFAULT"
  | .restrict => "RESTRICT"
  | .noAction => "NO ACTION"

/-- The action of a given name. ASCII letters may be in either case. -/
def ofName? (text : String) : Option Action :=
  all.find? (·.name.toList == text.toList.map Char.toUpper)

end Action

/-- A property of a column. Actions are kept by name, so that a schema built by
hand can hold any. -/
inductive Attribute where
  | primaryKey
  | autoIncrement
  | nullable
  | defaultValue (value : Argument)
  | reference (table column : String)
  | action (occasion : Occasion) (name : String)
  | rawType (literal : String)
deriving DecidableEq

namespace Attribute

/-- An attribute without its arguments. -/
inductive Kind where
  | primaryKey
  | autoIncrement
  | nullable
  | defaultValue
  | reference
  | action (occasion : Occasion)
  | rawType
deriving DecidableEq

/-- The kind of an attribute. -/
def kind : Attribute → Kind
  | .primaryKey => .primaryKey
  | .autoIncrement => .autoIncrement
  | .nullable => .nullable
  | .defaultValue _ => .defaultValue
  | .reference _ _ => .reference
  | .action occasion _ => .action occasion
  | .rawType _ => .rawType

/-- The value of a default attribute. -/
def default? : Attribute → Option Argument
  | .defaultValue value => some value
  | _ => none

/-- The literal of a raw type attribute. -/
def rawType? : Attribute → Option String
  | .rawType literal => some literal
  | _ => none

namespace Kind

/-- The kinds that a column line can name. A raw type is written in the place of
the type instead. -/
def declarable : List Kind :=
  [.primaryKey, .defaultValue, .autoIncrement, .nullable, .reference, .action .delete,
    .action .update]

/-- The name of the kind, in clauses and in messages. -/
def name : Kind → String
  | .primaryKey => "id"
  | .autoIncrement => "auto_increment"
  | .nullable => "nullable"
  | .defaultValue => "default"
  | .reference => "reference"
  | .action .delete => "onDelete"
  | .action .update => "onUpdate"
  | .rawType => "raw"

/-- The kind that a clause of the name declares. -/
def ofName? (name : String) : Option Kind :=
  declarable.find? (·.name == name)

end Kind

end Attribute

end SchemaScript
