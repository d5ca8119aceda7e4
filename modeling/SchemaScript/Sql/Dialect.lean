namespace SchemaScript

/-- The SQL dialects that can be generated. -/
inductive Dialect where
  | sqlite
deriving DecidableEq

namespace Dialect

/-- The dialect that a provider stands for. -/
def ofName? (name : String) : Option Dialect :=
  if name = "sqlite" then some .sqlite else none

/-- The logical types of a dialect, each with its SQL type. -/
def types : Dialect → List (String × String)
  | .sqlite =>
    [("int", "INTEGER"), ("integer", "INTEGER"), ("string", "TEXT"), ("boolean", "NUMERIC"),
      ("bool", "NUMERIC"), ("datetime", "NUMERIC"), ("float", "REAL"), ("blob", "BLOB")]

/-- The SQL type of a logical type. -/
def sqlType? (self : Dialect) (name : String) : Option String := self.types.lookup name

end Dialect

end SchemaScript
