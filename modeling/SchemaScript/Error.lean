import SchemaScript.Token
import SchemaScript.Schema.Attribute

namespace SchemaScript

/-- What is wrong with a source text. -/
inductive Fault where
  | unexpected (text : String)
  | settingKeyExpected
  | unknownSetting (key : String)
  | settingValueExpected (key : String)
  | lineEndExpected
  | tableNameMissing
  | tableNameMalformed
  | tableDeclared (name : String)
  | endMissing
  | columnDeclared (name : String)
  | typeMissing
  | unterminatedString
  | unknownAttribute (name : String)
  | attributeRepeated (kind : Attribute.Kind)
  | noParameters (kind : Attribute.Kind)
  | oneParameter (kind : Attribute.Kind)
  | twoParameters (kind : Attribute.Kind)
  | stringExpected (kind : Attribute.Kind)
  | stringsExpected (kind : Attribute.Kind)
  | actionExpected (kind : Attribute.Kind)
  | noSuchTable (name : String)
  | noSuchColumn (name table : String)
  | referenceRequired (kind : Attribute.Kind)
deriving DecidableEq

/-- The fault as it is told to the author of the source text. -/
def Fault.message : Fault → String
  | .unexpected text => "Unexpected token '" ++ text ++ "'"
  | .settingKeyExpected => "Expected identifier after 'set'"
  | .unknownSetting key => "Unknown '" ++ key ++ "'"
  | .settingValueExpected key => "Expected value after '" ++ key ++ "'"
  | .lineEndExpected => "Expected end of line"
  | .tableNameMissing => "Missing '<Table Name>' after 'table'"
  | .tableNameMalformed => "'<Table Name>' must start with a letter or underscore"
  | .tableDeclared name => "Table with name '" ++ name ++ "' already declared"
  | .endMissing => "Missing 'end' keyword"
  | .columnDeclared name => "Column with name '" ++ name ++ "' already declared"
  | .typeMissing => "Missing data type after column name"
  | .unterminatedString => "Unterminated string"
  | .unknownAttribute name => "Unknown attribute @" ++ name
  | .attributeRepeated kind => "Duplicate attribute @" ++ kind.name
  | .noParameters kind => "@" ++ kind.name ++ " takes no parameters"
  | .oneParameter kind => "@" ++ kind.name ++ " takes one parameter"
  | .twoParameters kind => "@" ++ kind.name ++ " takes two parameters"
  | .stringExpected kind => "@" ++ kind.name ++ " Expected string value"
  | .stringsExpected kind => "@" ++ kind.name ++ " Expected string values"
  | .actionExpected kind =>
    "@" ++ kind.name ++ " expects one of " ++ ", ".intercalate (Action.all.map Action.name)
  | .noSuchTable name => "no such table '" ++ name ++ "'"
  | .noSuchColumn name table => "no such col '" ++ name ++ "' on table '" ++ table ++ "'"
  | .referenceRequired kind =>
    "To use the @" ++ kind.name ++
      " directive, you must first declare a reference using @reference"

/-- A fault and the place of the token that shows it. -/
structure ParseError where
  fault : Fault
  position : Position
deriving DecidableEq

/-- Why a schema cannot be generated. -/
inductive GenerationError where
  | unsupportedProvider (name : String)
  | noTables
  | badTableName (name : String)
  | noColumns (table : String)
  | badColumnName (name table : String)
  | unknownType (name : String)
  | emptyRawType (column : String)
  | missingRawType (column : String)
deriving DecidableEq

/-- The error as it is told to the author of the schema. -/
def GenerationError.message : GenerationError → String
  | .unsupportedProvider name => "Provider not supported: '" ++ name ++ "'"
  | .noTables => "No tables declared"
  | .badTableName name => "Bad name for table '" ++ name ++ "'"
  | .noColumns table => "No columns specified for table '" ++ table ++ "'"
  | .badColumnName name table => "Bad column name '" ++ name ++ "' for table '" ++ table ++ "'"
  | .unknownType name => "Invalid data type: " ++ name
  | .emptyRawType column => "Raw type for column '" ++ column ++ "' is empty"
  | .missingRawType column => "Expected raw attribute on column '" ++ column ++ "'"

/-- Why a source text cannot be compiled. -/
inductive CompileError where
  | parsing (error : ParseError)
  | generation (error : GenerationError)
deriving DecidableEq

namespace CompileError

/-- The line that reports a message about a place in the source. -/
def located (position : Position) (message : String) : String :=
  "Syntax Error:" ++ toString position.line ++ ":" ++ toString position.column ++ ": " ++ message

/-- The line that reports a message about the schema as a whole. -/
def unlocated (message : String) : String := "Error: " ++ message

/-- The message, without the place. -/
def message : CompileError → String
  | .parsing error => error.fault.message
  | .generation error => error.message

/-- The line that reports the error. -/
def text : CompileError → String
  | .parsing error => located error.position error.fault.message
  | .generation error => unlocated error.message

end CompileError

end SchemaScript
