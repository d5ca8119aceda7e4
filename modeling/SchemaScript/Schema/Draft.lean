import SchemaScript.Event
import SchemaScript.Schema.Clause
import SchemaScript.Token.Script

namespace SchemaScript

/-- What a schema that is being read expects next. The parts that are not
complete yet are kept here and not in the schema. -/
inductive Phase where
  | top
  | settingKey
  | settingValue (key : String)
  | settingEnd (key value : String)
  | tableName
  | tableEnd (name : String)
  | body (table : Table)
  | columnType (table : Table) (name : String)
  | line (table : Table) (column : Column)
  | clause (clause : Clause)
  | firstArgument (clause : Clause)
  | nextArgument (clause : Clause)
  | separator (clause : Clause) (last : Token)
deriving DecidableEq

/-- A schema that is being read token by token. -/
structure Draft where
  schema : Schema
  log : List Event
  phase : Phase
deriving DecidableEq

namespace Draft

/-- Nothing has been read. -/
def initial : Draft := ⟨.initial, [], .top⟩

/-- Goes on in another phase. -/
def enter (self : Draft) (phase : Phase) : Draft := { self with phase }

/-- A fault that is shown at a token. -/
def fail {α : Type} (fault : Fault) (shown : Token) : Except ParseError α :=
  .error ⟨fault, shown.position⟩

/-- A token that has no place where it stands. -/
def unexpected {α : Type} (token : Token) : Except ParseError α :=
  fail (.unexpected token.text) token

/-- Takes a setting over into the schema. -/
def configure (self : Draft) (key value : String) : Draft :=
  ⟨self.schema.configure key value, self.log ++ [.configured key value], .top⟩

/-- Takes a complete table over into the schema. -/
def closeTable (self : Draft) (table : Table) : Draft :=
  ⟨self.schema.addTable table,
    self.log ++ [.tableParsed table.name table.columns.length table.references.length], .top⟩

/-- Takes a complete column over into the open table. -/
def closeColumn (self : Draft) (table : Table) (column : Column) : Draft :=
  ⟨self.schema, self.log ++ [.columnParsed table.name column.name column.type],
    .body (table.addColumn column)⟩

/-- Between items, a line may be empty. -/
def atTop (self : Draft) (token : Token) : Except ParseError Draft :=
  match token.kind with
  | .eof | .eol => .ok self
  | .tableWord => .ok (self.enter .tableName)
  | .setWord => .ok (self.enter .settingKey)
  | _ => unexpected token

/-- The first word of a setting is one of the known keys. -/
def atSettingKey (self : Draft) (token : Token) : Except ParseError Draft :=
  if token.kind ≠ .identifier then fail .settingKeyExpected token
  else if token.literal ∉ Configuration.keys then fail (.unknownSetting token.literal) token
  else .ok (self.enter (.settingValue token.literal))

/-- A value is a string or a single word. -/
def atSettingValue (self : Draft) (key : String) (token : Token) : Except ParseError Draft :=
  match token.kind with
  | .identifier | .string => .ok (self.enter (.settingEnd key token.literal))
  | .eol | .eof => fail (.settingValueExpected key) token
  | _ => unexpected token

/-- A setting ends with its line or with the source. -/
def atSettingEnd (self : Draft) (key value : String) (token : Token) : Except ParseError Draft :=
  match token.kind with
  | .eol | .eof => .ok (self.configure key value)
  | _ => fail .lineEndExpected token

/-- A table has a name that no earlier table has. -/
def atTableName (self : Draft) (token : Token) : Except ParseError Draft :=
  match token.kind with
  | .identifier =>
    if (self.schema.table? token.literal).isSome then fail (.tableDeclared token.literal) token
    else .ok (self.enter (.tableEnd token.literal))
  | .eol | .eof => fail .tableNameMissing token
  | _ => fail .tableNameMalformed token

/-- Nothing stands on a line behind the name of its table. -/
def atTableEnd (self : Draft) (name : String) (token : Token) : Except ParseError Draft :=
  match token.kind with
  | .eol => .ok (self.enter (.body (.empty name)))
  | _ => fail .lineEndExpected token

/-- In the body of a table each line is a column, or empty, or ends the table. -/
def atBody (self : Draft) (table : Table) (token : Token) : Except ParseError Draft :=
  match token.kind with
  | .endWord => .ok (self.closeTable table)
  | .eol => .ok self
  | .eof | .tableWord => fail .endMissing token
  | .identifier =>
    if (table.column? token.literal).isSome then fail (.columnDeclared token.literal) token
    else .ok (self.enter (.columnType table token.literal))
  | _ => unexpected token

/-- A raw type leaves its literal as the first attribute of the column. -/
def atColumnType (self : Draft) (table : Table) (name : String) (token : Token) :
    Except ParseError Draft :=
  match token.kind with
  | .identifier => .ok (self.enter (.line table ⟨name, .named token.literal, []⟩))
  | .raw => .ok (self.enter (.line table ⟨name, .raw, [.rawType token.literal]⟩))
  | _ => fail .typeMissing token

/-- Behind the type of a column come its clauses, up to the end of the line. -/
def atLine (self : Draft) (table : Table) (column : Column) (token : Token) :
    Except ParseError Draft :=
  match token.kind with
  | .eol => .ok (self.closeColumn table column)
  | .eof => fail .endMissing token
  | .attributeName => .ok (self.enter (.clause ⟨table, column, token, []⟩))
  | _ => unexpected token

/-- Adds the attribute of a finished clause. Its faults are shown at its name. -/
def closeClause (self : Draft) (clause : Clause) : Except ParseError (Table × Column) :=
  match clause.attach self.schema with
  | .ok attached => .ok attached
  | .error fault => fail fault clause.name

/-- A clause ends before any token that does not open its arguments. -/
def atClause (self : Draft) (clause : Clause) (token : Token) : Except ParseError Draft :=
  if token.kind = .leftParen then .ok (self.enter (.firstArgument clause))
  else
    match self.closeClause clause with
    | .ok (table, column) => self.atLine table column token
    | .error e => .error e

/-- A clause whose arguments are closed. -/
def endArguments (self : Draft) (clause : Clause) : Except ParseError Draft :=
  match self.closeClause clause with
  | .ok (table, column) => .ok (self.enter (.line table column))
  | .error e => .error e

/-- An argument is a string or a raw literal. -/
def atArgument (self : Draft) (clause : Clause) (token : Token) : Except ParseError Draft :=
  match token.kind with
  | .string => .ok (self.enter (.separator (clause.addArgument (.text token.literal)) token))
  | .raw => .ok (self.enter (.separator (clause.addArgument (.raw token.literal)) token))
  | _ => unexpected token

/-- A clause may open its parentheses and have no argument in them. -/
def atFirstArgument (self : Draft) (clause : Clause) (token : Token) : Except ParseError Draft :=
  if token.kind = .rightParen then self.endArguments clause else self.atArgument clause token

/-- A string argument that the source ends with was most likely never closed. -/
def atSeparator (self : Draft) (clause : Clause) (last token : Token) : Except ParseError Draft :=
  match token.kind with
  | .rightParen => self.endArguments clause
  | .comma => .ok (self.enter (.nextArgument clause))
  | .eof => if last.kind = .string then fail .unterminatedString last else unexpected token
  | _ => unexpected token

/-- Reads one token. -/
def step (self : Draft) (token : Token) : Except ParseError Draft :=
  match self.phase with
  | .top => self.atTop token
  | .settingKey => self.atSettingKey token
  | .settingValue key => self.atSettingValue key token
  | .settingEnd key value => self.atSettingEnd key value token
  | .tableName => self.atTableName token
  | .tableEnd name => self.atTableEnd name token
  | .body table => self.atBody table token
  | .columnType table name => self.atColumnType table name token
  | .line table column => self.atLine table column token
  | .clause clause => self.atClause clause token
  | .firstArgument clause => self.atFirstArgument clause token
  | .nextArgument clause => self.atArgument clause token
  | .separator clause last => self.atSeparator clause last token

/-- Reads tokens up to the first fault. The end token is accepted only where the
schema is complete. -/
def run (self : Draft) : List Token → Report ParseError Schema
  | [] => ⟨self.log, .ok self.schema⟩
  | token :: rest =>
    match self.step token with
    | .ok next => next.run rest
    | .error e => ⟨self.log, .error e⟩

end Draft

namespace Schema

/-- Reads a schema from the tokens of a source text. -/
def ofScript (script : Script) : Report ParseError Schema := Draft.initial.run script.toList

/-- Reads a schema from a source text. -/
def parse (source : String) : Report ParseError Schema := ofScript (.ofText source)

end Schema

end SchemaScript
