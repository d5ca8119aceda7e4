import SchemaScript.Schema.Basic

namespace SchemaScript

/-- A step of the work that the log tells about. -/
inductive Event where
  | configured (key value : String)
  | columnParsed (table column : String) (type : DataType)
  | tableParsed (name : String) (columns references : Nat)
  | statementGenerated (table : String)
  | compiling (input : String) (bytes : Nat)
  | wrote (bytes : Nat) (output : String)
deriving DecidableEq

/-- How much an event matters to those who follow the log. -/
inductive Event.Level where
  | info
  | debug
deriving DecidableEq

namespace Event

/-- Tables and files are told about at the higher level. -/
def level : Event → Level
  | .configured .. | .columnParsed .. | .statementGenerated .. => .debug
  | .tableParsed .. | .compiling .. | .wrote .. => .info

/-- The event as it is shown in the log. -/
def message : Event → String
  | .configured key value => "Configuration " ++ key ++ " = " ++ value
  | .columnParsed table column type =>
    "Parsed column '" ++ table ++ "." ++ column ++ "' of type " ++ type.text
  | .tableParsed name columns references =>
    "Parsed table '" ++ name ++ "' (" ++ toString columns ++ " columns, " ++
      toString references ++ " references)"
  | .statementGenerated table => "Generated statement for table '" ++ table ++ "'"
  | .compiling input bytes => "Compiling " ++ input ++ " (" ++ toString bytes ++ " bytes)"
  | .wrote bytes output => "Wrote " ++ toString bytes ++ " bytes to " ++ output

end Event

/-- The outcome of some work and the log of it, which is kept also when the work
fails. -/
structure Report (ε α : Type) where
  log : List Event
  outcome : Except ε α

namespace Report

variable {ε δ α β : Type}

/-- Work that goes on with the result of earlier work. -/
def bind (self : Report ε α) (next : α → Report ε β) : Report ε β :=
  match self.outcome with
  | .ok value =>
    let later := next value
    ⟨self.log ++ later.log, later.outcome⟩
  | .error e => ⟨self.log, .error e⟩

/-- The same work with its errors seen as other errors. -/
def mapError (self : Report ε α) (f : ε → δ) : Report δ α := ⟨self.log, self.outcome.mapError f⟩

end Report

end SchemaScript
