namespace SchemaScript

/-- What a command line asks for. -/
structure Options where
  input : String
  output : String
  verbose : Bool
deriving DecidableEq

/-- Where the SQL text goes unless the command line says otherwise. -/
def Options.defaultOutput : String := "schema.sql"

/-- Why a command line gives no options. Asking for help or for the version is
no mistake, but there is nothing to do then. -/
inductive UsageError where
  | help
  | version
  | unknownArgument
  | repeated
  | invalidValue
  | tooManyValues
  | missingInput
deriving DecidableEq

/-- The exit code of a program that ends with the error. -/
def UsageError.exitCode : UsageError → Nat
  | .help | .version => 0
  | _ => 2

namespace CommandLine

/-- The shape of an argument, before its flags are looked up. -/
inductive Shape where
  | separator
  | long (name : String) (value : Option String)
  | short (flags : List Char)
  | plain
deriving DecidableEq

/-- A hyphen by itself is a plain argument. -/
def Shape.ofChars : List Char → Shape
  | ['-', '-'] => .separator
  | '-' :: '-' :: text =>
    .long (String.ofList (text.takeWhile (· != '=')))
      (match text.dropWhile (· != '=') with
      | [] => none
      | _ :: value => some (String.ofList value))
  | '-' :: flag :: flags => .short (flag :: flags)
  | _ => .plain

/-- A value that has been read but not been checked yet. -/
inductive Pending where
  | input (value : String)
  | output (value : Option String)
deriving DecidableEq

/-- A command line that is being read. A value stays pending until the next
argument that is known, or the end. -/
structure Reading where
  input : Option String
  output : Option String
  verbose : Bool
  pending : Option Pending
deriving DecidableEq

namespace Reading

/-- Nothing has been read. -/
def initial : Reading := ⟨none, none, false, none⟩

/-- Something has been given as the input, checked or not. -/
def hasInput (self : Reading) : Bool :=
  self.input.isSome || (self.pending matches some (.input _))

/-- A missing value is noticed before a repeated option, and that before an
empty value. -/
def setOutput (self : Reading) : Option String → Except UsageError Reading
  | none => .error .invalidValue
  | some value =>
    if self.output.isSome then .error .repeated
    else if value = "" then .error .invalidValue
    else .ok { self with output := some value, pending := none }

/-- An input must not be empty. -/
def setInput (self : Reading) (value : String) : Except UsageError Reading :=
  if value = "" then .error .invalidValue
  else .ok { self with input := some value, pending := none }

/-- Checks the pending value. -/
def settle (self : Reading) : Except UsageError Reading :=
  match self.pending with
  | none => .ok self
  | some (.input value) => self.setInput value
  | some (.output value) => self.setOutput value

/-- The flag must not be repeated. -/
def setVerbose (self : Reading) : Except UsageError Reading :=
  if self.verbose then .error .repeated else .ok { self with verbose := true }

/-- The output is the next argument. -/
def awaitOutput (self : Reading) : Reading := { self with pending := some (.output none) }

/-- A flag with a long name, and the value after its equals sign. -/
def long (self : Reading) : String → Option String → Except UsageError Reading
  | "output", none => return (← self.settle).awaitOutput
  | "output", some value => do (← self.settle).setOutput (some value)
  | "verbose", none => do (← self.settle).setVerbose
  | "help", none => do
    let _ ← self.settle
    .error .help
  | "version", none => do
    let _ ← self.settle
    .error .version
  | "verbose", some _ | "help", some _ | "version", some _ => .error .tooManyValues
  | _, _ => .error .unknownArgument

/-- A cluster of short flags. What follows the output flag in the cluster is its
value, after an optional equals sign. -/
def short (self : Reading) : List Char → Except UsageError Reading
  | [] => .ok self
  | 'v' :: flags => do (← (← self.settle).setVerbose).short flags
  | 'h' :: _ => do
    let _ ← self.settle
    .error .help
  | 'V' :: _ => do
    let _ ← self.settle
    .error .version
  | ['o'] => return (← self.settle).awaitOutput
  | 'o' :: '=' :: value => do (← self.settle).setOutput (some (String.ofList value))
  | 'o' :: value => do (← self.settle).setOutput (some (String.ofList value))
  | _ => .error .unknownArgument

/-- An argument that is no flag and no value of a flag. -/
def positional (self : Reading) (value : String) : Except UsageError Reading := do
  if self.hasInput then .error .unknownArgument
  else return { ← self.settle with pending := some (.input value) }

/-- A plain argument is the value of the output flag before it, if there is
one. -/
def plain (self : Reading) (value : String) : Except UsageError Reading :=
  match self.pending with
  | some (.output none) => .ok { self with pending := some (.output (some value)) }
  | _ => self.positional value

/-- Reads the arguments. After a separator all of them are positional. -/
def read (self : Reading) : List String → Except UsageError Reading
  | [] => self.settle
  | argument :: rest =>
    match Shape.ofChars argument.toList with
    | .separator => do (← rest.foldlM positional self).settle
    | .long name value => do (← self.long name value).read rest
    | .short flags => do (← self.short flags).read rest
    | .plain => do (← self.plain argument).read rest

end Reading

end CommandLine

/-- The options that the arguments of a command line stand for. -/
def Options.parse (arguments : List String) : Except UsageError Options := do
  let reading ← CommandLine.Reading.initial.read arguments
  match reading.input with
  | none => .error .missingInput
  | some input => return ⟨input, reading.output.getD defaultOutput, reading.verbose⟩

end SchemaScript
