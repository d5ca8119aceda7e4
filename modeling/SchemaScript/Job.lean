import SchemaScript.CommandLine
import SchemaScript.Compile
import SchemaScript.FileTree

namespace SchemaScript

/-- What a job needs of a file system: to find out what a path leads to, and to write a
file and find out whether that could be done. -/
structure FileSystem (m : Type → Type) where
  find? : String → m (Option Entry)
  write : String → ByteArray → m Bool

/-- A file tree as a file system. A file that cannot be written leaves it as it is. -/
def FileTree.system : FileSystem (StateM FileTree) where
  find? path := return (← get).find? path
  write path content := do
    match (← get).write? path content with
    | none => return false
    | some changed =>
      set changed
      return true

/-- Why a job fails. -/
inductive JobError where
  | missing (input : String)
  | unreadable (input : String)
  | compilation (error : CompileError)
  | unwritable (output : String)
deriving DecidableEq

/-- The error as it is told to the user. -/
def JobError.message : JobError → String
  | .missing input => "File '" ++ input ++ "' does not exist."
  | .unreadable input => "Error reading file '" ++ input ++ "'"
  | .compilation error => error.text
  | .unwritable output => "Error writing to file '" ++ output ++ "'"

namespace Options

/-- Compiles what has been read from the input. -/
def compile (self : Options) (content : ByteArray) : Report JobError String :=
  match String.fromUTF8? content with
  | none => ⟨[], .error (.unreadable self.input)⟩
  | some source =>
    let compiled := (SchemaScript.compile source).mapError JobError.compilation
    ⟨.compiling self.input source.utf8ByteSize :: compiled.log, compiled.outcome⟩

/-- The text to write, from what the input path leads to. -/
def prepare (self : Options) : Option Entry → Report JobError String
  | none => ⟨[], .error (.missing self.input)⟩
  | some .directory => ⟨[], .error (.unreadable self.input)⟩
  | some (.file content) => self.compile content

/-- Reads the input, compiles it and writes the output. Writing is the last step. -/
def runIn {m : Type → Type} [Monad m] (self : Options) (system : FileSystem m) :
    m (Report JobError Unit) := do
  let ⟨log, outcome⟩ := self.prepare (← system.find? self.input)
  match outcome with
  | .error e => return ⟨log, .error e⟩
  | .ok sql =>
    if ← system.write self.output sql.toUTF8 then
      return ⟨log ++ [.wrote sql.utf8ByteSize self.output], .ok ()⟩
    else
      return ⟨log, .error (.unwritable self.output)⟩

/-- Runs a job in a file tree. -/
def run (self : Options) (tree : FileTree) : FileTree × Report JobError Unit :=
  let (report, changed) := (self.runIn FileTree.system).run tree
  (changed, report)

end Options

end SchemaScript
