import SchemaScript.Job

namespace SchemaScript

/-- The answer to a request for help. -/
def usage : String :=
  "Compile a schema definition into CREATE TABLE statements\n\n" ++
    "Usage: schemascript [OPTIONS] <INPUT>\n\n" ++
    "Options:\n" ++
    "  -o, --output <OUTPUT>  Where to write the generated SQL [default: " ++
    Options.defaultOutput ++ "]\n" ++
    "  -v, --verbose          Show what is done\n" ++
    "  -h, --help             Print help\n" ++
    "  -V, --version          Print version"

/-- The error as it is told to the user. -/
def UsageError.message : UsageError → String
  | .help => usage
  | .version => "schemascript 0.1.0"
  | .unknownArgument => "error: unexpected argument found"
  | .repeated => "error: an option cannot be used multiple times"
  | .invalidValue => "error: a value is required but none was supplied"
  | .tooManyValues => "error: unexpected value found"
  | .missingInput => "error: the input was not provided"

/-- The files of the machine. What exists and cannot be read counts as a directory. -/
def disk : FileSystem IO where
  find? path := do
    match ← (IO.FS.readBinFile path).toBaseIO with
    | .error (.noFileOrDirectory ..) => return none
    | .error _ => return some .directory
    | .ok content => return some (.file content)
  write path content := do
    match ← (IO.FS.writeBinFile path content).toBaseIO with
    | .error _ => return false
    | .ok _ => return true

/-- Shows a log, one line for each event. -/
def showLog (log : List Event) : IO Unit := do
  for event in log do
    let level := match event.level with
      | .info => "INFO"
      | .debug => "DEBUG"
    IO.eprintln (level ++ " " ++ event.message)

/-- Runs a job and gives the exit code. -/
def runFiles (options : Options) : IO UInt32 := do
  let report ← options.runIn disk
  if options.verbose then showLog report.log
  match report.outcome with
  | .ok _ => return 0
  | .error e =>
    IO.eprintln ("Error: " ++ e.message)
    return 1

end SchemaScript

open SchemaScript in
/-- Runs the job that a command line asks for, unless that is for help or for nothing known. -/
def main (arguments : List String) : IO UInt32 := do
  match Options.parse arguments with
  | .ok options => runFiles options
  | .error e =>
    if e.exitCode = 0 then IO.println e.message else IO.eprintln e.message
    return e.exitCode.toUInt32
