import LoxLang.Cli.Command
/-!
# The program

Reads files and lines, hands them to the command and writes what it answers. Everything that is
decided is decided in `LoxLang.Cli.Command`; only the prompt is taken line by line here, so that it
answers before the next line is typed.
-/

namespace LoxLang.Main

open Cli

/-- Deeper than any computation this machine can hold. -/
def room : Room := ⟨Nat.pow 2 62, callLimit⟩

/-- Readings of the clock in seconds: they start at the given time and are a microsecond apart. -/
def clockFrom (nanoseconds : Nat) (n : Nat) : Number :=
  Number.ofRatio (nanoseconds + 1000 * n) 1000000000

/-- The error code for reading a directory as a file. -/
def directoryCode : UInt32 := 21

/-- The error code for a name that is too long. -/
def longNameCode : UInt32 := 36

def entryOf (path : Path) : IO Entry := do
  try
    return .file (String.fromUTF8? (← IO.FS.readBinFile path.toString))
  catch e =>
    match e with
    | .inappropriateType _ code _ => return if code = directoryCode then .directory else .missing
    | .invalidArgument _ code _ => return if code = longNameCode then .tooLong else .missing
    | _ => return .missing

/-- The paths that a request may look at. -/
def pathsOf : Request → List Path
  | .emit path => [path, path.extend documentSuffix]
  | .runDocument _ path | .runScript _ path => [path, tracePath]
  | .prompt _ => [tracePath]
  | .help | .refuse _ => []

def writeFiles (writes : List (Path × String)) : IO Unit :=
  writes.forM fun (path, text) => IO.FS.writeFile path.toString text

def describeFailure : Failure → String
  | .isDirectory => "is a directory"
  | .nameTooLong => "name is too long"
  | .notUnicode => "file is not UTF-8"
  | .notJson => "file is not JSON"
  | .longInteger => "integer has too many digits"
  | .overflow e => e.message
  | .aborted (.fault f) => f.message?.getD "a token was expected"
  | .aborted .untraceable => "trace is a directory"
  | .aborted .exhausted | .aborted .outOfFuel => "out of depth"

/-- Writes the streams of an outcome and gives its exit code. -/
def finish (outcome : Outcome) : IO UInt32 := do
  writeFiles outcome.writes
  IO.print outcome.stdout
  IO.eprint outcome.stderr
  match outcome.ending with
  | .exit code | .exitByUsage code => return UInt32.ofNat code
  | .failure f =>
    IO.eprintln (describeFailure f)
    return 1

/-- The session with its streams written out. -/
def drain (s : Session) : IO Session := do
  IO.print (joinTexts s.state.output)
  IO.eprint (joinTexts s.errors)
  writeFiles (s.state.trace.text?.map fun text => (tracePath, text)).toList
  return { s with state := { s.state with output := #[] }, errors := #[] }

/-- The prompt, one line at a time. -/
partial def promptLoop (s : Session) : IO UInt32 := do
  IO.print Act.promptMark
  (← IO.getStdout).flush
  let line ← (← IO.getStdin).getLine
  if line.isEmpty then return 0
  match Act.run room ((Text.lines line).headD "") s with
  | .ok _ s => promptLoop (← drain s.reset)
  | .error a s =>
    let _ ← drain s
    IO.eprintln (describeFailure (.aborted a))
    return 1

def run (arguments : List String) : IO UInt32 := do
  let clock := clockFrom (← IO.monoNanosNow)
  let asked := request arguments
  let entries ← (pathsOf asked).mapM fun path => do return (path, ← entryOf path)
  let lookup (path : Path) : Entry := (entries.lookup path).getD .missing
  match asked with
  | .prompt level => promptLoop (startSession clock lookup level)
  | asked => finish (perform room clock lookup "" asked)

end LoxLang.Main

def main (arguments : List String) : IO UInt32 := LoxLang.Main.run arguments
