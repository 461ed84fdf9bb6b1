import LoxLang.Cli.Directory
import LoxLang.Cli.Options
import LoxLang.Document.Reader
import LoxLang.Document.Writer
import LoxLang.Json.Reader
import LoxLang.Json.Writer
import LoxLang.Session
import LoxLang.Text.Lines
/-!
# The command

What the command does with its arguments, the files they name and its standard input, as a function:
it answers with the texts it writes to both streams, the files it writes, and how it ended.

A script is run, or parsed and stored as a document, or a stored document is run; without any of them
the prompt reads lines from standard input.
-/

namespace LoxLang.Cli

/-! ### Fixed texts -/

def usage : String :=
  "usage: lox [-h] [-v] [--emit-ast LOX_FILE | --ast AST_JSON_FILE] [script]\n"

def helpText : String :=
  usage ++
  "\nLox language interpreter\n\n" ++
  "positional arguments:\n" ++
  "  script               Lox script (.lox) to execute; omit for a prompt\n\n" ++
  "options:\n" ++
  "  -h, --help           show this help message and exit\n" ++
  "  -v                   increase debug verbosity (can be repeated)\n" ++
  "  --emit-ast LOX_FILE  emit AST JSON for the given .lox file\n" ++
  "  --ast AST_JSON_FILE  execute AST from a JSON file\n"

/-- Where the trace goes. -/
def tracePath : Path := Path.ofString "debug.txt"

/-- What is added to the name of a script for the name of its document. -/
def documentSuffix : String := ".ast.json"

/-! ### Requests -/

inductive Request where
  | help
  | refuse (e : UsageError)
  | emit (path : Path)
  | runDocument (level : Nat) (path : Path)
  | runScript (level : Nat) (path : Path)
  | prompt (level : Nat)

/-- An empty text counts as no argument. -/
def given (argument : Option String) : Option String := argument.filter fun text => text ≠ ""

def Options.request (options : Options) : Request :=
  match given options.emitAst, given options.ast, given options.script with
  | some _, _, some _ | _, some _, some _ => .refuse .scriptCombined
  | some path, _, none => .emit (Path.ofString path)
  | none, some path, none => .runDocument options.verbosity (Path.ofString path)
  | none, none, some path => .runScript options.verbosity (Path.ofString path)
  | none, none, none => .prompt options.verbosity

def request (arguments : List String) : Request :=
  match Options.read arguments with
  | .ok options => options.request
  | .error .help => .help
  | .error (.error e) => .refuse e

/-! ### Outcomes -/

/-- What ends the command without an exit code. -/
inductive Failure where
  | isDirectory
  | nameTooLong
  | notUnicode
  | notJson
  | longInteger
  /-- A number of a document does not fit where it is needed. -/
  | overflow (e : DocumentError)
  | aborted (a : Abort)

inductive Ending where
  | exit (code : Nat)
  /-- The command line itself ended it. -/
  | exitByUsage (code : Nat)
  | failure (f : Failure)

structure Outcome where
  ending : Ending
  stdout : String
  stderr : String
  /-- The files written, in order. -/
  writes : List (Path × String)

namespace Outcome

def refused (e : UsageError) : Outcome :=
  ⟨.exitByUsage 64, "", usage ++ "lox: error: " ++ e.message ++ "\n", []⟩

def failed (f : Failure) : Outcome := ⟨.failure f, "", "", []⟩

def notFound (path : Path) : Outcome :=
  ⟨.exit 66, "", "Error: file " ++ path.toString ++ " not found\n", []⟩

end Outcome

def joinTexts (texts : Array String) : String := texts.foldl (· ++ ·) ""

/-- The outcome of a session that a computation ended, with the exit code it leads to. -/
def ofSession (exitCode : Session → Nat) (result : EStateM.Result Abort Session Unit) : Outcome :=
  let finish (s : Session) (ending : Ending) : Outcome :=
    ⟨ending, joinTexts s.state.output, joinTexts s.errors,
      (s.state.trace.text?.map fun text => (tracePath, text)).toList⟩
  match result with
  | .ok _ s => finish s (.exit (exitCode s))
  | .error a s => finish s (.failure (.aborted a))

/-! ### Carrying requests out -/

section

variable (room : Room) (clock : Nat → Number) (lookup : Path → Entry)

/-- Goes on with the text of a file, every line of it ended alike. -/
def withText (path : Path) (use : String → Outcome) : Outcome :=
  match lookup path with
  | .missing => .notFound path
  | .directory => .failed .isDirectory
  | .tooLong => .failed .nameTooLong
  | .file none => .failed .notUnicode
  | .file (some text) => use (String.ofList (Text.unifyNewlines text.toList))

def startSession (level : Nat) : Session :=
  Session.start level (lookup tracePath ≠ .directory) clock

def emit (path : Path) : Outcome :=
  withText lookup path fun source =>
    let parsed := parseProgram source
    let session := (startSession clock lookup 0).report parsed.diagnostics
    if session.hadError then ⟨.exit 65, "", joinTexts session.errors, []⟩
    else
      let target := path.extend documentSuffix
      match lookup target with
      | .directory => .failed .isDirectory
      | .tooLong => .failed .nameTooLong
      | .missing | .file _ =>
        ⟨.exit 0, target.toString ++ "\n", "",
          [(target, (Node.programToJson parsed.result).write)]⟩

/-- The outcome for a file that holds no program. Numbers that do not fit are not told apart from
faults of the command itself. -/
def refuseDocument (path : Path) (e : DocumentError) : Outcome :=
  match e with
  | .largeInteger | .lineInfinite => .failed (.overflow e)
  | e => ⟨.exit 65, "", "Error: invalid AST file " ++ path.toString ++ ": " ++ e.message ++ "\n", []⟩

def runDocument (level : Nat) (path : Path) : Outcome :=
  withText lookup path fun text =>
    match Json.read text with
    | .error .malformed => .failed .notJson
    | .error .longInteger => .failed .longInteger
    | .ok document =>
      match Node.programOfJson document with
      | .error e => refuseDocument path e
      | .ok program =>
        ofSession Session.exitCode (Act.execute room program (startSession clock lookup level))

def runScript (level : Nat) (path : Path) : Outcome :=
  withText lookup path fun source =>
    ofSession Session.exitCode (Act.run room source (startSession clock lookup level))

def runPrompt (level : Nat) (stdin : String) : Outcome :=
  ofSession (fun _ => 0) (Act.prompt room (Text.lines stdin) (startSession clock lookup level))

def perform (stdin : String) : Request → Outcome
  | .help => ⟨.exitByUsage 0, helpText, "", []⟩
  | .refuse e => .refused e
  | .emit path => emit clock lookup path
  | .runDocument level path => runDocument room clock lookup level path
  | .runScript level path => runScript room clock lookup level path
  | .prompt level => runPrompt room clock lookup level stdin

def command (arguments : List String) (stdin : String) : Outcome :=
  perform room clock lookup stdin (request arguments)

end

end LoxLang.Cli
