import LoxLang.Eval.Run
import LoxLang.Grammar.Program
/-!
# Sessions

A session keeps one state over any number of source texts, so what one text defines the next one can
use. It remembers whether a text was malformed or a run failed until it is reset. A malformed text is
not run.

A session goes on after every error of a program. It is aborted only by what is no error of a
program: a fault of a stored tree, a trace that cannot be written, or a bound of this machine.
-/

namespace LoxLang

inductive Abort where
  | fault (f : Fault)
  | untraceable
  | exhausted
  | outOfFuel

structure Session where
  state : State
  hadError : Bool
  hadRuntimeError : Bool
  /-- The texts reported so far. -/
  errors : Array String

/-- A computation on a session that may abort it. -/
abbrev Act := EStateM Abort Session

namespace Session

def start (level : Nat) (canTrace : Bool) (clock : Nat → Number) : Session where
  state := State.initial level canTrace clock
  hadError := false
  hadRuntimeError := false
  errors := #[]

def writeError (line : String) (s : Session) : Session :=
  { s with errors := s.errors.push (line ++ "\n") }

def writeOutput (text : String) (s : Session) : Session :=
  { s with state := { s.state with output := s.state.output.push text } }

def report (diagnostics : List Diagnostic) (s : Session) : Session :=
  diagnostics.foldl (fun s d => { s.writeError d.text with hadError := true }) s

def reportFailure (site : Token) (cause : Cause) (s : Session) : Session :=
  { s.writeError (cause.message ++ "\n[line " ++ toString site.line ++ "]") with
    hadRuntimeError := true }

/-- The exit code of a session: a malformed text counts before a failed run. -/
def exitCode (s : Session) : Nat :=
  if s.hadError then 65 else if s.hadRuntimeError then 70 else 0

def reset (s : Session) : Session := { s with hadError := false, hadRuntimeError := false }

/-- Closes the trace; the next record starts it anew. -/
def close (s : Session) : Session :=
  { s with state := { s.state with trace := s.state.trace.close } }

end Session

namespace Act

/-- The statements of a source text, with everything wrong about it reported. -/
def parse (source : String) : Act (List Node) :=
  let parsed := parseProgram source
  modifyGet fun s => (parsed.result, s.report parsed.diagnostics)

/-- Runs statements and reports the error they end with. -/
def execute (room : Room) (program : List Node) : Act Unit := do
  let ending ← modifyGet fun s =>
    let (ending, state) := s.state.run room program
    (ending, { s with state := state })
  match ending with
  | .finished => pure ()
  | .failed site cause => modify (Session.reportFailure site cause)
  | .fault f => throw (.fault f)
  | .untraceable => throw .untraceable
  | .exhausted => throw .exhausted
  | .outOfFuel => throw .outOfFuel

/-- Runs a source text, unless something is wrong with it or was before. -/
def run (room : Room) (source : String) : Act Unit := do
  let program ← parse source
  if (← get).hadError then pure () else execute room program

/-- What the prompt writes before it reads a line. -/
def promptMark : String := "> "

/-- Runs one line of the prompt; a mistake on it does not count for the next one. -/
def promptLine (room : Room) (line : String) : Act Unit := do
  modify (Session.writeOutput promptMark)
  run room line
  modify Session.reset

def prompt (room : Room) (lines : List String) : Act Unit := do
  lines.forM (promptLine room)
  modify (Session.writeOutput promptMark)

end Act

end LoxLang
