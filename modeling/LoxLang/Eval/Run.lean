import LoxLang.Eval.Basic
/-!
# Runs of programs

A run carries out statements in the global scope, one after the other. It ends with the last one or
with the first error. The trace says how many statements there were and how the run ended, but not
that too many calls were in progress.
-/

namespace LoxLang

/-- What the machine leaves to a run: how deep a computation may go, and how many calls may be in
progress inside each other. -/
structure Room where
  depth : Nat
  calls : Nat

/-- The calls that may be in progress inside each other unless it is said otherwise. -/
def callLimit : Nat := 240

/-- A bound on the depth alone leaves the usual number of calls. -/
instance : Coe Nat Room := ⟨fun depth => ⟨depth, callLimit⟩⟩

/-- Carries out statements in the global scope; what a statement returns is dropped. -/
def Eval.execAll (room : Room) (program : List Node) : Eval Unit :=
  program.forM fun statement => do
    let _ ← Eval.exec room.depth room.calls State.globals statement
    pure ()

inductive RunEnd where
  | finished
  /-- The program failed with an error at a token. -/
  | failed (site : Token) (cause : Cause)
  | fault (f : Fault)
  /-- The trace could not be opened, and nothing was run. -/
  | untraceable
  /-- Too many calls were in progress, and none of them is known. -/
  | exhausted
  | outOfFuel

namespace State

/-- Adds a record to the trace of all but silent runs. -/
def note (record : String) (st : State) : State :=
  if 1 ≤ st.level then { st with trace := st.trace.write record } else st

/-- The end of a run that failed with an error: no call is in progress any more. -/
def failAt (site : Option Token) (cause : Cause) (st : State) : RunEnd × State :=
  let st := { st with calls := [] }
  match site with
  | none => (.fault .notToken, st)
  | some t =>
    if cause = .stackOverflow then (.failed t cause, st)
    else
      (.failed t cause,
        st.note ("runtime error at line " ++ toString t.line ++ ": " ++ cause.message))

def stopRun (stop : Stop) (st : State) : RunEnd × State :=
  match stop with
  | .error e => st.failAt e.site e.cause
  | .exhausted =>
    match st.calls with
    | [] => (.exhausted, st)
    | paren :: _ => st.failAt paren.token? .stackOverflow
  | .fault f => (.fault f, st)
  | .outOfFuel => (.outOfFuel, st)

/-- Whether a trace is asked for that cannot be written. -/
def isUntraceable (st : State) : Bool := 1 ≤ st.level && !st.trace.canOpen

def run (room : Room) (program : List Node) (st : State) : RunEnd × State :=
  if st.isUntraceable then (.untraceable, st)
  else
    let st := st.note ("run: " ++ toString program.length ++ " statement(s)")
    match Eval.execAll room program st with
    | .ok _ st => (.finished, st.note "run: finished")
    | .error stop st => st.stopRun stop

end State

end LoxLang
