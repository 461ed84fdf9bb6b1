import LoxLang.Value
/-!
# The state of a run

What a program can change and what it leaves behind: its scopes, the text it has printed, the trace,
and the calls in progress. Readings of the clock are given from outside as a sequence, and each
reading takes the next one.

A computation stops early for one of four reasons, which are kept apart: an error of the program, too
many calls inside each other, a fault of the tree, and running out of the bound that makes every
computation finite.
-/

namespace LoxLang

/-! ### Errors -/

inductive Cause where
  | operandNotNumber
  | operandsNotNumbers
  | operandsNotAddable
  | undefined (name : String)
  | notCallable
  | arity (expected given : Nat)
  | unknownUnary (lexeme : String)
  | unknownBinary (lexeme : String)
  | stackOverflow
deriving DecidableEq, Repr

def Cause.pieces : Cause → List String
  | .operandNotNumber => ["Operand must be a number."]
  | .operandsNotNumbers => ["Operands must be numbers."]
  | .operandsNotAddable => ["Operands must be two numbers or two strings."]
  | .undefined name => ["Undefined variable '", name, "'."]
  | .notCallable => ["Can only call functions and classes."]
  | .arity expected given =>
    ["Expected ", toString expected, " arguments but got ", toString given, "."]
  | .unknownUnary lexeme => ["Unknown unary operator '", lexeme, "'."]
  | .unknownBinary lexeme => ["Unknown operator '", lexeme, "'."]
  | .stackOverflow => ["Stack overflow."]

def Cause.message (c : Cause) : String := String.join c.pieces

/-- An error of a running program. Its site is missing only if a stored call has something else in
the place of its closing parenthesis. -/
structure RuntimeError where
  site : Option Token
  cause : Cause

inductive Stop where
  | error (e : RuntimeError)
  /-- Too many calls are in progress. -/
  | exhausted
  | fault (f : Fault)
  | outOfFuel

/-! ### The trace -/

/-- The trace file. The first record after opening replaces what was there. -/
structure Trace where
  /-- The records in the file, if it was ever written. -/
  records : Option (Array String)
  isOpen : Bool
  /-- Whether the file can be opened at all. -/
  canOpen : Bool

namespace Trace

/-- A file that was never written. -/
def unwritten (canOpen : Bool) : Trace := ⟨none, false, canOpen⟩

def write (trace : Trace) (record : String) : Trace :=
  if trace.isOpen then { trace with records := some ((trace.records.getD #[]).push record) }
  else { trace with records := some #[record], isOpen := true }

def close (trace : Trace) : Trace := { trace with isOpen := false }

def text? (trace : Trace) : Option String :=
  trace.records.map fun records => records.foldl (fun text record => text ++ record ++ "\n") ""

end Trace

/-! ### The state -/

structure State where
  store : Store Value
  /-- The number of the next function. -/
  nextId : Nat
  output : Array String
  /-- How much is traced. -/
  level : Nat
  trace : Trace
  /-- The closing parentheses of the calls in progress, innermost first. -/
  calls : List Node
  /-- Every reading of the clock, in order. -/
  clock : Nat → Number
  /-- How many readings were taken. -/
  readings : Nat

namespace State

def globals : ScopeId := 0

/-- The state before anything has run: the clock is the only global. -/
def initial (level : Nat) (canTrace : Bool) (clock : Nat → Number) : State where
  store := Store.root.define globals "clock" .clock
  nextId := 0
  output := #[]
  level := level
  trace := Trace.unwritten canTrace
  calls := []
  clock := clock
  readings := 0

end State

/-! ### Computations -/

/-- A computation on the state that may stop early. -/
abbrev Eval := EStateM Stop State

namespace Eval

variable {α : Type}

def raise (site : Option Token) (cause : Cause) : Eval α := throw (.error ⟨site, cause⟩)

/-- A result that a fault may take the place of. -/
def orFault : Except Fault α → Eval α
  | .ok a => pure a
  | .error f => throw (.fault f)

def needToken (n : Node) : Eval Token := orFault n.needToken

/-- The name that a token stands for. -/
def nameOf (t : Token) : Eval Name :=
  match t.lexeme.name? with
  | some name => pure name
  | none => throw (.fault .notName)

/-- Writes a record if the level asks for it; the record is not worked out otherwise. -/
def traceAt (level : Nat) (record : Unit → Except Fault String) : Eval Unit := do
  if level ≤ (← get).level then
    let record ← orFault (record ())
    modify fun st => { st with trace := st.trace.write record }
  else pure ()

def write (text : String) : Eval Unit :=
  modify fun st => { st with output := st.output.push text }

/-! ### Scopes and calls -/

def openScope (parent : ScopeId) : Eval ScopeId :=
  modifyGet fun st => (st.store.next, { st with store := st.store.child parent })

def define (scope : ScopeId) (name : Name) (value : Value) : Eval Unit :=
  modify fun st => { st with store := st.store.define scope name value }

def lookup (scope : ScopeId) (t : Token) : Eval Value := do
  let name ← nameOf t
  match (← get).store.get? scope name with
  | some value => pure value
  | none => raise t (.undefined t.text)

def assign (scope : ScopeId) (t : Token) (value : Value) : Eval Unit := do
  let name ← nameOf t
  match (← get).store.resolve? scope name with
  | some target => define target name value
  | none => raise t (.undefined t.text)

def closure (scope : ScopeId) (name : String) (params body : List Node) : Eval Value :=
  modifyGet fun st =>
    (.function ⟨st.nextId, name, params, body, scope⟩, { st with nextId := st.nextId + 1 })

def enterCall (paren : Node) : Eval Unit :=
  modify fun st => { st with calls := paren :: st.calls }

def leaveCall : Eval Unit := modify fun st => { st with calls := st.calls.tail }

def readClock : Eval Value :=
  modifyGet fun st => (.num (st.clock st.readings), { st with readings := st.readings + 1 })

end Eval

end LoxLang
