import LoxLang.Eval.Operators
/-!
# Evaluation

`Eval.eval` gives the value of an expression and `Eval.exec` carries out a statement, both in a scope
that is passed along, so leaving a block by whatever way needs no cleaning up. A statement answers
with the value of a `return` it has met; every statement that contains others hands such an answer on
at once, and the call around it takes it as its result.

Both run within a bound on the depth of the computation and, apart from it, within a number of calls
that may be in progress inside each other. Meeting the first bound says nothing about the program;
meeting the second is an error of the program.
-/

namespace LoxLang.Eval

/-- Runs statements one after the other up to the first that returns. -/
def untilReturn (step : Node → Eval (Option Value)) : List Node → Eval (Option Value)
  | [] => pure none
  | s :: rest => do
    match ← step s with
    | some value => pure (some value)
    | none => untilReturn step rest

def bindParams (scope : ScopeId) : List Node → List Value → Eval Unit
  | param :: params, value :: values => do
    let t ← needToken param
    let name ← nameOf t
    define scope name value
    bindParams scope params values
  | _, _ => pure ()

/-- The number of arguments a value takes, if it can be called. -/
def arity? : Value → Option Nat
  | .function f => some f.params.length
  | .clock => some 0
  | _ => none

def callRecord (callee : Value) (given : Nat) (paren : Node) : Except Fault String := do
  let callee ← callee.text
  let paren ← paren.needToken
  return "call " ++ callee ++ " with " ++ toString given ++ " argument(s) at line " ++
    toString paren.line

/-- Calls a value: the callee and the number of arguments are checked, the call is recorded and
counted as in progress, and `invoke` runs the body of a function. -/
def callValue (invoke : Closure → List Value → Eval (Option Value)) (callee : Value)
    (arguments : List Value) (paren : Node) : Eval Value := do
  match arity? callee with
  | none => raise paren.token? .notCallable
  | some expected =>
    if arguments.length ≠ expected then raise paren.token? (.arity expected arguments.length)
    else
      traceAt 3 fun _ => callRecord callee arguments.length paren
      enterCall paren
      let result ← match callee with
        | .function f => do
          let returned ← invoke f arguments
          pure (returned.getD .nil)
        | _ => readClock
      leaveCall
      pure result

mutual

/-- The value of an expression. -/
def eval : (fuel calls : Nat) → ScopeId → Node → Eval Value
  | 0, _, _, _ => throw .outOfFuel
  | fuel + 1, calls, scope, node =>
    match node with
    | .literal value => pure (.ofNode value)
    | .grouping inner => eval fuel calls scope inner
    | .reference name => do lookup scope (← needToken name)
    | .assign name value => do
      let value ← eval fuel calls scope value
      assign scope (← needToken name) value
      pure value
    | .logical left operator right => do
      let left ← eval fuel calls scope left
      let operator ← needToken operator
      if (operator.kind == .kwOr) == left.truthy then pure left else eval fuel calls scope right
    | .unary operator right => do
      let right ← eval fuel calls scope right
      applyUnary (← needToken operator) right
    | .binary left operator right => do
      let left ← eval fuel calls scope left
      let right ← eval fuel calls scope right
      applyBinary (← needToken operator) left right
    | .call callee paren arguments => do
      let callee ← eval fuel calls scope callee
      let arguments ← arguments.mapM (eval fuel calls scope)
      callValue (invoke fuel calls) callee arguments paren
    | other => throw (.fault (.notExpression other.typeName))
termination_by structural fuel => fuel

/-- Carries out a statement and answers with the value it returns, if it does. -/
def exec : (fuel calls : Nat) → ScopeId → Node → Eval (Option Value)
  | 0, _, _, _ => throw .outOfFuel
  | fuel + 1, calls, scope, node =>
    match node with
    | .expression value => do
      let _ ← eval fuel calls scope value
      pure none
    | .print value => do
      let value ← eval fuel calls scope value
      write ((← orFault value.text) ++ "\n")
      pure none
    | .var name initial => do
      let value ← if initial.isAbsent then pure .nil else eval fuel calls scope initial
      let t ← needToken name
      define scope (← nameOf t) value
      traceAt 2 fun _ => do return "declare " ++ t.text ++ " = " ++ (← value.text)
      pure none
    | .block statements => do
      let inner ← openScope scope
      untilReturn (exec fuel calls inner) statements
    | .branch condition yes no => do
      let value ← eval fuel calls scope condition
      traceAt 3 fun _ => do
        return "if " ++ (← condition.source) ++ " -> " ++ (if value.truthy then "true" else "false")
      if value.truthy then exec fuel calls scope yes
      else if no.isAbsent then pure none
      else exec fuel calls scope no
    | .loop condition body => do
      let value ← eval fuel calls scope condition
      if value.truthy then
        traceAt 3 fun _ => do return "while " ++ (← condition.source)
        match ← exec fuel calls scope body with
        | some value => pure (some value)
        | none => exec fuel calls scope (.loop condition body)
      else pure none
    | .function name params body => do
      let t ← needToken name
      define scope (← nameOf t) (← closure scope t.text params body)
      traceAt 2 fun _ => .ok ("define function " ++ t.text ++ "/" ++ toString params.length)
      pure none
    | .ret _ value => do
      if value.isAbsent then pure (some .nil)
      else
        let value ← eval fuel calls scope value
        pure (some value)
    | other => throw (.fault (.notStatement other.typeName))
termination_by structural fuel => fuel

/-- Runs the body of a function in a scope of its own, inside the scope of its declaration. -/
def invoke : (fuel calls : Nat) → Closure → List Value → Eval (Option Value)
  | 0, _, _, _ => throw .outOfFuel
  | _ + 1, 0, _, _ => throw .exhausted
  | fuel + 1, calls + 1, f, arguments => do
    let scope ← openScope f.scope
    bindParams scope f.params arguments
    untilReturn (exec fuel calls scope) f.body
termination_by structural fuel => fuel

end

end LoxLang.Eval
