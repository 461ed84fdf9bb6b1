import LoxLang.Eval.Run
import LoxLang.Proofs.Scope.History
/-!
# A watched evaluator

A second evaluator, which is watched: it writes down every state that a computation passes through,
with the calls around it and with what was asked of the scopes on the way there. Neither is read off
the state. The calls follow from where the computation stands: whatever runs as the body of a call
stands inside this call, and nothing else does. What is asked of the scopes follows from the step: a
block or a call opens a scope, a declaration or a parameter defines a name, an assignment assigns to
one, and no other step asks for anything.

The moments follow from a store if each of them has the store that the command on the way to it makes
of the one before.
-/

namespace LoxLang

variable {α β : Type}

/-! ### The watched evaluator -/

/-- A state that a run passes through. -/
structure Moment where
  /-- The closing parentheses of the calls around it, innermost first. -/
  inside : List Node
  /-- What was asked of the scopes on the way from the moment before. -/
  command : Option (Store.Command Value)
  state : State

structure Watched where
  state : State
  /-- What was written down so far, in order. -/
  moments : List Moment

/-- A watched computation, inside of given calls. -/
abbrev Watch := ReaderT (List Node) (EStateM Stop Watched)

namespace Watch

/-- A single step between two moments. It may ask something of the scopes, and it may lead into a call or out of one
unless it stops. -/
def crossing (before after : List Node) (command : Option (Store.Command Value)) (m : Eval α) :
    EStateM Stop Watched α := fun w =>
  match m w.state with
  | .ok a st => .ok a ⟨st, w.moments ++ [⟨before, none, w.state⟩, ⟨after, command, st⟩]⟩
  | .error stop st => .error stop ⟨st, w.moments ++ [⟨before, none, w.state⟩, ⟨before, command, st⟩]⟩

/-- A step that asks nothing of the scopes. -/
def step (m : Eval α) : Watch α := fun inside => crossing inside inside none m

def asking (command : Store.Command Value) (m : Eval α) : Watch α := fun inside => crossing inside inside (some command) m

def openScope (parent : ScopeId) : Watch ScopeId := asking (.child parent) (Eval.openScope parent)

def define (scope : ScopeId) (name : Name) (value : Value) : Watch Unit :=
  asking (.define scope name value) (Eval.define scope name value)

def assign (scope : ScopeId) (t : Token) (value : Value) : Watch Unit := do
  let name ← step (Eval.nameOf t)
  asking (.assign scope name value) (Eval.assign scope t value)

/-- A call: its body stands inside it. -/
def call (paren : Node) (body : Watch α) : Watch α := fun inside => do
  crossing inside (paren :: inside) none (Eval.enterCall paren)
  let a ← body (paren :: inside)
  crossing (paren :: inside) inside none Eval.leaveCall
  pure a

def untilReturn (run : Node → Watch (Option Value)) : List Node → Watch (Option Value)
  | [] => pure none
  | s :: rest => do
    match ← run s with
    | some value => pure (some value)
    | none => untilReturn run rest

def bindParams (scope : ScopeId) : List Node → List Value → Watch Unit
  | param :: params, value :: values => do
    let t ← step (Eval.needToken param)
    let name ← step (Eval.nameOf t)
    define scope name value
    bindParams scope params values
  | _, _ => pure ()

def callValue (invoke : Closure → List Value → Watch (Option Value)) (callee : Value) (arguments : List Value)
    (paren : Node) : Watch Value :=
  match Eval.arity? callee with
  | none => step (Eval.raise paren.token? .notCallable)
  | some expected =>
    if arguments.length ≠ expected then step (Eval.raise paren.token? (.arity expected arguments.length))
    else do
      step (Eval.traceAt 3 fun _ => Eval.callRecord callee arguments.length paren)
      call paren (match callee with
        | .function f => do
          let returned ← invoke f arguments
          pure (returned.getD .nil)
        | _ => step Eval.readClock)

mutual

/-- The value of an expression. -/
def eval : (fuel calls : Nat) → ScopeId → Node → Watch Value
  | 0, _, _, _ => step (throw .outOfFuel)
  | fuel + 1, calls, scope, node =>
    match node with
    | .literal value => step (pure (.ofNode value))
    | .grouping inner => eval fuel calls scope inner
    | .reference name => do
      let t ← step (Eval.needToken name)
      step (Eval.lookup scope t)
    | .assign name value => do
      let value ← eval fuel calls scope value
      let t ← step (Eval.needToken name)
      assign scope t value
      pure value
    | .logical left operator right => do
      let left ← eval fuel calls scope left
      let operator ← step (Eval.needToken operator)
      if (operator.kind == .kwOr) == left.truthy then pure left else eval fuel calls scope right
    | .unary operator right => do
      let right ← eval fuel calls scope right
      let t ← step (Eval.needToken operator)
      step (Eval.applyUnary t right)
    | .binary left operator right => do
      let left ← eval fuel calls scope left
      let right ← eval fuel calls scope right
      let t ← step (Eval.needToken operator)
      step (Eval.applyBinary t left right)
    | .call callee paren arguments => do
      let callee ← eval fuel calls scope callee
      let arguments ← arguments.mapM (eval fuel calls scope)
      callValue (invoke fuel calls) callee arguments paren
    | other => step (throw (.fault (.notExpression other.typeName)))
termination_by structural fuel => fuel

/-- Carries out a statement and answers with the value it returns, if it does. -/
def exec : (fuel calls : Nat) → ScopeId → Node → Watch (Option Value)
  | 0, _, _, _ => step (throw .outOfFuel)
  | fuel + 1, calls, scope, node =>
    match node with
    | .expression value => do
      let _ ← eval fuel calls scope value
      pure none
    | .print value => do
      let value ← eval fuel calls scope value
      let text ← step (Eval.orFault value.text)
      step (Eval.write (text ++ "\n"))
      pure none
    | .var name initial => do
      let value ← if initial.isAbsent then pure .nil else eval fuel calls scope initial
      let t ← step (Eval.needToken name)
      let x ← step (Eval.nameOf t)
      define scope x value
      step (Eval.traceAt 2 fun _ => do return "declare " ++ t.text ++ " = " ++ (← value.text))
      pure none
    | .block statements => do
      let inner ← openScope scope
      untilReturn (exec fuel calls inner) statements
    | .branch condition yes no => do
      let value ← eval fuel calls scope condition
      step (Eval.traceAt 3 fun _ => do
        return "if " ++ (← condition.source) ++ " -> " ++ (if value.truthy then "true" else "false"))
      if value.truthy then exec fuel calls scope yes
      else if no.isAbsent then pure none
      else exec fuel calls scope no
    | .loop condition body => do
      let value ← eval fuel calls scope condition
      if value.truthy then
        step (Eval.traceAt 3 fun _ => do return "while " ++ (← condition.source))
        match ← exec fuel calls scope body with
        | some value => pure (some value)
        | none => exec fuel calls scope (.loop condition body)
      else pure none
    | .function name params body => do
      let t ← step (Eval.needToken name)
      let x ← step (Eval.nameOf t)
      let f ← step (Eval.closure scope t.text params body)
      define scope x f
      step (Eval.traceAt 2 fun _ => .ok ("define function " ++ t.text ++ "/" ++ toString params.length))
      pure none
    | .ret _ value => do
      if value.isAbsent then step (pure (some .nil))
      else
        let value ← eval fuel calls scope value
        pure (some value)
    | other => step (throw (.fault (.notStatement other.typeName)))
termination_by structural fuel => fuel

/-- Runs the body of a function in a scope of its own, inside the scope of its declaration. -/
def invoke : (fuel calls : Nat) → Closure → List Value → Watch (Option Value)
  | 0, _, _, _ => step (throw .outOfFuel)
  | _ + 1, 0, _, _ => step (throw .exhausted)
  | fuel + 1, calls + 1, f, arguments => do
    let scope ← openScope f.scope
    bindParams scope f.params arguments
    untilReturn (exec fuel calls scope) f.body
termination_by structural fuel => fuel

end

/-- Carries out statements in the global scope. -/
def execAll (room : Room) (program : List Node) : Watch Unit :=
  program.forM fun statement => do
    let _ ← exec room.depth room.calls State.globals statement
    pure ()

/-! ### What was written down -/

/-- What was asked of the scopes on the way through moments. -/
def commandsOf (moments : List Moment) : List (Store.Command Value) := moments.flatMap fun m => m.command.toList

/-- Each moment has the store that the command on the way to it makes of the store before, where it is valid. -/
def FollowsFrom : Store Value → List Moment → Prop
  | _, [] => True
  | store, m :: rest => Store.Command.AllValid store m.command.toList ∧
      m.state.store = Store.Command.performAll store m.command.toList ∧ FollowsFrom m.state.store rest

/-- The state behind all that was written down from a given state on. -/
def lastState (st : State) (later : List Moment) : State := later.foldl (fun _ m => m.state) st

theorem lastState_append (st : State) (later more : List Moment) :
    lastState st (later ++ more) = lastState (lastState st later) more :=
  List.foldl_append

theorem followsFrom_append {st : State} {moments later : List Moment} :
    FollowsFrom st.store (moments ++ later) ↔
      FollowsFrom st.store moments ∧ FollowsFrom (lastState st moments).store later := by
  induction moments generalizing st with
  | nil => exact (iff_of_eq (true_and _)).symm
  | cons m rest ih =>
    constructor
    · rintro ⟨hvalid, hstore, hmore⟩
      obtain ⟨hrest, hlater⟩ := ih.mp hmore
      exact ⟨⟨hvalid, hstore, hrest⟩, hlater⟩
    · rintro ⟨⟨hvalid, hstore, hrest⟩, hlater⟩
      exact ⟨hvalid, hstore, ih.mpr ⟨hrest, hlater⟩⟩

/-- The commands lead to the last store. -/
theorem FollowsFrom.performs {st : State} {moments : List Moment} (h : FollowsFrom st.store moments) :
    Store.Command.AllValid st.store (commandsOf moments) ∧
    (lastState st moments).store = Store.Command.performAll st.store (commandsOf moments) := by
  induction moments generalizing st with
  | nil => exact ⟨trivial, rfl⟩
  | cons m rest ih =>
    obtain ⟨hvalid, hstore, hrest⟩ := h
    obtain ⟨hvalids, hlast⟩ := ih hrest
    rw [hstore] at hvalids hlast
    refine ⟨hvalid.append hvalids, ?_⟩
    show (lastState m.state rest).store = Store.Command.performAll st.store (m.command.toList ++ commandsOf rest)
    rw [Store.Command.performAll_append, hlast]

end Watch

end LoxLang
