import LoxLang.Proofs.Eval.Steady
/-!
# Returning as a way out

A second semantics of statements, in which `return` does not answer with a value but leaves at once:
what surrounds it is abandoned, block by block and loop by loop, up to the call whose body it stands
in, and the call takes the value. Statements do not know about each other's returns here: a block
runs its statements one after the other, a loop runs its body again and again, and neither looks at
what comes back. A body that comes to its end gives `nil`.

Calls are this semantics' own too. A call looks at what it is given, catches what leaves the body, and
puts back the calls in progress as it found them; it does not count on the body for that.

Both semantics agree in everything: the value of a call, the whole state it leaves, and the way it
stops early, for every bound on its depth. `AgreesWithin` says so of all evaluators at once.
-/

namespace LoxLang

/-- How statements are left early: because the computation stops, or with a value on its way to the call. -/
inductive Exit where
  | stop (s : Stop)
  | returned (value : Value)

/-- A computation that may be left early in either way. -/
abbrev Unwind := EStateM Exit State

namespace Unwind

variable {α β : Type}

/-- A computation without statements of its own: it never returns. -/
def lift (m : Eval α) : Unwind α := fun st =>
  match m st with
  | .ok a st => .ok a st
  | .error s st => .error (.stop s) st

/-- Runs a body up to its end, which gives `nil`, or up to what it returns. -/
def catchReturn (body : Unwind Unit) : Eval Value := fun st =>
  match body st with
  | .ok _ st => .ok .nil st
  | .error (.returned value) st => .ok value st
  | .error (.stop s) st => .error s st

/-- Calls a value, given what runs the body of a function. The call is in progress while the body runs. -/
def callWith (body : Closure → List Value → Unwind Unit) (callee : Value) (arguments : List Value) (paren : Node) :
    Eval Value :=
  match callee with
  | .function f =>
    if arguments.length = f.params.length then do
      Eval.traceAt 3 fun _ => Eval.callRecord callee arguments.length paren
      let outside := (← get).calls
      modify fun st => { st with calls := paren :: outside }
      let value ← catchReturn (body f arguments)
      modify fun st => { st with calls := outside }
      pure value
    else Eval.raise paren.token? (.arity f.params.length arguments.length)
  | .clock =>
    match arguments with
    | [] => do
      Eval.traceAt 3 fun _ => Eval.callRecord callee 0 paren
      Eval.readClock
    | _ :: _ => Eval.raise paren.token? (.arity 0 arguments.length)
  | _ => Eval.raise paren.token? .notCallable

mutual

/-- The value of an expression. -/
def eval : (fuel calls : Nat) → ScopeId → Node → Eval Value
  | 0, _, _, _ => throw .outOfFuel
  | fuel + 1, calls, scope, node =>
    match node with
    | .literal value => pure (.ofNode value)
    | .grouping inner => eval fuel calls scope inner
    | .reference name => do Eval.lookup scope (← Eval.needToken name)
    | .assign name value => do
      let value ← eval fuel calls scope value
      Eval.assign scope (← Eval.needToken name) value
      pure value
    | .logical left operator right => do
      let left ← eval fuel calls scope left
      let operator ← Eval.needToken operator
      if (operator.kind == .kwOr) == left.truthy then pure left else eval fuel calls scope right
    | .unary operator right => do
      let right ← eval fuel calls scope right
      Eval.applyUnary (← Eval.needToken operator) right
    | .binary left operator right => do
      let left ← eval fuel calls scope left
      let right ← eval fuel calls scope right
      Eval.applyBinary (← Eval.needToken operator) left right
    | .call callee paren arguments => do
      let callee ← eval fuel calls scope callee
      let arguments ← arguments.mapM (eval fuel calls scope)
      callWith (invoke fuel calls) callee arguments paren
    | other => throw (.fault (.notExpression other.typeName))
termination_by structural fuel => fuel

/-- Carries out a statement; a `return` leaves it with its value. -/
def exec : (fuel calls : Nat) → ScopeId → Node → Unwind Unit
  | 0, _, _, _ => throw (.stop .outOfFuel)
  | fuel + 1, calls, scope, node =>
    match node with
    | .expression value => do
      let _ ← lift (eval fuel calls scope value)
    | .print value => lift do
      let value ← eval fuel calls scope value
      Eval.write ((← Eval.orFault value.text) ++ "\n")
    | .var name initial => lift do
      let value ← if initial.isAbsent then pure .nil else eval fuel calls scope initial
      let t ← Eval.needToken name
      Eval.define scope (← Eval.nameOf t) value
      Eval.traceAt 2 fun _ => do return "declare " ++ t.text ++ " = " ++ (← value.text)
    | .block statements => do
      let inner ← lift (Eval.openScope scope)
      statements.forM (exec fuel calls inner)
    | .branch condition yes no => do
      let value ← lift (eval fuel calls scope condition)
      lift (Eval.traceAt 3 fun _ => do
        return "if " ++ (← condition.source) ++ " -> " ++ (if value.truthy then "true" else "false"))
      if value.truthy then exec fuel calls scope yes
      else if no.isAbsent then pure ()
      else exec fuel calls scope no
    | .loop condition body => do
      let value ← lift (eval fuel calls scope condition)
      if value.truthy then
        lift (Eval.traceAt 3 fun _ => do return "while " ++ (← condition.source))
        exec fuel calls scope body
        exec fuel calls scope (.loop condition body)
      else pure ()
    | .function name params body => lift do
      let t ← Eval.needToken name
      Eval.define scope (← Eval.nameOf t) (← Eval.closure scope t.text params body)
      Eval.traceAt 2 fun _ => .ok ("define function " ++ t.text ++ "/" ++ toString params.length)
    | .ret _ value => do
      let value ← if value.isAbsent then pure .nil else lift (eval fuel calls scope value)
      throw (.returned value)
    | other => throw (.stop (.fault (.notStatement other.typeName)))
termination_by structural fuel => fuel

/-- Runs the body of a function in a scope of its own, inside the scope of its declaration. -/
def invoke : (fuel calls : Nat) → Closure → List Value → Unwind Unit
  | 0, _, _, _ => throw (.stop .outOfFuel)
  | _ + 1, 0, _, _ => throw (.stop .exhausted)
  | fuel + 1, calls + 1, f, arguments => do
    let scope ← lift (Eval.openScope f.scope)
    lift (Eval.bindParams scope f.params arguments)
    f.body.forM (exec fuel calls scope)
termination_by structural fuel => fuel

end

def callValue (fuel calls : Nat) (callee : Value) (arguments : List Value) (paren : Node) : Eval Value :=
  callWith (invoke fuel calls) callee arguments paren

/-! ### Answers as ways out -/

/-- What answers with a returned value, as a computation that is left with it. -/
def leave (m : Eval (Option Value)) : Unwind Unit := fun st =>
  match m st with
  | .ok none st => .ok () st
  | .ok (some value) st => .error (.returned value) st
  | .error s st => .error (.stop s) st

theorem lift_bind (m : Eval α) (f : α → Eval β) : lift (m >>= f) = lift m >>= fun a => lift (f a) := by
  funext st
  simp only [lift, bind, EStateM.bind]
  cases m st <;> rfl

theorem leave_bind (m : Eval α) (f : α → Eval (Option Value)) : leave (m >>= f) = lift m >>= fun a => leave (f a) := by
  funext st
  simp only [leave, lift, bind, EStateM.bind]
  cases m st <;> rfl

theorem leave_pure_none : leave (pure none) = pure () := rfl

/-- Handing an answer on at once is leaving what comes behind. -/
theorem leave_handOn (m : Eval (Option Value)) {f : Option Value → Eval (Option Value)}
    (hf : ∀ value, f (some value) = pure (some value)) : leave (m >>= f) = leave m >>= fun _ => leave (f none) := by
  funext st
  simp only [leave, bind, EStateM.bind]
  cases m st with
  | error s mid => rfl
  | ok returned mid =>
    cases returned with
    | none => rfl
    | some value =>
      dsimp only
      rw [hf value]
      rfl

theorem leave_untilReturn (step : Node → Eval (Option Value)) (statements : List Node) :
    leave (Eval.untilReturn step statements) = statements.forM fun s => leave (step s) := by
  induction statements with
  | nil => rfl
  | cons s rest ih =>
    rw [Eval.untilReturn, leave_handOn, ih]
    · rfl
    · intro value
      rfl

/-- The call takes what the body answers with, and `nil` if that is nothing. -/
theorem catchReturn_leave (m : Eval (Option Value)) :
    catchReturn (leave m) = m >>= fun returned => pure (returned.getD .nil) := by
  funext st
  simp only [catchReturn, leave, bind, EStateM.bind]
  cases m st with
  | error s mid => rfl
  | ok returned mid => cases returned <;> rfl

/-! ### Calls in progress -/

/-- What leaves the calls in progress alone may be entered and left without remembering them. -/
theorem enter_leave {m : Eval α} (hm : Eval.Steady m) (paren : Node) :
    (do
      Eval.enterCall paren
      let a ← m
      Eval.leaveCall
      pure a) =
    (do
      let outside := (← get).calls
      modify fun st => { st with calls := paren :: outside }
      let a ← m
      modify fun st => { st with calls := outside }
      pure a : Eval α) := by
  funext st
  have hinside := hm { st with calls := paren :: st.calls }
  show (m >>= fun a => Eval.leaveCall >>= fun _ => pure a) { st with calls := paren :: st.calls } =
    (m >>= fun a => modify (fun mid => { mid with calls := st.calls }) >>= fun _ => pure a)
      { st with calls := paren :: st.calls }
  simp only [bind, EStateM.bind]
  cases hrun : m { st with calls := paren :: st.calls } with
  | error stop mid => rfl
  | ok a mid =>
    rw [hrun] at hinside
    show EStateM.Result.ok a { mid with calls := mid.calls.tail } = .ok a { mid with calls := st.calls }
    rw [hinside.2]
    rfl

/-! ### Agreement -/

/-- What is shown of the three computations for one bound on their depth. -/
structure AgreesWithin (fuel : Nat) : Prop where
  eval : ∀ calls scope e, Unwind.eval fuel calls scope e = Eval.eval fuel calls scope e
  exec : ∀ calls scope s, Unwind.exec fuel calls scope s = leave (Eval.exec fuel calls scope s)
  invoke : ∀ calls f arguments, Unwind.invoke fuel calls f arguments = leave (Eval.invoke fuel calls f arguments)

namespace AgreesWithin

variable {fuel : Nat}

/-- The call of a function takes what its body answers with, and the body leaves the calls in progress alone. -/
theorem call (ih : AgreesWithin fuel) (calls : Nat) (callee : Value) (arguments : List Value) (paren : Node) :
    Unwind.callValue fuel calls callee arguments paren =
      Eval.callValue (Eval.invoke fuel calls) callee arguments paren := by
  cases callee with
  | function f =>
    have hbody : Eval.Steady (do
        let returned ← Eval.invoke fuel calls f arguments
        pure (returned.getD .nil)) :=
      ((Eval.steadyWithin fuel).invoke calls f arguments).bind fun _ => .pure _
    rw [Unwind.callValue, callWith, Eval.callValue, Eval.arity?]
    dsimp only
    by_cases hcount : arguments.length = f.params.length
    · rw [if_pos hcount, if_neg (not_not_intro hcount)]
      apply bind_congr
      intro _
      rw [ih.invoke, catchReturn_leave, ← enter_leave hbody paren]
      simp only [bind_assoc]
    · rw [if_neg hcount, if_pos hcount]
  | clock => cases arguments <;> rfl
  | _ => rfl

theorem eval_succ (ih : AgreesWithin fuel) (calls : Nat) (scope : ScopeId) (e : Node) :
    Unwind.eval (fuel + 1) calls scope e = Eval.eval (fuel + 1) calls scope e := by
  have ihe : Unwind.eval fuel calls scope = Eval.eval fuel calls scope := funext (ih.eval calls scope)
  cases e with
  | call callee paren arguments =>
    simp only [Unwind.eval, Eval.eval, ihe]
    apply bind_congr
    intro v
    apply bind_congr
    intro values
    exact ih.call calls v values paren
  | _ => simp only [Unwind.eval, Eval.eval, ihe]

theorem exec_succ (ih : AgreesWithin fuel) (calls : Nat) (scope : ScopeId) (s : Node) :
    Unwind.exec (fuel + 1) calls scope s = leave (Eval.exec (fuel + 1) calls scope s) := by
  have ihe : Unwind.eval fuel calls scope = Eval.eval fuel calls scope := funext (ih.eval calls scope)
  have ihs (inner : ScopeId) : Unwind.exec fuel calls inner = fun s => leave (Eval.exec fuel calls inner s) :=
    funext (ih.exec calls inner)
  cases s with
  | expression value =>
    rw [Unwind.exec, Eval.exec, leave_bind, ihe]
    rfl
  | print value =>
    rw [Unwind.exec, Eval.exec, ihe]
    simp only [leave_bind, lift_bind, leave_pure_none, bind_pure_unit]
  | var name initial =>
    rw [Unwind.exec, Eval.exec, ihe]
    dsimp only
    split
    · simp only [leave_bind, lift_bind, leave_pure_none, bind_pure_unit]
    · simp only [leave_bind, lift_bind, leave_pure_none, bind_pure_unit]
  | block statements =>
    rw [Unwind.exec, Eval.exec, leave_bind]
    simp only [leave_untilReturn, ihs]
  | branch condition yes no =>
    rw [Unwind.exec, Eval.exec, leave_bind, ihe, ihs]
    apply bind_congr
    intro v
    rw [leave_bind]
    apply bind_congr
    intro _
    split
    · rfl
    split
    · rfl
    · rfl
  | loop condition body =>
    rw [Unwind.exec, Eval.exec, leave_bind, ihe, ihs]
    apply bind_congr
    intro v
    split
    · rw [leave_bind]
      apply bind_congr
      intro _
      rw [leave_handOn]
      intro value
      rfl
    · rfl
  | function name params body =>
    rw [Unwind.exec, Eval.exec]
    simp only [leave_bind, lift_bind, leave_pure_none, bind_pure_unit]
  | ret keyword value =>
    rw [Unwind.exec, Eval.exec, ihe]
    split
    · rfl
    · rw [leave_bind]
      rfl
  | _ => rfl

theorem invoke_succ (ih : AgreesWithin fuel) (calls : Nat) (f : Closure) (arguments : List Value) :
    Unwind.invoke (fuel + 1) calls f arguments = leave (Eval.invoke (fuel + 1) calls f arguments) := by
  cases calls with
  | zero => rfl
  | succ calls =>
    have ihs (inner : ScopeId) : Unwind.exec fuel calls inner = fun s => leave (Eval.exec fuel calls inner s) :=
      funext (ih.exec calls inner)
    rw [Unwind.invoke, Eval.invoke]
    simp only [leave_bind, leave_untilReturn, ihs]

end AgreesWithin

theorem agreesWithin (fuel : Nat) : AgreesWithin fuel := by
  induction fuel with
  | zero => exact ⟨fun _ _ _ => rfl, fun _ _ _ => rfl, fun _ _ _ => rfl⟩
  | succ fuel ih => exact ⟨ih.eval_succ, ih.exec_succ, ih.invoke_succ⟩

end Unwind

/-- Calling a value gives the same whether `return` is an answer that every statement hands on or a way out that none of
them sees: the same value or the same stop, and the same state with all that was printed, in every state and for every
bound on the depth of the computation and of calls. -/
theorem callValue_eq_unwind (fuel calls : Nat) (callee : Value) (arguments : List Value) (paren : Node) (st : State) :
    Eval.callValue (Eval.invoke fuel calls) callee arguments paren st =
      Unwind.callValue fuel calls callee arguments paren st := by
  rw [(Unwind.agreesWithin fuel).call calls callee arguments paren]

namespace DeepReturn

def word (kind : Kind) (text : String) : Node := .token ⟨kind, .str text, .null, 1⟩

def paren : Node := word .rightParen ")"

def named (text : String) : Node := .reference (word .identifier text)

/-- A loop with a block in it that prints `again` and, inside a further block, returns what the function gives for
`false`; for `false` it comes to a return behind that block. -/
def body : List Node :=
  [.loop (.literal (.bool true)) (.block
    [.print (named "again"),
     .block [.branch (named "again") (.ret (word .kwReturn "return")
       (.call (named "f") paren [.literal (.bool false)])) .null],
     .ret (word .kwReturn "return") (.literal (.str "deep"))])]

def closure : Closure := ⟨0, "f", [word .identifier "again"], body, State.globals⟩

def declared : State :=
  { State.initial 0 true fun _ => .zero with
    store := (State.initial 0 true fun _ => .zero).store.define State.globals "f" (.function closure) }

/-- The text that a computation gives, if it gives one, and what was printed by then. -/
def arrival : EStateM.Result Stop State Value → Option (String × Array String)
  | .ok (.str text) st => some (text, st.output)
  | _ => none

theorem exists_of_arrival {r : EStateM.Result Stop State Value} {text : String} {output : Array String}
    (h : arrival r = some (text, output)) : ∃ st', r = .ok (.str text) st' ∧ st'.output = output := by
  cases r with
  | error stop st => cases h
  | ok value st =>
    cases value with
    | str text' =>
      cases h
      exact ⟨st, rfl, rfl⟩
    | _ => cases h

end DeepReturn

/-- A value on its way out of a block, a loop and a call inside another `return` arrives, and all that was printed
before it is kept. -/
theorem callValue_eq_unwind_deep : ∃ st',
    Unwind.callValue 13 2 (.function DeepReturn.closure) [.bool true] DeepReturn.paren DeepReturn.declared =
      .ok (.str "deep") st' ∧
    Eval.callValue (Eval.invoke 13 2) (.function DeepReturn.closure) [.bool true] DeepReturn.paren DeepReturn.declared =
      .ok (.str "deep") st' ∧
    st'.output = #["true\n", "false\n"] := by
  rw [callValue_eq_unwind 13 2 (.function DeepReturn.closure) [.bool true] DeepReturn.paren DeepReturn.declared]
  obtain ⟨st', hrun, hprinted⟩ := DeepReturn.exists_of_arrival (show DeepReturn.arrival (Unwind.callValue 13 2
    (.function DeepReturn.closure) [.bool true] DeepReturn.paren DeepReturn.declared) =
      some ("deep", #["true\n", "false\n"]) by decide +kernel)
  exact ⟨st', hrun, hrun, hprinted⟩

end LoxLang
