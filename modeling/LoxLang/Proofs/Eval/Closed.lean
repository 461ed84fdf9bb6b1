import LoxLang.Eval.Run
/-!
# What holds of every computation

A property of computations that holds of each single step, and of two computations one after the
other if it holds of both, holds of evaluating an expression, of carrying out a statement and of
running a function. A call counts as one step around its body, since only as a whole it leaves the
calls in progress as they were. What neither calls nor changes the scopes is put together from the
other steps, and never stops for too many calls.
-/

namespace LoxLang

/-- The reasons for which a single step can stop. Too many calls in progress are none. -/
inductive Stop.OfStep : Stop → Prop
  | error (site : Option Token) {cause : Cause} (h : cause ≠ .stackOverflow) : OfStep (.error ⟨site, cause⟩)
  | fault (f : Fault) : OfStep (.fault f)
  | outOfFuel : OfStep .outOfFuel

namespace Eval

/-- The property holds of single steps, and of what is put together from computations that have it as long as no call is
entered and the scopes are left alone. -/
structure PieceClosed (P : ∀ ⦃α : Type⦄, Eval α → Prop) : Prop where
  pure : ∀ {α : Type} (a : α), P (Pure.pure a : Eval α)
  throw : ∀ {α : Type} {stop : Stop}, stop.OfStep → P (MonadExcept.throw stop : Eval α)
  bind : ∀ {α β : Type} {m : Eval α} {f : α → Eval β}, P m → (∀ a, P (f a)) → P (m >>= f)
  /-- Records are asked for at levels 1 to 3. -/
  traceAt : ∀ {level : Nat} (record : Unit → Except Fault String), 1 ≤ level → level ≤ 3 → P (Eval.traceAt level record)
  write : ∀ text, P (Eval.write text)
  /-- What is found in the scopes may decide how to go on. -/
  look : ∀ {α : Type} {f : Store Value → Eval α}, (∀ store, P (f store)) → P (get >>= fun st => f st.store)
  closure : ∀ scope name params body, P (Eval.closure scope name params body)
  readClock : P Eval.readClock

/-- The property holds of calls as well and of changes to the scopes, and of what is put together with them. -/
structure StepClosed (P : ∀ ⦃α : Type⦄, Eval α → Prop) : Prop extends PieceClosed P where
  openScope : ∀ parent, P (Eval.openScope parent)
  define : ∀ scope name value, P (Eval.define scope name value)
  call : ∀ {α : Type} {m : Eval α} (paren : Node), P m → P (do enterCall paren; let a ← m; leaveCall; Pure.pure a)
  exhausted : ∀ {α : Type}, P (MonadExcept.throw Stop.exhausted : Eval α)

namespace PieceClosed

variable {P : ∀ ⦃α : Type⦄, Eval α → Prop} {α : Type}

/-! ### Names and values -/

theorem raise (h : PieceClosed P) (site : Option Token) {cause : Cause} (hcause : cause ≠ .stackOverflow) :
    P (Eval.raise site cause : Eval α) :=
  h.throw (.error site hcause)

theorem orFault (h : PieceClosed P) (r : Except Fault α) : P (Eval.orFault r) := by
  cases r with
  | ok a => exact h.pure a
  | error f => exact h.throw (.fault f)

theorem nameOf (h : PieceClosed P) (t : Token) : P (Eval.nameOf t) := by
  unfold Eval.nameOf
  split
  · exact h.pure _
  · exact h.throw (.fault _)

theorem lookup (h : PieceClosed P) (scope : ScopeId) (t : Token) : P (Eval.lookup scope t) := by
  have hfound (found : Option Value) : P (found.elim (Eval.raise t (.undefined t.text)) Pure.pure) := by
    cases found with
    | some value => exact h.pure value
    | none => exact h.raise _ nofun
  have hlookup : Eval.lookup scope t = Eval.nameOf t >>= fun name => get >>= fun st =>
      (st.store.get? scope name).elim (Eval.raise t (.undefined t.text)) Pure.pure := by
    refine bind_congr fun name => bind_congr fun st => ?_
    cases st.store.get? scope name <;> rfl
  rw [hlookup]
  exact h.bind (h.nameOf t) fun name => h.look fun store => hfound (store.get? scope name)

theorem applyUnary (h : PieceClosed P) (t : Token) (v : Value) : P (Eval.applyUnary t v) := by
  unfold Eval.applyUnary
  split
  · exact h.pure _
  · split
    · exact h.pure _
    · exact h.raise _ nofun
  · exact h.raise _ nofun

theorem applyNumeric (h : PieceClosed P) (t : Token) (x y : Number) : P (Eval.applyNumeric t x y) := by
  unfold Eval.applyNumeric
  split
  all_goals first | exact h.pure _ | exact h.raise _ nofun

theorem applyBinary (h : PieceClosed P) (t : Token) (v w : Value) : P (Eval.applyBinary t v w) := by
  unfold Eval.applyBinary
  split
  · exact h.pure _
  · exact h.pure _
  · split
    · exact h.pure _
    · exact h.pure _
    · exact h.raise _ nofun
  · split
    · exact h.applyNumeric t _ _
    · exact h.raise _ nofun

/-! ### Lists of computations -/

theorem mapM (h : PieceClosed P) {γ : Type} {f : γ → Eval α} (hf : ∀ x, P (f x)) (xs : List γ) : P (xs.mapM f) := by
  induction xs with
  | nil => exact h.pure []
  | cons x xs ih =>
    rw [List.mapM_cons]
    exact h.bind (hf x) fun _ => h.bind ih fun _ => h.pure _

theorem forM (h : PieceClosed P) {γ : Type} {f : γ → Eval Unit} (hf : ∀ x, P (f x)) (xs : List γ) : P (xs.forM f) := by
  induction xs with
  | nil => exact h.pure ()
  | cons x xs ih => exact h.bind (hf x) fun _ => ih

theorem untilReturn (h : PieceClosed P) {f : Node → Eval (Option Value)} (hf : ∀ n, P (f n)) (statements : List Node) :
    P (Eval.untilReturn f statements) := by
  induction statements with
  | nil => exact h.pure none
  | cons s rest ih =>
    refine h.bind (hf s) fun returned => ?_
    cases returned with
    | none => exact ih
    | some value => exact h.pure _

end PieceClosed

namespace StepClosed

variable {P : ∀ ⦃α : Type⦄, Eval α → Prop}

theorem assign (h : StepClosed P) (scope : ScopeId) (t : Token) (value : Value) : P (Eval.assign scope t value) := by
  have hfound (name : Name) (found : Option ScopeId) :
      P (found.elim (Eval.raise t (.undefined t.text)) fun target => Eval.define target name value) := by
    cases found with
    | some target => exact h.define target name value
    | none => exact h.raise _ nofun
  have hassign : Eval.assign scope t value = Eval.nameOf t >>= fun name => get >>= fun st =>
      (st.store.resolve? scope name).elim (Eval.raise t (.undefined t.text)) fun target =>
        Eval.define target name value := by
    refine bind_congr fun name => bind_congr fun st => ?_
    cases st.store.resolve? scope name <;> rfl
  rw [hassign]
  exact h.bind (h.nameOf t) fun name => h.look fun store => hfound name (store.resolve? scope name)

theorem bindParams (h : StepClosed P) (scope : ScopeId) (params : List Node) (values : List Value) :
    P (Eval.bindParams scope params values) := by
  induction params generalizing values with
  | nil => exact h.pure ()
  | cons param params ih =>
    cases values with
    | nil => exact h.pure ()
    | cons value values =>
      exact h.bind (h.orFault _) fun t => h.bind (h.nameOf t) fun _ => h.bind (h.define _ _ _) fun _ => ih values

theorem callValue (h : StepClosed P) {invoke : Closure → List Value → Eval (Option Value)}
    (hinvoke : ∀ f arguments, P (invoke f arguments)) (callee : Value) (arguments : List Value) (paren : Node) :
    P (Eval.callValue invoke callee arguments paren) := by
  unfold Eval.callValue
  split
  · exact h.raise _ nofun
  split
  · exact h.raise _ nofun
  refine h.bind (h.traceAt _ (by decide) (by decide)) fun _ => ?_
  cases callee with
  | function f =>
    have hbody := h.bind (hinvoke f arguments) fun returned => h.pure (returned.getD .nil)
    simpa only [bind_assoc] using h.call paren hbody
  | _ => exact h.call paren h.readClock

/-! ### Evaluation -/

/-- What is shown of the three computations for one bound on their depth. -/
structure Within (P : ∀ ⦃α : Type⦄, Eval α → Prop) (fuel : Nat) : Prop where
  eval : ∀ calls scope e, P (Eval.eval fuel calls scope e)
  exec : ∀ calls scope s, P (Eval.exec fuel calls scope s)
  invoke : ∀ calls f arguments, P (Eval.invoke fuel calls f arguments)

variable {fuel : Nat}

theorem eval_succ (h : StepClosed P) (ih : Within P fuel) (calls : Nat) (scope : ScopeId) (e : Node) :
    P (Eval.eval (fuel + 1) calls scope e) := by
  have ihe := ih.eval calls scope
  cases e with
  | literal value => exact h.pure _
  | grouping inner => exact ihe inner
  | reference name => exact h.bind (h.orFault _) fun t => h.lookup scope t
  | assign name value =>
    exact h.bind (ihe value) fun v => h.bind (h.orFault _) fun t => h.bind (h.assign scope t v) fun _ => h.pure v
  | logical left operator right =>
    refine h.bind (ihe left) fun v => h.bind (h.orFault _) fun t => ?_
    split
    · exact h.pure v
    · exact ihe right
  | unary operator right => exact h.bind (ihe right) fun v => h.bind (h.orFault _) fun t => h.applyUnary t v
  | binary left operator right =>
    exact h.bind (ihe left) fun v => h.bind (ihe right) fun w => h.bind (h.orFault _) fun t => h.applyBinary t v w
  | call callee paren arguments =>
    refine h.bind (ihe callee) fun v => h.bind (h.mapM ihe arguments) fun vs => ?_
    exact h.callValue (ih.invoke calls) v vs paren
  | _ => exact h.throw (.fault _)

theorem exec_succ (h : StepClosed P) (ih : Within P fuel) (calls : Nat) (scope : ScopeId) (s : Node) :
    P (Eval.exec (fuel + 1) calls scope s) := by
  have ihe := ih.eval calls scope
  have ihs := ih.exec calls
  cases s with
  | expression value => exact h.bind (ihe value) fun _ => h.pure none
  | print value =>
    exact h.bind (ihe value) fun _ => h.bind (h.orFault _) fun _ => h.bind (h.write _) fun _ => h.pure none
  | var name initial =>
    have hdeclare (value : Value) : P (do
        let t ← needToken name
        Eval.define scope (← Eval.nameOf t) value
        Eval.traceAt 2 fun _ => do return "declare " ++ t.text ++ " = " ++ (← value.text)
        Pure.pure (none : Option Value)) :=
      h.bind (h.orFault _) fun t => h.bind (h.nameOf t) fun _ => h.bind (h.define _ _ _) fun _ =>
        h.bind (h.traceAt _ (by decide) (by decide)) fun _ => h.pure none
    rw [Eval.exec]
    split
    · exact hdeclare .nil
    · exact h.bind (ihe initial) hdeclare
  | block statements => exact h.bind (h.openScope _) fun inner => h.untilReturn (ihs inner) statements
  | branch condition yes no =>
    refine h.bind (ihe condition) fun v => h.bind (h.traceAt _ (by decide) (by decide)) fun _ => ?_
    split
    · exact ihs scope yes
    split
    · exact h.pure none
    · exact ihs scope no
  | loop condition body =>
    refine h.bind (ihe condition) fun v => ?_
    split
    · refine h.bind (h.traceAt _ (by decide) (by decide)) fun _ => h.bind (ihs scope body) fun returned => ?_
      cases returned with
      | none => exact ihs scope _
      | some value => exact h.pure _
    · exact h.pure none
  | function name params body =>
    exact h.bind (h.orFault _) fun t => h.bind (h.nameOf t) fun _ => h.bind (h.closure _ _ _ _) fun _ =>
      h.bind (h.define _ _ _) fun _ => h.bind (h.traceAt _ (by decide) (by decide)) fun _ => h.pure none
  | ret keyword value =>
    rw [Eval.exec]
    split
    · exact h.pure _
    · exact h.bind (ihe value) fun _ => h.pure _
  | _ => exact h.throw (.fault _)

theorem invoke_succ (h : StepClosed P) (ih : Within P fuel) (calls : Nat) (f : Closure) (arguments : List Value) :
    P (Eval.invoke (fuel + 1) calls f arguments) := by
  cases calls with
  | zero => exact h.exhausted
  | succ calls =>
    exact h.bind (h.openScope _) fun scope => h.bind (h.bindParams scope _ _) fun _ =>
      h.untilReturn (ih.exec calls scope) f.body

theorem within (h : StepClosed P) (fuel : Nat) : Within P fuel := by
  induction fuel with
  | zero => exact ⟨fun _ _ _ => h.throw .outOfFuel, fun _ _ _ => h.throw .outOfFuel, fun _ _ _ => h.throw .outOfFuel⟩
  | succ fuel ih => exact ⟨h.eval_succ ih, h.exec_succ ih, h.invoke_succ ih⟩

theorem execAll (h : StepClosed P) (room : Room) (program : List Node) : P (Eval.execAll room program) :=
  h.forM (fun statement => h.bind ((h.within room.depth).exec _ _ statement) fun _ => h.pure ()) program

end StepClosed

end Eval

end LoxLang
