import LoxLang.Proofs.Scope.History
/-!
# The names that evaluation can add

Whatever is run, in whatever store, the scopes that were there before bind the same names afterwards,
but for one thing: a statement adds names to the scope it is run in, and only names that it declares
there itself. An expression adds none anywhere, however deep the calls in it go. It does not matter
how a computation ends, since what holds of every step holds of every state it can stop in.

Nothing is asked of the store. Blocks and calls define names only in a scope that was just opened,
and its place is behind those of all others; an assignment finds its name bound.
-/

namespace LoxLang

/-- The name that a node in the place of a name stands for. -/
def Node.name? (n : Node) : Option Name := n.token?.bind fun t => t.lexeme.name?

/-- The names that a statement declares in the scope it is run in: those inside of blocks and functions are declared in
scopes of their own. -/
def Node.declared : Node → List Name
  | var name _ => name.name?.toList
  | function name _ _ => name.name?.toList
  | branch _ yes no => yes.declared ++ no.declared
  | loop _ body => body.declared
  | _ => []

namespace Store

/-- Of the scopes of the first store, the second one binds the same names and further ones that `D` allows. -/
structure Widens (D : ScopeId → Name → Prop) (store store' : Store Value) : Prop where
  next_le : store.next ≤ store'.next
  kept : ∀ s name, store.binds s name = true → store'.binds s name = true
  added : ∀ s < store.next, ∀ name, store'.binds s name = true → store.binds s name = true ∨ D s name

namespace Widens

variable {D D' : ScopeId → Name → Prop} {store mid store' : Store Value}

theorem refl (D : ScopeId → Name → Prop) (store : Store Value) : store.Widens D store :=
  ⟨le_rfl, fun _ _ h => h, fun _ _ _ h => .inl h⟩

theorem trans (h : store.Widens D mid) (h' : mid.Widens D store') : store.Widens D store' where
  next_le := h.next_le.trans h'.next_le
  kept s name hbinds := h'.kept s name (h.kept s name hbinds)
  added s hs name hbinds := by
    rcases h'.added s (hs.trans_le h.next_le) name hbinds with hmid | hD
    · exact h.added s hs name hmid
    · exact .inr hD

theorem define {s : ScopeId} {name : Name} (value : Value) (h : store.binds s name = true ∨ D s name) :
    store.Widens D (store.define s name value) where
  next_le := next_define.ge
  kept t other hbinds := (binds_define t other).mpr (.inl hbinds)
  added t _ other hbinds := by
    rcases (binds_define t other).mp hbinds with hold | ⟨rfl, rfl, -⟩
    · exact .inl hold
    · exact h

/-- What is added to a scope that was just opened is of no account for the scopes before. -/
theorem child {parent : ScopeId} (h : (store.child parent).Widens (fun s _ => s = store.next) store') :
    store.Widens D store' where
  next_le := by
    have hnext := h.next_le
    rw [next_child] at hnext
    exact Nat.le_of_succ_le hnext
  kept s name hbinds := h.kept s name ((binds_child parent s).trans hbinds)
  added s hs name hbinds := by
    have hopened : s < (store.child parent).next := (next_child parent).symm ▸ Nat.lt_succ_of_lt hs
    rcases h.added s hopened name hbinds with hold | rfl
    · exact .inl ((binds_child parent s).symm.trans hold)
    · exact absurd hs (Nat.lt_irrefl _)

end Widens

end Store

namespace Eval

variable {α β : Type} {D : ScopeId → Name → Prop}

/-- The state in which a computation has ended or stopped. -/
def stateOf : EStateM.Result Stop State α → State
  | .ok _ st => st
  | .error _ st => st

/-- However the computation ends, only names that `D` allows were added to the scopes before it. -/
def Frames (D : ScopeId → Name → Prop) (m : Eval α) : Prop :=
  ∀ st : State, st.store.Widens D (stateOf (m st)).store

namespace Frames

/-! ### Single steps -/

theorem bind {m : Eval α} {f : α → Eval β} (hm : Frames D m) (hf : ∀ a, Frames D (f a)) : Frames D (m >>= f) := by
  intro st
  have hfirst := hm st
  simp only [Bind.bind, EStateM.bind]
  cases hmid : m st with
  | error stop mid =>
    rw [hmid] at hfirst
    exact hfirst
  | ok a mid =>
    rw [hmid] at hfirst
    exact hfirst.trans (hf a mid)

theorem pure (a : α) : Frames D (Pure.pure a : Eval α) := fun st => .refl D st.store

theorem throw (stop : Stop) : Frames D (MonadExcept.throw stop : Eval α) := fun st => .refl D st.store

/-- A step that does not touch the store. -/
theorem modifyGet {g : State → α × State} (h : ∀ st, (g st).2.store = st.store) :
    Frames D (MonadStateOf.modifyGet g : Eval α) := by
  intro st
  show st.store.Widens D (g st).2.store
  rw [h st]
  exact .refl D st.store

theorem look {f : State → Eval β} (hf : ∀ st : State, st.store.Widens D (stateOf (f st st)).store) :
    Frames D (get >>= f) := hf

theorem orFault (r : Except Fault α) : Frames D (Eval.orFault r) := by
  cases r with
  | ok a => exact .pure a
  | error f => exact .throw _

theorem traceAt (level : Nat) (record : Unit → Except Fault String) : Frames D (Eval.traceAt level record) := by
  refine .look fun st => ?_
  split
  · exact ((orFault _).bind fun _ => .modifyGet fun _ => rfl) st
  · exact .refl D st.store

theorem define {s : ScopeId} {name : Name} (value : Value) (h : D s name) : Frames D (Eval.define s name value) :=
  fun _ => .define value (.inr h)

theorem inside {f : ScopeId → Eval β} (parent : ScopeId) (hf : ∀ inner, Frames (fun s _ => s = inner) (f inner)) :
    Frames D (openScope parent >>= f) :=
  fun st => .child (hf st.store.next { st with store := st.store.child parent })

/-! ### Names and values -/

theorem nameOf {f : Name → Eval β} (t : Token) (hf : ∀ name, t.lexeme.name? = some name → Frames D (f name)) :
    Frames D (Eval.nameOf t >>= f) := by
  unfold Eval.nameOf
  split
  next name hname => exact hf name hname
  next => exact .throw _

theorem needToken {f : Token → Eval β} (n : Node) (hf : ∀ t, n.token? = some t → Frames D (f t)) :
    Frames D (Eval.needToken n >>= f) := by
  unfold Eval.needToken Node.needToken
  cases hn : n.token? with
  | none => exact .throw _
  | some t => exact hf t hn

theorem lookup (scope : ScopeId) (t : Token) : Frames D (Eval.lookup scope t) := by
  refine nameOf t fun name _ => .look fun st => ?_
  cases st.store.get? scope name with
  | none => exact .refl D st.store
  | some value => exact .refl D st.store

/-- The name is bound where it is assigned. -/
theorem assign (scope : ScopeId) (t : Token) (value : Value) : Frames D (Eval.assign scope t value) := by
  refine nameOf t fun name _ => .look fun st => ?_
  cases hresolve : st.store.resolve? scope name with
  | none => exact .refl D st.store
  | some target =>
    have hbinds : st.store.binds target name = true := (List.find?_eq_some_iff_append.mp hresolve).1
    exact .define value (.inl hbinds)

theorem applyUnary (t : Token) (v : Value) : Frames D (Eval.applyUnary t v) := by
  unfold Eval.applyUnary
  split
  · exact .pure _
  · split
    · exact .pure _
    · exact .throw _
  · exact .throw _

theorem applyNumeric (t : Token) (x y : Number) : Frames D (Eval.applyNumeric t x y) := by
  unfold Eval.applyNumeric
  split
  all_goals first | exact .pure _ | exact .throw _

theorem applyBinary (t : Token) (v w : Value) : Frames D (Eval.applyBinary t v w) := by
  unfold Eval.applyBinary
  split
  · exact .pure _
  · exact .pure _
  · split
    · exact .pure _
    · exact .pure _
    · exact .throw _
  · split
    · exact .applyNumeric t _ _
    · exact .throw _

/-! ### Lists of computations and calls -/

theorem mapM {γ : Type} {f : γ → Eval α} (hf : ∀ x, Frames D (f x)) (xs : List γ) : Frames D (xs.mapM f) := by
  induction xs with
  | nil => exact .pure []
  | cons x xs ih =>
    rw [List.mapM_cons]
    exact (hf x).bind fun _ => ih.bind fun _ => .pure _

theorem untilReturn {f : Node → Eval (Option Value)} (hf : ∀ n, Frames D (f n)) (statements : List Node) :
    Frames D (Eval.untilReturn f statements) := by
  induction statements with
  | nil => exact .pure none
  | cons s rest ih =>
    refine (hf s).bind fun returned => ?_
    cases returned with
    | none => exact ih
    | some value => exact .pure _

theorem bindParams {scope : ScopeId} (hD : ∀ name, D scope name) (params : List Node) (values : List Value) :
    Frames D (Eval.bindParams scope params values) := by
  induction params generalizing values with
  | nil => exact .pure ()
  | cons param params ih =>
    cases values with
    | nil => exact .pure ()
    | cons value values =>
      refine needToken param fun t _ => nameOf t fun name _ => ?_
      exact (define value (hD name)).bind fun _ => ih values

theorem callValue {invoke : Closure → List Value → Eval (Option Value)}
    (hinvoke : ∀ f arguments, Frames D (invoke f arguments)) (callee : Value) (arguments : List Value) (paren : Node) :
    Frames D (Eval.callValue invoke callee arguments paren) := by
  have hleave (v : Value) : Frames D (leaveCall >>= fun _ => Pure.pure v) :=
    (modifyGet fun _ => rfl).bind fun _ => .pure v
  unfold Eval.callValue
  split
  · exact .throw _
  split
  · exact .throw _
  refine (traceAt _ _).bind fun _ => (modifyGet fun _ => rfl).bind fun _ => ?_
  cases callee with
  | function f =>
    simp only [pure_bind]
    exact (hinvoke f arguments).bind fun returned => hleave _
  | _ => exact (modifyGet fun _ => rfl).bind hleave

end Frames

/-! ### Evaluation -/

/-- What is shown of the three computations for one bound on their depth. -/
structure FramesWithin (fuel : Nat) : Prop where
  eval : ∀ {D} calls scope e, Frames D (Eval.eval fuel calls scope e)
  exec : ∀ {D} calls {scope} s, (∀ name ∈ s.declared, D scope name) → Frames D (Eval.exec fuel calls scope s)
  invoke : ∀ {D} calls f arguments, Frames D (Eval.invoke fuel calls f arguments)

namespace FramesWithin

variable {fuel : Nat}

theorem eval_succ (ih : FramesWithin fuel) (calls : Nat) (scope : ScopeId) (e : Node) :
    Frames D (Eval.eval (fuel + 1) calls scope e) := by
  have ihe (e : Node) : Frames D (Eval.eval fuel calls scope e) := ih.eval calls scope e
  cases e with
  | literal value => exact .pure _
  | grouping inner => exact ihe inner
  | reference name => exact (Frames.orFault _).bind fun t => .lookup scope t
  | assign name value =>
    exact (ihe value).bind fun v => (Frames.orFault _).bind fun t => (Frames.assign scope t v).bind fun _ => .pure v
  | logical left operator right =>
    refine (ihe left).bind fun v => (Frames.orFault _).bind fun t => ?_
    split
    · exact .pure v
    · exact ihe right
  | unary operator right => exact (ihe right).bind fun v => (Frames.orFault _).bind fun t => .applyUnary t v
  | binary left operator right =>
    exact (ihe left).bind fun v => (ihe right).bind fun w => (Frames.orFault _).bind fun t => .applyBinary t v w
  | call callee paren arguments =>
    exact (ihe callee).bind fun v => (Frames.mapM ihe arguments).bind fun vs =>
      .callValue (fun f values => ih.invoke calls f values) v vs paren
  | _ => exact .throw _

theorem exec_succ (ih : FramesWithin fuel) (calls : Nat) {scope : ScopeId} (s : Node)
    (hD : ∀ name ∈ s.declared, D scope name) : Frames D (Eval.exec (fuel + 1) calls scope s) := by
  have ihe (e : Node) : Frames D (Eval.eval fuel calls scope e) := ih.eval calls scope e
  cases s with
  | expression value => exact (ihe value).bind fun _ => .pure none
  | print value =>
    refine (ihe value).bind fun _ => (Frames.orFault _).bind fun _ => ?_
    exact (Frames.modifyGet fun _ => rfl).bind fun _ => .pure none
  | var name initial =>
    have hdeclare (value : Value) : Frames D (do
        let t ← needToken name
        define scope (← nameOf t) value
        traceAt 2 fun _ => do return "declare " ++ t.text ++ " = " ++ (← value.text)
        pure (none : Option Value)) := by
      refine .needToken name fun t ht => .nameOf t fun n hn => ?_
      have hdeclared : n ∈ (Node.var name initial).declared := by simp [Node.declared, Node.name?, ht, hn]
      exact (Frames.define value (hD n hdeclared)).bind fun _ => (Frames.traceAt _ _).bind fun _ => .pure none
    rw [Eval.exec]
    split
    · exact hdeclare .nil
    · exact (ihe initial).bind hdeclare
  | block statements => exact .inside scope fun inner => .untilReturn (fun s => ih.exec calls s fun _ _ => rfl) statements
  | branch condition yes no =>
    refine (ihe condition).bind fun v => (Frames.traceAt _ _).bind fun _ => ?_
    split
    · exact ih.exec calls yes fun name hname => hD name (List.mem_append_left _ hname)
    split
    · exact .pure none
    · exact ih.exec calls no fun name hname => hD name (List.mem_append_right _ hname)
  | loop condition body =>
    refine (ihe condition).bind fun v => ?_
    split
    · refine (Frames.traceAt _ _).bind fun _ => (ih.exec calls body hD).bind fun returned => ?_
      cases returned with
      | none => exact ih.exec calls _ hD
      | some value => exact .pure _
    · exact .pure none
  | function name params body =>
    refine .needToken name fun t ht => .nameOf t fun n hn => (Frames.modifyGet fun _ => rfl).bind fun value => ?_
    have hdeclared : n ∈ (Node.function name params body).declared := by simp [Node.declared, Node.name?, ht, hn]
    exact (Frames.define value (hD n hdeclared)).bind fun _ => (Frames.traceAt _ _).bind fun _ => .pure none
  | ret keyword value =>
    rw [Eval.exec]
    split
    · exact .pure _
    · exact (ihe value).bind fun _ => .pure _
  | _ => exact .throw _

theorem invoke_succ (ih : FramesWithin fuel) (calls : Nat) (f : Closure) (arguments : List Value) :
    Frames D (Eval.invoke (fuel + 1) calls f arguments) := by
  cases calls with
  | zero => exact .throw _
  | succ calls =>
    refine .inside f.scope fun inner => (Frames.bindParams (fun _ => rfl) f.params arguments).bind fun _ => ?_
    exact .untilReturn (fun s => ih.exec calls s fun _ _ => rfl) f.body

end FramesWithin

theorem framesWithin (fuel : Nat) : FramesWithin fuel := by
  induction fuel with
  | zero => exact ⟨fun _ _ _ => .throw _, fun _ _ _ _ => .throw _, fun _ _ _ => .throw _⟩
  | succ fuel ih => exact ⟨ih.eval_succ, fun calls _ s => ih.exec_succ calls s, ih.invoke_succ⟩

end Eval

/-! ### The frame -/

/-- The scopes of the first store bind the same names in the second one. -/
def Store.SameNames (store store' : Store Value) : Prop :=
  ∀ s < store.next, ∀ name, store'.binds s name = store.binds s name

theorem Store.Widens.sameNames {store store' : Store Value} (h : store.Widens (fun _ _ => False) store') :
    store.SameNames store' := by
  intro s hs name
  rw [Bool.eq_iff_iff]
  exact ⟨fun hbinds => (h.added s hs name hbinds).resolve_right id, h.kept s name⟩

open Eval in
/-- From every state and in every scope of it, whether allocated or not, and however the computation ends: a statement
leaves the names of all scopes that were there before, but for those of the scope it is run in; to that scope it adds
only names that it declares outside of its blocks and functions. Expressions, blocks and calls leave the names of all of
them. -/
theorem names_of_scopes_frame (fuel calls : Nat) (scope : ScopeId) (st : State) :
    (∀ statement, let st' := stateOf (exec fuel calls scope statement st)
      (∀ s < st.store.next, s ≠ scope → ∀ name, st'.store.binds s name = st.store.binds s name) ∧
      (∀ name, st.store.binds scope name = true → st'.store.binds scope name = true) ∧
      (scope < st.store.next → ∀ name, st'.store.binds scope name = true →
        st.store.binds scope name = true ∨ name ∈ statement.declared)) ∧
    (∀ expression, st.store.SameNames (stateOf (eval fuel calls scope expression st)).store) ∧
    (∀ statements, st.store.SameNames (stateOf (exec fuel calls scope (.block statements) st)).store) ∧
    (∀ callee arguments paren,
      st.store.SameNames (stateOf (callValue (invoke fuel calls) callee arguments paren st)).store) := by
  have hframes := framesWithin fuel
  refine ⟨fun statement => ?_, fun expression => ?_, fun statements => ?_, fun callee arguments paren => ?_⟩
  · have hwidens := hframes.exec (D := fun s name => s = scope ∧ name ∈ statement.declared) calls statement
      (fun name hname => ⟨rfl, hname⟩) st
    refine ⟨fun s hs hne name => ?_, hwidens.kept scope, fun hscope name hbinds => ?_⟩
    · rw [Bool.eq_iff_iff]
      refine ⟨fun hbinds => ?_, hwidens.kept s name⟩
      exact (hwidens.added s hs name hbinds).resolve_right fun hD => hne hD.1
    · exact (hwidens.added scope hscope name hbinds).imp_right And.right
  · exact (hframes.eval calls scope expression st).sameNames
  · exact (hframes.exec calls (.block statements) (fun name hname => absurd hname List.not_mem_nil) st).sameNames
  · exact (Frames.callValue (fun f values => hframes.invoke calls f values) callee arguments paren st).sameNames

end LoxLang
