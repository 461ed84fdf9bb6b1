import LoxLang.Eval.Run
import LoxLang.Proofs.Grammar.Trees
/-!
# How a program can go wrong

A tree that a parser built never reaches a fault. What carries the argument is an invariant of the
state: everything bound in any scope is a value of the language, the bodies of functions are
statements, and every call in progress has a closing parenthesis. Under it a computation can only go
wrong in the ways of `Cause.OccursAt`, and too many calls inside each other are met only while a call
is in progress.

Each step of evaluation gets one lemma that says it keeps the invariant; the computations follow by
induction on the bound of their depth.
-/

namespace LoxLang

variable {α β : Type} {P : Token → Prop}

/-! ### Stores -/

namespace Store

variable {V : α → Prop} {store : Store α}

/-- All that is bound in any scope satisfies `V`. -/
def Holds (V : α → Prop) (store : Store α) : Prop := ∀ scope ∈ store.scopes, ∀ b ∈ scope.bindings, V b.2

theorem Holds.root : Holds V (Store.root : Store α) := by
  intro scope hscope
  rw [Store.root, List.mem_toArray, List.mem_singleton] at hscope
  rw [hscope]
  simp

theorem Holds.child (h : Holds V store) (parent : ScopeId) : Holds V (store.child parent) := by
  intro scope hscope
  rcases Array.mem_push.mp hscope with hold | rfl
  · exact h scope hold
  · simp

theorem forall_mem_putBinding {bindings : List (Name × α)} (name : Name) {value : α} (hvalue : V value)
    (h : ∀ b ∈ bindings, V b.2) : ∀ b ∈ Scope.putBinding name value bindings, V b.2 := by
  induction bindings with
  | nil => simpa [Scope.putBinding] using hvalue
  | cons first rest ih =>
    obtain ⟨hfirst, hrest⟩ := List.forall_mem_cons.mp h
    unfold Scope.putBinding
    split
    · exact List.forall_mem_cons.mpr ⟨hvalue, hrest⟩
    · exact List.forall_mem_cons.mpr ⟨hfirst, ih hrest⟩

theorem Holds.define (h : Holds V store) (s : ScopeId) (name : Name) {value : α} (hvalue : V value) :
    Holds V (store.define s name value) := by
  intro scope hscope
  obtain ⟨i, hi, rfl⟩ := Array.mem_iff_getElem.mp hscope
  simp only [Store.define, Array.size_modify] at hi
  simp only [Store.define, Array.getElem_modify]
  have hold := h _ (Array.getElem_mem hi)
  split
  · exact forall_mem_putBinding name hvalue hold
  · exact hold

theorem Holds.bindings (h : Holds V store) (s : ScopeId) : ∀ b ∈ store.bindings s, V b.2 := by
  intro b hb
  unfold Store.bindings at hb
  cases hscope : store.scopes[s]? with
  | none => simp [hscope] at hb
  | some scope =>
    rw [hscope] at hb
    exact h scope (Array.mem_of_getElem? hscope) b hb

theorem Holds.get? (h : Holds V store) {s : ScopeId} {name : Name} {value : α} (hget : store.get? s name = some value) :
    V value := by
  obtain ⟨t, -, hlookup⟩ := Option.bind_eq_some_iff.mp hget
  obtain ⟨before, after, hbindings, -⟩ := List.lookup_eq_some_iff.mp hlookup
  exact h.bindings t (name, value) (by simp [hbindings])

end Store

/-! ### Values -/

namespace Value

/-- A value that statements with tokens that satisfy `P` can make. -/
inductive IsOf (P : Token → Prop) : Value → Prop
  | nil : IsOf P .nil
  | bool (b : Bool) : IsOf P (.bool b)
  | num (x : Number) : IsOf P (.num x)
  | str (s : String) : IsOf P (.str s)
  | clock : IsOf P .clock
  | function {f : Closure} {params : List Token} (hparams : f.params = params.map .token) (htokens : ∀ p ∈ params, P p)
      (hbody : ∀ s ∈ f.body, s.IsStatementOf P) : IsOf P (.function f)

theorem IsOf.text {v : Value} (h : v.IsOf P) : ∃ text, v.text = .ok text := by
  cases h <;> exact ⟨_, rfl⟩

theorem isOf_ofNode {n : Node} (h : n.scalar?.isSome = true) : (ofNode n).IsOf P := by
  cases n with
  | null => exact .nil
  | bool b => exact .bool b
  | num x => exact .num x
  | str s => exact .str s
  | _ => cases h

end Value

/-! ### Errors and states -/

/-- What can go wrong at a token of a parsed program. -/
inductive Cause.OccursAt (t : Token) : Cause → Prop
  | operandNotNumber : OccursAt t .operandNotNumber
  | operandsNotNumbers : OccursAt t .operandsNotNumbers
  | operandsNotAddable : OccursAt t .operandsNotAddable
  | undefined : OccursAt t (.undefined t.text)
  | notCallable : OccursAt t .notCallable
  | arity {expected given : Nat} (h : given ≠ expected) : OccursAt t (.arity expected given)
  | stackOverflow : OccursAt t .stackOverflow

structure State.IsOf (P : Token → Prop) (st : State) : Prop where
  values : st.store.Holds (Value.IsOf P)
  calls : ∀ n ∈ st.calls, ∃ t, n = .token t ∧ P t

/-- How a parsed program can stop early in a state. -/
inductive Stop.IsOf (P : Token → Prop) (st : State) : Stop → Prop
  | error {t : Token} {cause : Cause} (ht : P t) (hcause : cause.OccursAt t) : IsOf P st (.error ⟨some t, cause⟩)
  | exhausted (h : st.calls ≠ []) : IsOf P st .exhausted
  | outOfFuel : IsOf P st .outOfFuel

theorem State.isOf_initial (level : Nat) (canTrace : Bool) (clock : Nat → Number) :
    (State.initial level canTrace clock).IsOf P where
  values := Store.Holds.root.define _ _ .clock
  calls _ hn := absurd hn List.not_mem_nil

/-! ### Safe computations -/

namespace Eval

/-- The computation keeps the invariant, gives what satisfies `Q`, and stops early only in known ways. -/
def Safe (P : Token → Prop) (Q : α → Prop) (m : Eval α) : Prop :=
  ∀ st, st.IsOf P → match m st with
    | .ok a st' => st'.IsOf P ∧ Q a
    | .error stop st' => st'.IsOf P ∧ stop.IsOf P st'

namespace Safe

variable {Q : α → Prop} {R : β → Prop} {m : Eval α} {f : α → Eval β}

theorem bind (hm : Safe P Q m) (hf : ∀ a, Q a → Safe P R (f a)) : Safe P R (m >>= f) := by
  intro st hst
  have hfirst := hm st hst
  simp only [Bind.bind, EStateM.bind]
  cases hrun : m st with
  | ok a st' =>
    rw [hrun] at hfirst
    exact hf a hfirst.2 st' hfirst.1
  | error stop st' =>
    rw [hrun] at hfirst
    exact hfirst

theorem pure {a : α} (h : Q a) : Safe P Q (Pure.pure a) := fun _ hst => ⟨hst, h⟩

theorem outOfFuel : Safe P Q (throw .outOfFuel) := fun _ hst => ⟨hst, .outOfFuel⟩

theorem raise {t : Token} {cause : Cause} (ht : P t) (hcause : cause.OccursAt t) : Safe P Q (Eval.raise (some t) cause) :=
  fun _ hst => ⟨hst, .error ht hcause⟩

/-- A computation that depends on the state it starts in. -/
theorem look {q : State → Eval β} (h : ∀ st, st.IsOf P → Safe P R (q st)) : Safe P R (get >>= q) :=
  fun st hst => h st hst st hst

/-- A step that always goes on. -/
theorem step {g : State → State} (h : ∀ st, st.IsOf P → (g st).IsOf P) : Safe P (fun _ => True) (modify g) :=
  fun st hst => ⟨h st hst, trivial⟩

theorem traceAt {level : Nat} {record : Unit → Except Fault String} (h : ∃ text, record () = .ok text) :
    Safe P (fun _ => True) (Eval.traceAt level record) := by
  obtain ⟨text, htext⟩ := h
  refine .look fun st _ => ?_
  split
  · rw [htext]
    exact .step fun st hst => ⟨hst.values, hst.calls⟩
  · exact .pure trivial

theorem write (text : String) : Safe P (fun _ => True) (Eval.write text) :=
  .step fun _ hst => ⟨hst.values, hst.calls⟩

theorem openScope (parent : ScopeId) : Safe P (fun _ => True) (Eval.openScope parent) :=
  fun _ hst => ⟨⟨hst.values.child parent, hst.calls⟩, trivial⟩

theorem define {value : Value} (scope : ScopeId) (name : Name) (hvalue : value.IsOf P) :
    Safe P (fun _ => True) (Eval.define scope name value) :=
  .step fun _ hst => ⟨hst.values.define scope name hvalue, hst.calls⟩

theorem closure {params : List Token} {body : List Node} (scope : ScopeId) (name : String) (hparams : ∀ p ∈ params, P p)
    (hbody : ∀ s ∈ body, s.IsStatementOf P) :
    Safe P (Value.IsOf P) (Eval.closure scope name (params.map .token) body) :=
  fun _ hst => ⟨⟨hst.values, hst.calls⟩, .function rfl hparams hbody⟩

theorem enterCall {t : Token} (ht : P t) : Safe P (fun _ => True) (Eval.enterCall (.token t)) :=
  .step fun _ hst => ⟨hst.values, List.forall_mem_cons.mpr ⟨⟨t, rfl, ht⟩, hst.calls⟩⟩

theorem leaveCall : Safe P (fun _ => True) Eval.leaveCall :=
  .step fun _ hst => ⟨hst.values, fun n hn => hst.calls n (List.mem_of_mem_tail hn)⟩

theorem readClock : Safe P (Value.IsOf P) Eval.readClock :=
  fun _ hst => ⟨⟨hst.values, hst.calls⟩, .num _⟩

/-! ### Lists of computations -/

theorem mapM {γ : Type} {g : γ → Eval α} {xs : List γ} (h : ∀ x ∈ xs, Safe P Q (g x)) :
    Safe P (fun as => ∀ a ∈ as, Q a) (xs.mapM g) := by
  induction xs with
  | nil => exact .pure (by simp)
  | cons x xs ih =>
    obtain ⟨hx, hxs⟩ := List.forall_mem_cons.mp h
    rw [List.mapM_cons]
    refine hx.bind fun a ha => (ih hxs).bind fun as has => .pure ?_
    exact List.forall_mem_cons.mpr ⟨ha, has⟩

theorem untilReturn {Q : Value → Prop} {step : Node → Eval (Option Value)} {statements : List Node}
    (h : ∀ s ∈ statements, Safe P (fun o => ∀ v ∈ o, Q v) (step s)) :
    Safe P (fun o => ∀ v ∈ o, Q v) (Eval.untilReturn step statements) := by
  induction statements with
  | nil => exact .pure (by simp)
  | cons s rest ih =>
    obtain ⟨hs, hrest⟩ := List.forall_mem_cons.mp h
    refine hs.bind fun o ho => ?_
    cases o with
    | none => exact ih hrest
    | some v => exact .pure ho

theorem forM {γ : Type} {g : γ → Eval Unit} {xs : List γ} (h : ∀ x ∈ xs, Safe P (fun _ => True) (g x)) :
    Safe P (fun _ => True) (xs.forM g) := by
  induction xs with
  | nil => exact .pure trivial
  | cons x xs ih =>
    obtain ⟨hx, hxs⟩ := List.forall_mem_cons.mp h
    exact hx.bind fun _ _ => ih hxs

end Safe

/-! ### Tokens and operators -/

def Named (P : Token → Prop) : Prop := ∀ t, P t → ∃ name, t.lexeme = .str name

theorem needToken_token (t : Token) : needToken (.token t) = pure t := rfl

theorem nameOf_eq {t : Token} {name : String} (h : t.lexeme = .str name) : nameOf t = pure (.text name) := by
  simp only [nameOf, h, Json.name?]

theorem Safe.lookup (hP : Named P) (scope : ScopeId) {t : Token} (ht : P t) : Safe P (Value.IsOf P) (Eval.lookup scope t) := by
  obtain ⟨name, hname⟩ := hP t ht
  rw [Eval.lookup, nameOf_eq hname, pure_bind]
  refine .look fun st hst => ?_
  cases hget : st.store.get? scope (.text name) with
  | none => exact .raise ht .undefined
  | some value => exact .pure (hst.values.get? hget)

theorem Safe.assign (hP : Named P) (scope : ScopeId) {t : Token} {value : Value} (ht : P t) (hvalue : value.IsOf P) :
    Safe P (fun _ => True) (Eval.assign scope t value) := by
  obtain ⟨name, hname⟩ := hP t ht
  rw [Eval.assign, nameOf_eq hname, pure_bind]
  refine .look fun st hst => ?_
  cases st.store.resolve? scope (.text name) with
  | none => exact .raise ht .undefined
  | some target => exact .define target _ hvalue

theorem Safe.applyUnary {t : Token} (ht : P t) (hkind : Grammar.isSign t.kind = true) (right : Value) :
    Safe P (Value.IsOf P) (Eval.applyUnary t right) := by
  unfold Eval.applyUnary
  split
  · exact .pure (.bool _)
  · split
    · exact .pure (.num _)
    · exact .raise ht .operandNotNumber
  next hbang hminus =>
    simp only [Grammar.isSign, Bool.or_eq_true, beq_iff_eq] at hkind
    exact (hkind.elim hbang hminus).elim

theorem Safe.applyNumeric {t : Token} (hkind : Grammar.isBinaryOperator t.kind = true) (hplus : t.kind ≠ .plus)
    (hequal : t.kind ≠ .equalEqual) (hunequal : t.kind ≠ .bangEqual) (x y : Number) :
    Safe P (Value.IsOf P) (Eval.applyNumeric t x y) := by
  unfold Eval.applyNumeric
  split
  · exact .pure (.num _)
  · exact .pure (.num _)
  · exact .pure (.num _)
  · exact .pure (.bool _)
  · exact .pure (.bool _)
  · exact .pure (.bool _)
  · exact .pure (.bool _)
  · simp_all [Grammar.isBinaryOperator, Grammar.isFactorOperator, Grammar.isTermOperator, Grammar.isComparisonOperator,
      Grammar.isEqualityOperator]

theorem Safe.applyBinary {t : Token} (ht : P t) (hkind : Grammar.isBinaryOperator t.kind = true) (left right : Value) :
    Safe P (Value.IsOf P) (Eval.applyBinary t left right) := by
  unfold Eval.applyBinary
  split
  · exact .pure (.bool _)
  · exact .pure (.bool _)
  · split
    · exact .pure (.num _)
    · exact .pure (.str _)
    · exact .raise ht .operandsNotAddable
  next hequal hunequal hplus =>
    split
    · exact .applyNumeric hkind hplus hequal hunequal _ _
    · exact .raise ht .operandsNotNumbers

/-- Expressions have source text. -/
theorem source_of_isExpressionOf (hP : Named P) {e : Node} (h : e.IsExpressionOf P) : ∃ text, e.source = .ok text := by
  induction h with
  | @literal value hvalue =>
    rw [Node.source]
    cases value with
    | null => exact ⟨_, rfl⟩
    | bool b => exact ⟨_, rfl⟩
    | num x => exact ⟨_, rfl⟩
    | str s => exact ⟨_, rfl⟩
    | _ => cases hvalue
  | grouping _ ih =>
    obtain ⟨text, htext⟩ := ih
    exact ⟨_, by rw [Node.source, htext]; rfl⟩
  | unary _ _ _ ih =>
    obtain ⟨text, htext⟩ := ih
    exact ⟨_, by rw [Node.source, htext]; rfl⟩
  | binary _ _ _ _ ihleft ihright =>
    obtain ⟨left, hleft⟩ := ihleft
    obtain ⟨right, hright⟩ := ihright
    exact ⟨_, by rw [Node.source, hleft, hright]; rfl⟩
  | logical _ _ _ ihleft ihright =>
    obtain ⟨left, hleft⟩ := ihleft
    obtain ⟨right, hright⟩ := ihright
    exact ⟨_, by rw [Node.source, hleft, hright]; rfl⟩
  | reference _ => exact ⟨_, by rw [Node.source]; rfl⟩
  | assign _ _ ih =>
    obtain ⟨text, htext⟩ := ih
    exact ⟨_, by rw [Node.source, htext]; rfl⟩
  | @call t callee arguments _ _ harguments ihcallee iharguments =>
    obtain ⟨text, htext⟩ := ihcallee
    have hsources : ∃ texts, Node.sources arguments = .ok texts := by
      clear harguments
      induction arguments with
      | nil => exact ⟨_, rfl⟩
      | cons a rest ih =>
        obtain ⟨ha, hrest⟩ := List.forall_mem_cons.mp iharguments
        obtain ⟨first, hfirst⟩ := ha
        obtain ⟨others, hothers⟩ := ih hrest
        exact ⟨_, by rw [Node.sources, hfirst, hothers]; rfl⟩
    obtain ⟨texts, htexts⟩ := hsources
    have hall : arguments.all Node.hasTextSource = true := by
      rw [List.all_eq_true]
      intro a ha
      cases harguments a ha with
      | reference ht =>
        obtain ⟨name, hname⟩ := hP _ ht
        simp only [Node.hasTextSource, hname]
      | _ => rfl
    exact ⟨_, by rw [Node.source, htexts, htext]; simp only [Node.joinArguments, hall]; rfl⟩

/-! ### Calls -/

theorem Safe.bindParams (hP : Named P) (scope : ScopeId) {params : List Token} {values : List Value}
    (hparams : ∀ p ∈ params, P p) (hvalues : ∀ v ∈ values, v.IsOf P) :
    Safe P (fun _ => True) (Eval.bindParams scope (params.map .token) values) := by
  induction params generalizing values with
  | nil => exact .pure trivial
  | cons p params ih =>
    cases values with
    | nil => exact .pure trivial
    | cons v values =>
      obtain ⟨hp, hrest⟩ := List.forall_mem_cons.mp hparams
      obtain ⟨hv, hothers⟩ := List.forall_mem_cons.mp hvalues
      obtain ⟨name, hname⟩ := hP p hp
      rw [List.map_cons, Eval.bindParams, needToken_token, pure_bind, nameOf_eq hname, pure_bind]
      exact (Safe.define scope _ hv).bind fun _ _ => ih hrest hothers

/-- A value called with a closing parenthesis, if running the body of a function is safe once the call counts as in
progress. -/
theorem Safe.callValue {invoke : Closure → List Value → Eval (Option Value)} {callee : Value} {arguments : List Value}
    {t : Token} (ht : P t) (hcallee : callee.IsOf P)
    (hinvoke : ∀ f, Value.IsOf P (.function f) →
      Safe P (fun o => ∀ v ∈ o, v.IsOf P) (Eval.enterCall (.token t) >>= fun _ => invoke f arguments)) :
    Safe P (Value.IsOf P) (Eval.callValue invoke callee arguments (.token t)) := by
  have hrecord : ∃ text, callRecord callee arguments.length (.token t) = .ok text := by
    obtain ⟨text, htext⟩ := hcallee.text
    exact ⟨_, by rw [callRecord, htext]; rfl⟩
  have hleave {v : Value} (hv : v.IsOf P) : Safe P (Value.IsOf P) (Eval.leaveCall >>= fun _ => Pure.pure v) :=
    Safe.leaveCall.bind fun _ _ => .pure hv
  unfold Eval.callValue
  cases hcallee with
  | @function f params hparams htokens hbody =>
    dsimp only [arity?]
    split
    next hne => exact .raise ht (.arity hne)
    next =>
      refine (Safe.traceAt hrecord).bind fun _ _ => ?_
      -- The call and the body behind it go together, for only a call in progress makes the body safe.
      rw [← bind_assoc]
      refine (hinvoke f (.function hparams htokens hbody)).bind fun returned hreturned => ?_
      rw [pure_bind]
      cases returned with
      | none => exact hleave .nil
      | some v => exact hleave (hreturned v rfl)
  | clock =>
    dsimp only [arity?]
    split
    next hne => exact .raise ht (.arity hne)
    next =>
      refine (Safe.traceAt hrecord).bind fun _ _ => (Safe.enterCall ht).bind fun _ _ => ?_
      exact Safe.readClock.bind fun v hv => hleave hv
  | _ => exact .raise ht .notCallable

/-! ### Evaluation -/

/-- What is shown of the three computations within one bound of their depth. -/
structure SafeWithin (P : Token → Prop) (fuel : Nat) : Prop where
  eval : ∀ calls scope {e : Node}, e.IsExpressionOf P → Safe P (Value.IsOf P) (Eval.eval fuel calls scope e)
  exec : ∀ calls scope {s : Node}, s.IsStatementOf P →
    Safe P (fun o => ∀ v ∈ o, v.IsOf P) (Eval.exec fuel calls scope s)
  invoke : ∀ calls {f : Closure} {arguments : List Value} {t : Token}, P t → Value.IsOf P (.function f) →
    (∀ v ∈ arguments, v.IsOf P) →
    Safe P (fun o => ∀ v ∈ o, v.IsOf P) (enterCall (.token t) >>= fun _ => Eval.invoke fuel calls f arguments)

theorem SafeWithin.eval_succ (hP : Named P) {fuel : Nat} (ih : SafeWithin P fuel) (calls : Nat) (scope : ScopeId) {e : Node}
    (h : e.IsExpressionOf P) : Safe P (Value.IsOf P) (Eval.eval (fuel + 1) calls scope e) := by
  cases h with
  | literal hvalue => exact .pure (Value.isOf_ofNode hvalue)
  | grouping hinner => exact ih.eval calls scope hinner
  | reference ht => exact .lookup hP scope ht
  | assign ht hvalue =>
    refine (ih.eval calls scope hvalue).bind fun value hv => ?_
    exact (Safe.assign hP scope ht hv).bind fun _ _ => .pure hv
  | logical ht hleft hright =>
    refine (ih.eval calls scope hleft).bind fun left hv => ?_
    rw [needToken_token, pure_bind]
    split
    · exact .pure hv
    · exact ih.eval calls scope hright
  | unary ht hkind hright =>
    exact (ih.eval calls scope hright).bind fun right _ => .applyUnary ht hkind right
  | binary ht hkind hleft hright =>
    refine (ih.eval calls scope hleft).bind fun left _ => ?_
    exact (ih.eval calls scope hright).bind fun right _ => .applyBinary ht hkind left right
  | call ht hcallee harguments =>
    refine (ih.eval calls scope hcallee).bind fun callee hv => ?_
    refine (Safe.mapM fun a ha => ih.eval calls scope (harguments a ha)).bind fun values hvalues => ?_
    exact .callValue ht hv fun f hf => ih.invoke calls ht hf hvalues

theorem SafeWithin.exec_succ (hP : Named P) {fuel : Nat} (ih : SafeWithin P fuel) (calls : Nat) (scope : ScopeId) {s : Node}
    (h : s.IsStatementOf P) : Safe P (fun o => ∀ v ∈ o, v.IsOf P) (Eval.exec (fuel + 1) calls scope s) := by
  have hnone : Safe P (fun o : Option Value => ∀ v ∈ o, v.IsOf P) (pure none) := .pure (by simp)
  cases h with
  | expression hvalue => exact (ih.eval calls scope hvalue).bind fun _ _ => hnone
  | print hvalue =>
    refine (ih.eval calls scope hvalue).bind fun value hv => ?_
    obtain ⟨text, htext⟩ := hv.text
    rw [htext]
    exact (Safe.write _).bind fun _ _ => hnone
  | @var t initial ht hinitial =>
    obtain ⟨name, hname⟩ := hP t ht
    have hdeclare {v : Value} (hv : v.IsOf P) : Safe P (fun o : Option Value => ∀ v ∈ o, v.IsOf P) (do
        define scope (.text name) v
        traceAt 2 fun _ => do return "declare " ++ t.text ++ " = " ++ (← v.text)
        pure none) := by
      obtain ⟨text, htext⟩ := hv.text
      refine (Safe.define scope _ hv).bind fun _ _ => (Safe.traceAt ?_).bind fun _ _ => hnone
      exact ⟨_, by rw [htext]; rfl⟩
    have hnamed : nameOf t = pure (.text name) := nameOf_eq hname
    rcases hinitial with rfl | hinitial
    · simpa only [Eval.exec, Node.isAbsent, if_true, needToken_token, hnamed, pure_bind] using hdeclare .nil
    · have habsent : initial.isAbsent = false := by cases hinitial <;> rfl
      simp only [Eval.exec, habsent, Bool.false_eq_true, if_false, needToken_token, hnamed, pure_bind]
      exact (ih.eval calls scope hinitial).bind fun v hv => hdeclare hv
  | block hstatements =>
    exact (Safe.openScope scope).bind fun inner _ => .untilReturn fun s hs => ih.exec calls inner (hstatements s hs)
  | branch hcondition hyes =>
    refine (ih.eval calls scope hcondition).bind fun value _ => (Safe.traceAt ?_).bind fun _ _ => ?_
    · obtain ⟨text, htext⟩ := source_of_isExpressionOf hP hcondition
      exact ⟨_, by rw [htext]; rfl⟩
    · split
      · exact ih.exec calls scope hyes
      · exact hnone
  | branchElse hcondition hyes hno =>
    refine (ih.eval calls scope hcondition).bind fun value _ => (Safe.traceAt ?_).bind fun _ _ => ?_
    · obtain ⟨text, htext⟩ := source_of_isExpressionOf hP hcondition
      exact ⟨_, by rw [htext]; rfl⟩
    · split
      · exact ih.exec calls scope hyes
      · split
        · exact hnone
        · exact ih.exec calls scope hno
  | loop hcondition hbody =>
    refine (ih.eval calls scope hcondition).bind fun value _ => ?_
    split
    · refine (Safe.traceAt ?_).bind fun _ _ => ?_
      · obtain ⟨text, htext⟩ := source_of_isExpressionOf hP hcondition
        exact ⟨_, by rw [htext]; rfl⟩
      · refine (ih.exec calls scope hbody).bind fun o ho => ?_
        cases o with
        | some v => exact .pure ho
        | none => exact ih.exec calls scope (.loop hcondition hbody)
    · exact hnone
  | @function t params body ht hparams hbody =>
    obtain ⟨name, hname⟩ := hP t ht
    simp only [Eval.exec, needToken_token, nameOf_eq hname, pure_bind]
    refine (Safe.closure scope t.text hparams hbody).bind fun f hf => ?_
    refine (Safe.define scope _ hf).bind fun _ _ => (Safe.traceAt ⟨_, rfl⟩).bind fun _ _ => hnone
  | @ret t value ht hvalue =>
    rcases hvalue with rfl | hvalue
    · exact .pure (by simpa using Value.IsOf.nil)
    · have habsent : value.isAbsent = false := by cases hvalue <;> rfl
      simp only [Eval.exec, habsent, Bool.false_eq_true, if_false]
      exact (ih.eval calls scope hvalue).bind fun v hv => .pure (by simpa using hv)

/-- A call in progress may be one too many; otherwise its body runs in a scope of its own. -/
theorem SafeWithin.invoke_succ (hP : Named P) {fuel : Nat} (ih : SafeWithin P fuel) (calls : Nat) {f : Closure}
    {arguments : List Value} {t : Token} (ht : P t) (hf : Value.IsOf P (.function f))
    (harguments : ∀ v ∈ arguments, v.IsOf P) :
    Safe P (fun o => ∀ v ∈ o, v.IsOf P) (enterCall (.token t) >>= fun _ => Eval.invoke (fuel + 1) calls f arguments) := by
  cases calls with
  | zero =>
    intro st hst
    exact ⟨⟨hst.values, List.forall_mem_cons.mpr ⟨⟨t, rfl, ht⟩, hst.calls⟩⟩, .exhausted (List.cons_ne_nil _ _)⟩
  | succ calls =>
    obtain ⟨id, name, _, body, parent⟩ := f
    cases hf with
    | function hparams htokens hbody =>
      dsimp only at hparams hbody
      subst hparams
      refine (Safe.enterCall ht).bind fun _ _ => (Safe.openScope parent).bind fun scope _ => ?_
      refine (Safe.bindParams hP scope htokens harguments).bind fun _ _ => ?_
      exact .untilReturn fun s hs => ih.exec calls scope (hbody s hs)

theorem safeWithin (hP : Named P) (fuel : Nat) : SafeWithin P fuel := by
  induction fuel with
  | zero =>
    refine ⟨fun _ _ _ _ => .outOfFuel, fun _ _ _ _ => .outOfFuel, fun _ _ _ _ ht _ _ => ?_⟩
    exact (Safe.enterCall ht).bind fun _ _ => .outOfFuel
  | succ fuel ih => exact ⟨fun calls scope _ h => ih.eval_succ hP calls scope h,
      fun calls scope _ h => ih.exec_succ hP calls scope h,
      fun calls _ _ _ ht hf harguments => ih.invoke_succ hP calls ht hf harguments⟩

theorem Safe.execAll (hP : Named P) (room : Room) {program : List Node} (h : ∀ s ∈ program, s.IsStatementOf P) :
    Safe P (fun _ => True) (Eval.execAll room program) :=
  .forM fun s hs => ((safeWithin hP room.depth).exec room.calls State.globals (h s hs)).bind fun _ _ => .pure trivial

end Eval

/-! ### Runs -/

inductive RunEnd.IsOf (P : Token → Prop) : RunEnd → Prop
  | finished : IsOf P .finished
  | failed {t : Token} {cause : Cause} (ht : P t) (hcause : cause.OccursAt t) : IsOf P (.failed t cause)
  | outOfFuel : IsOf P .outOfFuel

namespace State

theorem IsOf.note {st : State} (h : st.IsOf P) (record : String) : (st.note record).IsOf P := by
  unfold State.note
  split
  · exact ⟨h.values, h.calls⟩
  · exact h

theorem IsOf.failAt {st : State} {t : Token} {cause : Cause} (h : st.IsOf P) (ht : P t) (hcause : cause.OccursAt t) :
    (st.failAt (some t) cause).1.IsOf P ∧ (st.failAt (some t) cause).2.IsOf P := by
  have hclear : State.IsOf P { st with calls := [] } := ⟨h.values, fun _ hn => absurd hn List.not_mem_nil⟩
  unfold State.failAt
  dsimp only
  split
  · exact ⟨.failed ht hcause, hclear⟩
  · exact ⟨.failed ht hcause, hclear.note _⟩

theorem IsOf.stopRun {st : State} {stop : Stop} (h : st.IsOf P) (hstop : stop.IsOf P st) :
    (st.stopRun stop).1.IsOf P ∧ (st.stopRun stop).2.IsOf P := by
  cases hstop with
  | error ht hcause => exact h.failAt ht hcause
  | outOfFuel => exact ⟨.outOfFuel, h⟩
  | exhausted hcalls =>
    cases hstack : st.calls with
    | nil => exact absurd hstack hcalls
    | cons paren others =>
      obtain ⟨t, rfl, ht⟩ := h.calls paren (by simp [hstack])
      simp only [State.stopRun, hstack]
      exact h.failAt ht .stackOverflow

/-- A run of statements ends with the last one, with an error at one of their tokens, or out of fuel. -/
theorem IsOf.run {st : State} (hP : Eval.Named P) (room : Room) {program : List Node}
    (hprogram : ∀ s ∈ program, s.IsStatementOf P) (h : st.IsOf P) (htrace : st.isUntraceable = false) :
    (st.run room program).1.IsOf P ∧ (st.run room program).2.IsOf P := by
  have hsafe := Eval.Safe.execAll hP room hprogram _ (h.note ("run: " ++ toString program.length ++ " statement(s)"))
  simp only [State.run, htrace, Bool.false_eq_true, if_false]
  cases hrun : Eval.execAll room program (st.note ("run: " ++ toString program.length ++ " statement(s)")) with
  | ok _ st' =>
    rw [hrun] at hsafe
    exact ⟨.finished, hsafe.1.note _⟩
  | error stop st' =>
    rw [hrun] at hsafe
    exact hsafe.1.stopRun hsafe.2

end State

end LoxLang
