import LoxLang.Proofs.Eval.Frame
import LoxLang.Proofs.Scope.Alignment
/-!
# Runs in aligned stores

A tree is run alike in two scopes of one number, whatever extra scopes there are: the results are aligned,
the same is printed, an error is the same error, and the stores are aligned again when the runs end. New
scopes get numbers as they are opened, so a run extends the numbering it began with.

A statement that declares names needs twins to run in, since an extra scope has to stay empty. What is
traced is of no account.

The two runs may be given different fuel, and then it is said which of them may run out of it before the
other. Where that one does, nothing is said of the other.
-/

namespace LoxLang

/-- States of which a program can tell only how many empty scopes there are. -/
structure State.Aligned (n : Numbering) (st st' : State) : Prop where
  store : st.store.Aligned n st'.store
  nextId : st.nextId = st'.nextId
  output : st.output = st'.output
  level : st.level = st'.level
  calls : st.calls = st'.calls
  clock : st.clock = st'.clock
  readings : st.readings = st'.readings

theorem State.aligned_self {st : State} (h : st.store.WellScoped) : st.Aligned (.identity st.store.next) st :=
  ⟨h.aligned, rfl, rfl, rfl, rfl, rfl, rfl⟩

namespace Eval

variable {α β γ δ : Type} {n n' : Numbering}

/-- Which of two runs may run out of fuel before the other. -/
inductive Side where
  | left
  | right
  | either
deriving DecidableEq

/-- The run on the given side has no more fuel than the other; if it is the one on the right, the other has so much
more. -/
def Side.Less (side : Side) (more fuel fuel' : Nat) : Prop :=
  match side with
  | left => fuel ≤ fuel'
  | right => fuel' + more ≤ fuel
  | either => True

variable {side : Side}

namespace Side.Less

variable {more fuel fuel' : Nat}

theorem fewer (h : side.Less (more + 1) fuel fuel') : side.Less more fuel fuel' := by
  cases side with
  | left => exact h
  | right => exact Nat.le_of_succ_le h
  | either => trivial

/-- What is more on the left pays for a step that only the run on the left takes. -/
theorem stepLeft (h : side.Less (more + 1) (fuel + 1) fuel') : side.Less more fuel fuel' := by
  cases side with
  | left => exact Nat.le_of_succ_le h
  | right => exact Nat.le_of_succ_le_succ h
  | either => trivial

theorem step (h : side.Less more (fuel + 1) (fuel' + 1)) : side.Less more fuel fuel' := by
  cases side with
  | left => exact Nat.le_of_succ_le_succ h
  | right => exact Nat.le_of_succ_le_succ (Nat.succ_add fuel' more ▸ h)
  | either => trivial

end Side.Less

/-- How two runs end in aligned states. Where a run is out of fuel nothing is said about the other one, if it may be the
first to run out. -/
inductive EndsAligned (side : Side) (n : Numbering) (Q : Numbering → α → β → Prop) :
    EStateM.Result Stop State α → EStateM.Result Stop State β → Prop
  | ok {n' : Numbering} {a : α} {b : β} {st st' : State} (hgrows : n.Grows n') (hst : st.Aligned n' st')
      (h : Q n' a b) : EndsAligned side n Q (.ok a st) (.ok b st')
  | stopped {n' : Numbering} {st st' : State} (hgrows : n.Grows n') (hst : st.Aligned n' st') (stop : Stop) :
      EndsAligned side n Q (.error stop st) (.error stop st')
  | outLeft (hside : side ≠ .right) (st : State) (r : EStateM.Result Stop State β) :
      EndsAligned side n Q (.error .outOfFuel st) r
  | outRight (hside : side ≠ .left) (r : EStateM.Result Stop State α) (st' : State) :
      EndsAligned side n Q r (.error .outOfFuel st')

theorem EndsAligned.later {Q : Numbering → α → β → Prop} {r : EStateM.Result Stop State α}
    {r' : EStateM.Result Stop State β} (h : EndsAligned side n' Q r r') (hgrows : n.Grows n') :
    EndsAligned side n Q r r' := by
  cases h with
  | ok hgrows' hst h => exact .ok (hgrows.trans hgrows') hst h
  | stopped hgrows' hst stop => exact .stopped (hgrows.trans hgrows') hst stop
  | outLeft hside st => exact .outLeft hside st _
  | outRight hside _ st' => exact .outRight hside _ st'

/-- From states that are aligned by an extension of the numbering, the computations end in aligned states. -/
def RunsAligned (side : Side) (n : Numbering) (Q : Numbering → α → β → Prop) (m : Eval α) (m' : Eval β) : Prop :=
  ∀ n' st st', n.Grows n' → st.Aligned n' st' → EndsAligned side n' Q (m st) (m' st')

/-- The same results on both sides. -/
def Equal (_ : Numbering) (a b : α) : Prop := a = b

/-- Aligned values, or none on both sides. -/
def AlignedReturn (n : Numbering) : Option Value → Option Value → Prop := Option.Rel (Value.Aligned n)

namespace RunsAligned

variable {Q : Numbering → α → β → Prop} {T : Numbering → γ → δ → Prop} {m : Eval α} {m' : Eval β}

theorem bind {f : α → Eval γ} {f' : β → Eval δ} (hm : RunsAligned side n Q m m')
    (hf : ∀ a b n', n.Grows n' → Q n' a b → RunsAligned side n' T (f a) (f' b)) :
    RunsAligned side n T (m >>= f) (m' >>= f') := by
  intro n' st st' hgrows hst
  have hfirst := hm n' st st' hgrows hst
  simp only [Bind.bind, EStateM.bind]
  generalize m st = r at hfirst
  generalize m' st' = r' at hfirst
  cases hfirst with
  | ok hgrows' hst h =>
    have hrest := hf _ _ _ (hgrows.trans hgrows') h _ _ _ (.refl _) hst
    exact hrest.later hgrows'
  | stopped hgrows' hst stop => exact .stopped hgrows' hst stop
  | outLeft hside st => exact .outLeft hside st _
  | outRight hside _ st' => exact .outRight hside _ st'

/-- The computations go on from one and the same result. -/
theorem bind_equal {f : α → Eval γ} {f' : α → Eval δ} {m m' : Eval α} (hm : RunsAligned side n Equal m m')
    (hf : ∀ a n', n.Grows n' → RunsAligned side n' T (f a) (f' a)) : RunsAligned side n T (m >>= f) (m' >>= f') := by
  refine hm.bind fun a b n' hgrows heq => ?_
  obtain rfl : a = b := heq
  exact hf a n' hgrows

/-! ### Single steps -/

theorem pure {a : α} {b : β} (h : ∀ n', n.Grows n' → Q n' a b) : RunsAligned side n Q (Pure.pure a) (Pure.pure b) :=
  fun _ _ _ hgrows hst => .ok (.refl _) hst (h _ hgrows)

theorem throw (stop : Stop) : RunsAligned side n Q (MonadExcept.throw stop) (MonadExcept.throw stop) :=
  fun _ _ _ _ hst => .stopped (.refl _) hst stop

theorem outLeft (hside : side ≠ .right) (m' : Eval β) : RunsAligned side n Q (MonadExcept.throw .outOfFuel) m' :=
  fun _ st _ _ _ => .outLeft hside st _

theorem outRight (hside : side ≠ .left) (m : Eval α) : RunsAligned side n Q m (MonadExcept.throw .outOfFuel) :=
  fun _ _ st' _ _ => .outRight hside _ st'

theorem noneLeft {more fuel' : Nat} (h : side.Less (more + 1) 0 fuel') (m' : Eval β) :
    RunsAligned side n Q (MonadExcept.throw .outOfFuel) m' := by
  cases side with
  | left | either => exact .outLeft (by decide) m'
  | right => exact absurd h (Nat.not_succ_le_zero _)

theorem noneRight {more fuel : Nat} (h : side.Less more (fuel + 1) 0) (m : Eval α) :
    RunsAligned side n Q m (MonadExcept.throw .outOfFuel) := by
  cases side with
  | left => exact absurd h (Nat.not_succ_le_zero _)
  | right | either => exact .outRight (by decide) m

theorem look {f : State → Eval γ} {f' : State → Eval δ}
    (h : ∀ n' st st', n.Grows n' → st.Aligned n' st' → RunsAligned side n' T (f st) (f' st')) :
    RunsAligned side n T (get >>= f) (get >>= f') :=
  fun n' st st' hgrows hst => h n' st st' hgrows hst n' st st' (.refl _) hst

/-- A step that leaves the store alone. -/
theorem step {g : State → State} (h : ∀ n' st st', st.Aligned n' st' → (g st).Aligned n' (g st')) :
    RunsAligned side n Equal (modify g) (modify g) :=
  fun n' st st' _ hst => .ok (.refl _) (h n' st st' hst) rfl

theorem orFault (r : Except Fault α) : RunsAligned side n Equal (Eval.orFault r) (Eval.orFault r) := by
  cases r with
  | ok a => exact .pure fun _ _ => rfl
  | error f => exact .throw _

theorem traceAt {level : Nat} (record : Unit → Except Fault String) :
    RunsAligned side n Equal (Eval.traceAt level record) (Eval.traceAt level record) := by
  refine .look fun n' st st' _ hst => ?_
  rw [hst.level]
  split
  · refine (orFault (record ())).bind_equal fun text n'' _ => .step fun n' st st' hst => ?_
    exact { hst with }
  · exact .pure fun _ _ => rfl

/-- A record that only the first run writes changes nothing but the trace. -/
theorem traceAt_left {level : Nat} {record : Unit → Except Fault String} {f : Unit → Eval γ} {m' : Eval δ}
    (hrecord : ∃ text, record () = .ok text) (h : RunsAligned side n T (f ()) m') :
    RunsAligned side n T (Eval.traceAt level record >>= f) m' := by
  intro n' st st' hgrows hst
  obtain ⟨text, htext⟩ := hrecord
  have htrace : ∃ trace, Eval.traceAt level record st = .ok () { st with trace := trace } := by
    change ∃ trace, (if level ≤ st.level then Eval.orFault (record ()) >>= _ else _ : Eval Unit) st = _
    rw [htext]
    split
    · exact ⟨st.trace.write text, rfl⟩
    · exact ⟨st.trace, rfl⟩
  obtain ⟨trace, htrace⟩ := htrace
  simp only [Bind.bind, EStateM.bind, htrace]
  exact h n' _ st' hgrows { hst with }

theorem write (text : String) : RunsAligned side n Equal (Eval.write text) (Eval.write text) :=
  .step fun _ _ _ hst => { hst with output := congrArg (·.push text) hst.output }

theorem enterCall (paren : Node) : RunsAligned side n Equal (Eval.enterCall paren) (Eval.enterCall paren) :=
  .step fun _ _ _ hst => { hst with calls := congrArg (paren :: ·) hst.calls }

theorem leaveCall : RunsAligned side n Equal Eval.leaveCall Eval.leaveCall :=
  .step fun _ _ _ hst => { hst with calls := congrArg List.tail hst.calls }

theorem readClock : RunsAligned side n Value.Aligned Eval.readClock Eval.readClock := by
  intro n' st st' _ hst
  refine .ok (.refl _) { hst with readings := congrArg (· + 1) hst.readings } ?_
  rw [hst.clock, hst.readings]
  exact .num _

theorem closure {a b : ScopeId} (hsame : n.Same a b) (name : String) (params body : List Node) :
    RunsAligned side n Value.Aligned (Eval.closure a name params body) (Eval.closure b name params body) := by
  intro n' st st' hgrows hst
  refine .ok (.refl _) { hst with nextId := congrArg (· + 1) hst.nextId } ?_
  rw [hst.nextId]
  exact .function _ (hgrows.same hsame)

/-! ### Scopes -/

theorem define {a b : ScopeId} {v v' : Value} (htwins : n.Twins a b) (name : Name) (hv : v.Aligned n v') :
    RunsAligned side n Equal (Eval.define a name v) (Eval.define b name v') := by
  intro n' st st' hgrows hst
  exact .ok (.refl _) { hst with store := hst.store.define (hgrows.twins htwins) name (hv.mono hgrows) } rfl

theorem openScope {a b : ScopeId} (hsame : n.Same a b) :
    RunsAligned side n Numbering.Twins (Eval.openScope a) (Eval.openScope b) := by
  intro n' st st' hgrows hst
  obtain ⟨n'', hgrows', hstore, htwins⟩ := hst.store.child (hgrows.same hsame)
  exact .ok hgrows' { hst with store := hstore } htwins

/-- Only the first run opens a scope, an extra one. -/
theorem openScope_left {a b : ScopeId} {f : ScopeId → Eval γ} {m' : Eval δ} (hsame : n.Same a b)
    (hf : ∀ inner n', n.Grows n' → n'.Same inner b → RunsAligned side n' T (f inner) m') :
    RunsAligned side n T (Eval.openScope a >>= f) m' := by
  intro n' st st' hgrows hst
  obtain ⟨n'', hgrows', hstore, hinner⟩ := hst.store.childLeft (hgrows.same hsame)
  have hopened : State.Aligned n'' { st with store := st.store.child a } st' := { hst with store := hstore }
  have hrest := hf st.store.next n'' (hgrows.trans hgrows') hinner n'' _ st' (.refl _) hopened
  exact hrest.later hgrows'

/-- Only the second run opens a scope. -/
theorem openScope_right {a b : ScopeId} {m : Eval γ} {f' : ScopeId → Eval δ} (hsame : n.Same a b)
    (hf : ∀ inner n', n.Grows n' → n'.Same a inner → RunsAligned side n' T m (f' inner)) :
    RunsAligned side n T m (Eval.openScope b >>= f') := by
  intro n' st st' hgrows hst
  obtain ⟨n'', hgrows', hstore, hinner⟩ := hst.store.childRight (hgrows.same hsame)
  have hopened : State.Aligned n'' st { st' with store := st'.store.child b } := { hst with store := hstore }
  have hrest := hf st'.store.next n'' (hgrows.trans hgrows') hinner n'' st _ (.refl _) hopened
  exact hrest.later hgrows'

/-! ### Names and operators -/

/-- Both runs ask for the same token. -/
theorem needToken {node : Node} {f : Token → Eval γ} {f' : Token → Eval δ}
    (hf : ∀ t, node.token? = some t → RunsAligned side n T (f t) (f' t)) :
    RunsAligned side n T (Eval.needToken node >>= f) (Eval.needToken node >>= f') := by
  unfold Eval.needToken Node.needToken
  cases htoken : node.token? with
  | none => exact .throw _
  | some t => exact hf t htoken

theorem nameOf {t : Token} {f : Name → Eval γ} {f' : Name → Eval δ}
    (hf : ∀ name, t.lexeme.name? = some name → RunsAligned side n T (f name) (f' name)) :
    RunsAligned side n T (Eval.nameOf t >>= f) (Eval.nameOf t >>= f') := by
  unfold Eval.nameOf
  cases hname : t.lexeme.name? with
  | none => exact .throw _
  | some name => exact hf name hname

variable {a b : ScopeId} {v v' w w' : Value}

theorem raise (site : Option Token) (cause : Cause) :
    RunsAligned side n Q (Eval.raise site cause) (Eval.raise site cause) := .throw _

theorem lookup (hsame : n.Same a b) (t : Token) :
    RunsAligned side n Value.Aligned (Eval.lookup a t) (Eval.lookup b t) := by
  refine .nameOf fun name _ => .look fun n' st st' hgrows hst => ?_
  have hget := hst.store.get? (hgrows.same hsame) name
  generalize st.store.get? a name = found at hget
  generalize st'.store.get? b name = found' at hget
  cases hget with
  | none => exact .raise _ _
  | some hv => exact .pure fun _ hgrows => hv.mono hgrows

theorem assign (hsame : n.Same a b) (t : Token) (hv : v.Aligned n v') :
    RunsAligned side n Equal (Eval.assign a t v) (Eval.assign b t v') := by
  refine .nameOf fun name _ => .look fun n' st st' hgrows hst => ?_
  have hresolve := hst.store.resolve? (hgrows.same hsame) name
  generalize st.store.resolve? a name = found at hresolve
  generalize st'.store.resolve? b name = found' at hresolve
  cases hresolve with
  | none => exact .raise _ _
  | some htwins => exact .define htwins name (hv.mono hgrows)

theorem applyUnary (t : Token) (hv : v.Aligned n v') :
    RunsAligned side n Value.Aligned (Eval.applyUnary t v) (Eval.applyUnary t v') := by
  unfold Eval.applyUnary
  rw [hv.truthy]
  split
  · exact .pure fun _ _ => .bool _
  · cases hv with
    | num x => exact .pure fun _ _ => .num _
    | _ => exact .raise _ _
  · exact .raise _ _

theorem applyNumeric (t : Token) (x y : Number) :
    RunsAligned side n Value.Aligned (Eval.applyNumeric t x y) (Eval.applyNumeric t x y) := by
  unfold Eval.applyNumeric
  split
  all_goals first | exact .pure fun _ _ => .num _ | exact .pure fun _ _ => .bool _ | exact .raise _ _

theorem applyBinary (t : Token) (hv : v.Aligned n v') (hw : w.Aligned n w') :
    RunsAligned side n Value.Aligned (Eval.applyBinary t v w) (Eval.applyBinary t v' w') := by
  unfold Eval.applyBinary
  rw [hv.equal hw]
  split
  · exact .pure fun _ _ => .bool _
  · exact .pure fun _ _ => .bool _
  · cases hv with
    | num x =>
      cases hw with
      | num y => exact .pure fun _ _ => .num _
      | _ => exact .raise _ _
    | str s =>
      cases hw with
      | str s' => exact .pure fun _ _ => .str _
      | _ => exact .raise _ _
    | _ => exact .raise _ _
  · cases hv with
    | num x =>
      cases hw with
      | num y => exact .applyNumeric t x y
      | _ => exact .raise _ _
    | _ => exact .raise _ _

/-! ### Lists of computations -/

theorem mapM {f f' : Node → Eval Value} (nodes : List Node)
    (hf : ∀ node n', n.Grows n' → RunsAligned side n' Value.Aligned (f node) (f' node)) :
    RunsAligned side n (fun n' => List.Forall₂ (Value.Aligned n')) (nodes.mapM f) (nodes.mapM f') := by
  induction nodes generalizing n with
  | nil => exact .pure fun _ _ => .nil
  | cons node rest ih =>
    rw [List.mapM_cons, List.mapM_cons]
    refine (hf node n (.refl n)).bind fun v v' n' hgrows hv => ?_
    have hrest := ih fun node n'' hgrows' => hf node n'' (hgrows.trans hgrows')
    refine hrest.bind fun values values' n'' hgrows' hvalues => .pure fun n''' hgrows'' => ?_
    exact .cons (hv.mono (hgrows'.trans hgrows'')) (hvalues.imp fun _ _ h => h.mono hgrows'')

theorem untilReturn {f f' : Node → Eval (Option Value)} (statements : List Node)
    (hf : ∀ s ∈ statements, ∀ n', n.Grows n' → RunsAligned side n' AlignedReturn (f s) (f' s)) :
    RunsAligned side n AlignedReturn (Eval.untilReturn f statements) (Eval.untilReturn f' statements) := by
  induction statements generalizing n with
  | nil => exact .pure fun _ _ => .none
  | cons s rest ih =>
    obtain ⟨hs, hrest⟩ := List.forall_mem_cons.mp hf
    refine (hs n (.refl n)).bind fun o o' n' hgrows ho => ?_
    cases ho with
    | none => exact ih fun s hmem n'' hgrows' => hrest s hmem n'' (hgrows.trans hgrows')
    | some hv => exact .pure fun _ hgrows' => .some (hv.mono hgrows')

/-! ### Calls -/

theorem bindParams (htwins : n.Twins a b) (params : List Node) {values values' : List Value}
    (hvalues : List.Forall₂ (Value.Aligned n) values values') :
    RunsAligned side n Equal (Eval.bindParams a params values) (Eval.bindParams b params values') := by
  induction params generalizing n values values' with
  | nil => exact .pure fun _ _ => rfl
  | cons param params ih =>
    cases hvalues with
    | nil => exact .pure fun _ _ => rfl
    | cons hvalue hvalues =>
      refine .needToken fun t _ => .nameOf fun name _ => ?_
      refine (define htwins name hvalue).bind_equal fun _ n' hgrows => ?_
      exact ih (hgrows.twins htwins) (hvalues.imp fun _ _ h => h.mono hgrows)

theorem callValue {invoke invoke' : Closure → List Value → Eval (Option Value)} {callee callee' : Value}
    {arguments arguments' : List Value} (paren : Node) (hcallee : callee.Aligned n callee')
    (harguments : List.Forall₂ (Value.Aligned n) arguments arguments')
    (hinvoke : ∀ f scope n', n.Grows n' → n'.Same f.scope scope → RunsAligned side n' AlignedReturn
      (invoke f arguments) (invoke' { f with scope := scope } arguments')) :
    RunsAligned side n Value.Aligned (Eval.callValue invoke callee arguments paren)
      (Eval.callValue invoke' callee' arguments' paren) := by
  have hleave {n' : Numbering} {v v' : Value} (hv : v.Aligned n' v') :
      RunsAligned side n' Value.Aligned (Eval.leaveCall >>= fun _ => Pure.pure v)
        (Eval.leaveCall >>= fun _ => Pure.pure v') :=
    leaveCall.bind_equal fun _ _ hgrows => .pure fun _ hgrows' => hv.mono (hgrows.trans hgrows')
  unfold Eval.callValue
  rw [hcallee.arity?, harguments.length_eq]
  split
  · exact .raise _ _
  split
  · exact .raise _ _
  have hrecord : Eval.callRecord callee arguments'.length paren = Eval.callRecord callee' arguments'.length paren := by
    unfold Eval.callRecord
    rw [hcallee.text]
  rw [hrecord]
  refine (traceAt _).bind_equal fun _ n₁ hgrows₁ => (enterCall paren).bind_equal fun _ n₂ hgrows₂ => ?_
  cases hcallee with
  | function f hsame =>
    have hgrows := hgrows₁.trans hgrows₂
    simp only [pure_bind]
    refine (hinvoke f _ n₂ hgrows (hgrows.same hsame)).bind fun o o' n₃ _ ho => ?_
    cases ho with
    | none => exact hleave .nil
    | some hv => exact hleave hv
  | _ => exact readClock.bind fun _ _ _ _ hv => hleave hv

end RunsAligned

/-! ### Evaluation -/

/-- What is shown of the three computations for one pair of bounds. -/
structure AlignedWithin (side : Side) (fuel fuel' : Nat) : Prop where
  eval : ∀ {n a b} calls e, n.Same a b →
    RunsAligned side n Value.Aligned (Eval.eval fuel calls a e) (Eval.eval fuel' calls b e)
  exec : ∀ {n a b} calls s, n.Same a b → (∀ name ∈ s.declared, n.Twins a b) →
    RunsAligned side n AlignedReturn (Eval.exec fuel calls a s) (Eval.exec fuel' calls b s)
  invoke : ∀ {n scope arguments arguments'} calls f, n.Same f.scope scope →
    List.Forall₂ (Value.Aligned n) arguments arguments' → RunsAligned side n AlignedReturn
      (Eval.invoke fuel calls f arguments) (Eval.invoke fuel' calls { f with scope := scope } arguments')

namespace AlignedWithin

variable {fuel fuel' : Nat} {a b : ScopeId}

theorem eval_succ (ih : AlignedWithin side fuel fuel') (calls : Nat) (e : Node) (hsame : n.Same a b) :
    RunsAligned side n Value.Aligned (Eval.eval (fuel + 1) calls a e) (Eval.eval (fuel' + 1) calls b e) := by
  cases e with
  | literal value => exact .pure fun _ _ => .ofNode value
  | grouping inner => exact ih.eval calls inner hsame
  | reference name => exact .needToken fun t _ => .lookup hsame t
  | assign name value =>
    refine (ih.eval calls value hsame).bind fun v v' n₁ hgrows₁ hv => .needToken fun t _ => ?_
    refine (RunsAligned.assign (hgrows₁.same hsame) t hv).bind_equal fun _ n₂ hgrows₂ => ?_
    exact .pure fun _ hgrows => hv.mono (hgrows₂.trans hgrows)
  | logical left operator right =>
    refine (ih.eval calls left hsame).bind fun v v' n₁ hgrows₁ hv => .needToken fun t _ => ?_
    rw [hv.truthy]
    split
    · exact .pure fun _ hgrows => hv.mono hgrows
    · exact ih.eval calls right (hgrows₁.same hsame)
  | unary operator right =>
    exact (ih.eval calls right hsame).bind fun v v' _ _ hv => .needToken fun t _ => .applyUnary t hv
  | binary left operator right =>
    refine (ih.eval calls left hsame).bind fun v v' n₁ hgrows₁ hv => ?_
    refine (ih.eval calls right (hgrows₁.same hsame)).bind fun w w' n₂ hgrows₂ hw => .needToken fun t _ => ?_
    exact .applyBinary t (hv.mono hgrows₂) hw
  | call callee paren arguments =>
    refine (ih.eval calls callee hsame).bind fun v v' n₁ hgrows₁ hv => ?_
    have harguments := RunsAligned.mapM arguments fun e n' hgrows =>
      ih.eval calls e (hgrows.same (hgrows₁.same hsame))
    refine harguments.bind fun values values' n₂ hgrows₂ hvalues => .callValue paren (hv.mono hgrows₂) hvalues ?_
    intro f scope n₃ hgrows₃ hf
    exact ih.invoke calls f hf (hvalues.imp fun _ _ h => h.mono hgrows₃)
  | _ => exact .throw _

theorem exec_succ (ih : AlignedWithin side fuel fuel') (calls : Nat) (s : Node) (hsame : n.Same a b)
    (htwins : ∀ name ∈ s.declared, n.Twins a b) :
    RunsAligned side n AlignedReturn (Eval.exec (fuel + 1) calls a s) (Eval.exec (fuel' + 1) calls b s) := by
  have hnone {n : Numbering} :
      RunsAligned side n AlignedReturn (pure none : Eval (Option Value)) (pure none) := .pure fun _ _ => .none
  have hsome {n : Numbering} {v v' : Value} (hv : v.Aligned n v') :
      RunsAligned side n AlignedReturn (pure (some v) : Eval (Option Value)) (pure (some v')) :=
    .pure fun _ hgrows => .some (hv.mono hgrows)
  cases s with
  | expression value => exact (ih.eval calls value hsame).bind fun _ _ _ _ _ => hnone
  | print value =>
    refine (ih.eval calls value hsame).bind fun v v' n₁ _ hv => ?_
    rw [hv.text]
    exact (RunsAligned.orFault _).bind_equal fun _ _ _ => (RunsAligned.write _).bind_equal fun _ _ _ => hnone
  | var name initial =>
    have hdeclare {n' : Numbering} {v v' : Value} (hgrows : n.Grows n') (hv : v.Aligned n' v') :
        RunsAligned side n' AlignedReturn (do
          let t ← needToken name
          define a (← nameOf t) v
          traceAt 2 fun _ => do return "declare " ++ t.text ++ " = " ++ (← v.text)
          pure none) (do
          let t ← needToken name
          define b (← nameOf t) v'
          traceAt 2 fun _ => do return "declare " ++ t.text ++ " = " ++ (← v'.text)
          pure none) := by
      refine .needToken fun t ht => .nameOf fun x hx => ?_
      have hdeclared : x ∈ (Node.var name initial).declared := by simp [Node.declared, Node.name?, ht, hx]
      rw [hv.text]
      refine (RunsAligned.define (hgrows.twins (htwins x hdeclared)) x hv).bind_equal fun _ _ _ => ?_
      exact (RunsAligned.traceAt _).bind_equal fun _ _ _ => hnone
    rw [Eval.exec, Eval.exec]
    split
    · exact hdeclare (.refl n) .nil
    · exact (ih.eval calls initial hsame).bind fun v v' n' hgrows hv => hdeclare hgrows hv
  | block statements =>
    -- A scope that is opened on both sides is no extra one, so declarations may run in it.
    refine (RunsAligned.openScope hsame).bind fun inner inner' n' _ hinner => ?_
    refine .untilReturn statements fun s _ n'' hgrows => ?_
    exact ih.exec calls s (hgrows.same hinner.same) fun _ _ => hgrows.twins hinner
  | branch condition yes no =>
    refine (ih.eval calls condition hsame).bind fun v v' n₁ hgrows₁ hv => ?_
    rw [hv.truthy]
    refine (RunsAligned.traceAt _).bind_equal fun _ n₂ hgrows₂ => ?_
    have hgrows := hgrows₁.trans hgrows₂
    obtain ⟨hyes, hno⟩ := List.forall_mem_append.mp htwins
    split
    · exact ih.exec calls yes (hgrows.same hsame) fun name hname => hgrows.twins (hyes name hname)
    split
    · exact hnone
    · exact ih.exec calls no (hgrows.same hsame) fun name hname => hgrows.twins (hno name hname)
  | loop condition body =>
    refine (ih.eval calls condition hsame).bind fun v v' n₁ hgrows₁ hv => ?_
    rw [hv.truthy]
    split
    · refine (RunsAligned.traceAt _).bind_equal fun _ n₂ hgrows₂ => ?_
      have hgrows := hgrows₁.trans hgrows₂
      have hbody := ih.exec calls body (hgrows.same hsame) fun name hname => hgrows.twins (htwins name hname)
      refine hbody.bind fun o o' n₃ hgrows₃ ho => ?_
      have hgrows := hgrows.trans hgrows₃
      cases ho with
      | none => exact ih.exec calls _ (hgrows.same hsame) fun name hname => hgrows.twins (htwins name hname)
      | some hv => exact hsome hv
    · exact hnone
  | function name params body =>
    refine .needToken fun t ht => .nameOf fun x hx => ?_
    have hdeclared : x ∈ (Node.function name params body).declared := by simp [Node.declared, Node.name?, ht, hx]
    refine (RunsAligned.closure hsame t.text params body).bind fun v v' n' hgrows hv => ?_
    refine (RunsAligned.define (hgrows.twins (htwins x hdeclared)) x hv).bind_equal fun _ _ _ => ?_
    exact (RunsAligned.traceAt _).bind_equal fun _ _ _ => hnone
  | ret keyword value =>
    rw [Eval.exec, Eval.exec]
    split
    · exact hsome .nil
    · exact (ih.eval calls value hsame).bind fun v v' _ _ hv => hsome hv
  | _ => exact .throw _

theorem invoke_succ (ih : AlignedWithin side fuel fuel') (calls : Nat) (f : Closure) {scope : ScopeId}
    {arguments arguments' : List Value} (hsame : n.Same f.scope scope)
    (harguments : List.Forall₂ (Value.Aligned n) arguments arguments') :
    RunsAligned side n AlignedReturn (Eval.invoke (fuel + 1) calls f arguments)
      (Eval.invoke (fuel' + 1) calls { f with scope := scope } arguments') := by
  cases calls with
  | zero => exact .throw _
  | succ calls =>
    refine (RunsAligned.openScope hsame).bind fun inner inner' n₁ hgrows₁ hinner => ?_
    have hvalues := harguments.imp fun _ _ h => h.mono hgrows₁
    refine (RunsAligned.bindParams hinner f.params hvalues).bind_equal fun _ n₂ hgrows₂ => ?_
    refine .untilReturn f.body fun s _ n₃ hgrows₃ => ?_
    have hinner := (hgrows₂.trans hgrows₃).twins hinner
    exact ih.exec calls s hinner.same fun _ _ => hinner

theorem succ (ih : AlignedWithin side fuel fuel') : AlignedWithin side (fuel + 1) (fuel' + 1) :=
  ⟨fun calls e => ih.eval_succ calls e, fun calls s => ih.exec_succ calls s, fun calls f => ih.invoke_succ calls f⟩

theorem outLeft (hside : side ≠ .right) : AlignedWithin side 0 fuel' :=
  ⟨fun _ _ _ => .outLeft hside _, fun _ _ _ _ => .outLeft hside _, fun _ _ _ _ => .outLeft hside _⟩

theorem outRight (hside : side ≠ .left) : AlignedWithin side fuel 0 :=
  ⟨fun _ _ _ => .outRight hside _, fun _ _ _ _ => .outRight hside _, fun _ _ _ _ => .outRight hside _⟩

end AlignedWithin

/-- Trees are run alike in scopes of one number, and fuel is of no account as long as there is enough of it. -/
theorem alignedWithin {more fuel fuel' : Nat} (h : side.Less more fuel fuel') : AlignedWithin side fuel fuel' := by
  induction fuel generalizing fuel' with
  | zero =>
    cases side with
    | left => exact .outLeft (by decide)
    | right =>
      obtain rfl : fuel' = 0 := Nat.le_zero.mp (Nat.le_of_add_right_le h)
      exact .outRight (by decide)
    | either => exact .outLeft (by decide)
  | succ fuel ih =>
    cases fuel' with
    | zero =>
      cases side with
      | left => exact absurd h (Nat.not_succ_le_zero fuel)
      | right => exact .outRight (by decide)
      | either => exact .outRight (by decide)
    | succ fuel' => exact (ih h.step).succ

end Eval

end LoxLang
