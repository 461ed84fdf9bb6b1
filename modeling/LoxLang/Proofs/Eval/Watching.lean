import LoxLang.Proofs.Eval.Closed
import LoxLang.Proofs.Eval.Frame
import LoxLang.Proofs.Eval.Watch
import LoxLang.Proofs.Scope.ReadWrite
/-!
# What is true of a watched run

Watching changes nothing, and what is written down is true: at every moment the calls that the state
keeps are those around it, and its store is the one that the commands up to it have made. The state
keeps a list of its own, to which a call is added before its body runs and from which the first one is
taken behind it. `WatchesWithin` says so of all evaluators at once, for statements that a parser can
make: then every call is known by a token.

The commands are valid because every scope at hand is allocated: the scope a tree is run in, and those
of the functions among the values. Since scopes are never removed, it is enough to know that they lie
below some bound that was once reached.
-/

namespace LoxLang

variable {α β : Type} {P : Token → Prop} {bound : ScopeId}

/-- A value that statements with tokens that satisfy `P` can make while there are `next` scopes. -/
structure Value.IsWithin (P : Token → Prop) (next : ScopeId) (v : Value) : Prop where
  isOf : v.IsOf P
  scopedBelow : v.ScopedBelow next

theorem Value.IsWithin.mono {next next' : ScopeId} {v : Value} (h : v.IsWithin P next) (hle : next ≤ next') :
    v.IsWithin P next' :=
  ⟨h.isOf, h.scopedBelow.mono hle⟩

/-- If a statement returns a value, it is within its scopes. -/
def ReturnsWithin (P : Token → Prop) (next : ScopeId) (returned : Option Value) : Prop :=
  ∀ v ∈ returned, v.IsWithin P next

/-- What holds of a state at every moment. -/
structure State.IsSound (P : Token → Prop) (st : State) : Prop extends st.IsOf P where
  wellScoped : st.store.WellScoped

/-! ### Single steps -/

namespace Eval

/-- The calls in progress at the end are what `g` makes of those before, unless the step stops, and the store is what
the command makes of the one before. -/
def Moves (g : List Node → List Node) (command : Option (Store.Command Value)) (st : State) :
    EStateM.Result Stop State α → Prop
  | .ok _ st' => st'.calls = g st.calls ∧ st'.store = Store.Command.performAll st.store command.toList
  | .error stop st' =>
    st'.calls = st.calls ∧ st'.store = Store.Command.performAll st.store command.toList ∧ stop.OfStep

/-- However the computation ends, it has left the calls in progress and the scopes alone and has not stopped for the
calls. -/
def Aside (m : Eval α) : Prop := ∀ st, Moves id none st (m st)

namespace Aside

theorem bind {m : Eval α} {f : α → Eval β} (hm : Aside m) (hf : ∀ a, Aside (f a)) : Aside (m >>= f) := by
  intro st
  have hfirst := hm st
  simp only [Bind.bind, EStateM.bind]
  cases hmid : m st with
  | error stop mid =>
    rw [hmid] at hfirst
    exact hfirst
  | ok a mid =>
    rw [hmid] at hfirst
    obtain ⟨hcalls, hstore⟩ := hfirst
    have hrest := hf a mid
    unfold Moves at hrest ⊢
    rwa [show mid.calls = st.calls from hcalls, show mid.store = st.store from hstore] at hrest

/-- A step that touches neither the calls in progress nor the scopes. -/
theorem modifyGet {g : State → α × State} (h : ∀ st, (g st).2.calls = st.calls ∧ (g st).2.store = st.store) :
    Aside (MonadStateOf.modifyGet g : Eval α) := h

theorem traceAt (level : Nat) (record : Unit → Except Fault String) : Aside (Eval.traceAt level record) := by
  intro st
  show Moves id none st ((if level ≤ st.level then Eval.orFault (record ()) >>= fun record =>
    modify fun st => { st with trace := st.trace.write record } else Pure.pure ()) st)
  split
  · cases record () with
    | ok text => exact ⟨rfl, rfl⟩
    | error f => exact ⟨rfl, rfl, .fault f⟩
  · exact ⟨rfl, rfl⟩

theorem pieceClosed : PieceClosed @Aside where
  pure _ _ := ⟨rfl, rfl⟩
  throw h _ := ⟨rfl, rfl, h⟩
  bind := .bind
  traceAt record _ _ := .traceAt _ record
  write _ := .modifyGet fun _ => ⟨rfl, rfl⟩
  look hf st := hf st.store st
  closure _ _ _ _ := .modifyGet fun _ => ⟨rfl, rfl⟩
  readClock := .modifyGet fun _ => ⟨rfl, rfl⟩

end Aside

/-- An assignment does what its command says, also if the name is not bound. -/
theorem moves_assign {t : Token} {name : String} (hname : t.lexeme = .str name) (scope : ScopeId) (value : Value)
    (st : State) : Moves id (some (.assign scope (.text name) value)) st (Eval.assign scope t value st) := by
  have hperform : Store.Command.performAll st.store [.assign scope (.text name) value] =
      (st.store.assign? scope (.text name) value).getD st.store := rfl
  have htok : t.lexeme.name? = some (.text name) := by rw [hname, Json.name?]
  rw [assign_eq htok]
  cases hassign : st.store.assign? scope (.text name) value with
  | none =>
    rw [hassign] at hperform
    exact ⟨rfl, hperform.symm, .error _ (by simp)⟩
  | some store =>
    rw [hassign] at hperform
    exact ⟨rfl, hperform.symm⟩

/-- If the computation gives a function, its scope is allocated then. -/
def Scoped (bound : ScopeId) (m : Eval Value) : Prop :=
  ∀ st v st', st.store.WellScoped → bound ≤ st.store.next → m st = .ok v st' → v.ScopedBelow st'.store.next

namespace Scoped

theorem pure {v : Value} (h : ∀ next, v.ScopedBelow next) : Scoped bound (Pure.pure v) := by
  rintro st _ st' - - ⟨⟩
  exact h _

theorem raise (site : Option Token) (cause : Cause) : Scoped bound (Eval.raise site cause) := nofun

theorem readClock : Scoped bound Eval.readClock := by
  rintro st _ st' - - ⟨⟩
  trivial

theorem closure {scope : ScopeId} (hscope : scope < bound) (name : String) (params body : List Node) :
    Scoped bound (Eval.closure scope name params body) := by
  rintro st _ st' - hbound ⟨⟩
  exact hscope.trans_le hbound

theorem lookup {t : Token} {name : String} (hname : t.lexeme = .str name) (scope : ScopeId) :
    Scoped bound (Eval.lookup scope t) := by
  intro st v st' hw _ hrun
  have htok : t.lexeme.name? = some (.text name) := by rw [hname, Json.name?]
  rw [lookup_eq htok] at hrun
  cases hget : st.store.get? scope (.text name) with
  | none =>
    rw [hget] at hrun
    cases hrun
  | some value =>
    rw [hget] at hrun
    cases hrun
    exact hw.closures.get? hget

theorem applyUnary (t : Token) (v : Value) : Scoped bound (Eval.applyUnary t v) := by
  unfold Eval.applyUnary
  split
  · exact .pure fun _ => trivial
  · split
    · exact .pure fun _ => trivial
    · exact .raise _ _
  · exact .raise _ _

theorem applyNumeric (t : Token) (x y : Number) : Scoped bound (Eval.applyNumeric t x y) := by
  unfold Eval.applyNumeric
  split
  all_goals first | exact .pure fun _ => trivial | exact .raise _ _

theorem applyBinary (t : Token) (v w : Value) : Scoped bound (Eval.applyBinary t v w) := by
  unfold Eval.applyBinary
  split
  · exact .pure fun _ => trivial
  · exact .pure fun _ => trivial
  · split
    · exact .pure fun _ => trivial
    · exact .pure fun _ => trivial
    · exact .raise _ _
  · split
    · exact .applyNumeric t _ _
    · exact .raise _ _

end Scoped

end Eval

/-! ### Moments -/

/-- The state keeps the list of the calls around the moment, and each of them is known by a token. -/
structure Moment.IsNested (P : Token → Prop) (m : Moment) : Prop where
  calls : m.state.calls = m.inside
  isOf : m.state.IsOf P

namespace Watch

open Eval

/-- The result of a computation with what was written down about it. -/
def withMoments (moments : List Moment) : EStateM.Result Stop State α → EStateM.Result Stop Watched α
  | .ok a st => .ok a ⟨st, moments⟩
  | .error stop st => .error stop ⟨st, moments⟩

/-- Where a computation comes to: into the calls that `g` makes of those around it, unless it stops. What it results in
satisfies `Q` for the number of scopes then. -/
def Ends (g : List Node → List Node) (Q : ScopeId → α → Prop) (st : State) : EStateM.Result Stop State α → Prop
  | .ok a st' => st'.calls = g st.calls ∧ Q st'.store.next a
  | .error stop _ => stop.OfStep ∨ stop = .exhausted

/-- What was written down on the way from a state to a result. -/
structure Seen (P : Token → Prop) (g : List Node → List Node) (Q : ScopeId → α → Prop) (st : State)
    (later : List Moment) (r : EStateM.Result Stop State α) : Prop where
  nested : ∀ m ∈ later, m.IsNested P
  follows : FollowsFrom st.store later
  last : lastState st later = stateOf r
  isOf : (stateOf r).IsOf P
  ends : Ends g Q st r

namespace Seen

variable {g : List Node → List Node} {Q : ScopeId → α → Prop} {st : State} {later : List Moment}
  {r : EStateM.Result Stop State α}

/-- A computation that ends in other calls than it began in has been seen at its end. -/
theorem last_moment (h : Seen P g Q st later r) (hcalls : (stateOf r).calls ≠ st.calls) :
    ∃ earlier m, later = earlier ++ [m] ∧ m.state = stateOf r ∧ m.inside = (stateOf r).calls := by
  rcases List.eq_nil_or_concat later with rfl | ⟨earlier, m, rfl⟩
  · exact absurd (congrArg State.calls h.last).symm hcalls
  · have hstate : m.state = stateOf r := by
      rw [← h.last, List.concat_eq_append, lastState_append]
      rfl
    refine ⟨earlier, m, List.concat_eq_append, hstate, ?_⟩
    rw [← hstate]
    exact (h.nested m (by simp)).calls.symm

/-- The commands on the way have made the store at the end. -/
theorem performs (h : Seen P g Q st later r) : Store.Command.AllValid st.store (commandsOf later) ∧
    (stateOf r).store = Store.Command.performAll st.store (commandsOf later) :=
  h.last ▸ h.follows.performs

theorem isSound (h : Seen P g Q st later r) (hst : st.IsSound P) : (stateOf r).IsSound P where
  toIsOf := h.isOf
  wellScoped := h.performs.2 ▸ Store.Command.wellScoped_performAll h.performs.1 hst.wellScoped

theorem next_le (h : Seen P g Q st later r) : st.store.next ≤ (stateOf r).store.next :=
  h.performs.2 ▸ Store.Command.next_le_performAll st.store (commandsOf later)

end Seen

/-- From a state with at least so many scopes, the watched computation does what the other one does, in the calls that
the state has in progress, and leads from them to what `g` makes of them. -/
def Passes (P : Token → Prop) (g : List Node → List Node) (bound : ScopeId) (Q : ScopeId → α → Prop) (w : Watch α)
    (m : Eval α) : Prop :=
  ∀ (st : State) (moments : List Moment), st.IsSound P → bound ≤ st.store.next →
    ∃ later, w st.calls ⟨st, moments⟩ = withMoments (moments ++ later) (m st) ∧ Seen P g Q st later (m st)

/-- The watched computation does what the other one does, and leads back to where it began. -/
abbrev Watches (P : Token → Prop) (bound : ScopeId) (Q : ScopeId → α → Prop) (w : Watch α) (m : Eval α) : Prop :=
  Passes P id bound Q w m

namespace Passes

variable {Q : ScopeId → α → Prop} {R : ScopeId → β → Prop} {w : Watch α} {m : Eval α} {g h : List Node → List Node}
  {scope : ScopeId}

/-- What comes next stands where the first computation has led. -/
theorem andThen {v : α → Watch β} {f : α → Eval β} (hm : Passes P g bound Q w m)
    (hf : ∀ a bound', bound ≤ bound' → Q bound' a → Passes P h bound' R (v a) (f a)) :
    Passes P (h ∘ g) bound R (fun inside => w inside >>= fun a => v a (g inside)) (m >>= f) := by
  intro st moments hst hbound
  obtain ⟨later, hrun, hseen⟩ := hm st moments hst hbound
  simp only [Bind.bind, EStateM.bind, hrun]
  cases hmid : m st with
  | error stop mid =>
    rw [hmid] at hseen
    exact ⟨later, rfl, hseen.nested, hseen.follows, hseen.last, hseen.isOf, hseen.ends⟩
  | ok a mid =>
    rw [hmid] at hseen
    obtain ⟨hcalls, hQ⟩ := hseen.ends
    have hle : bound ≤ mid.store.next := hbound.trans hseen.next_le
    obtain ⟨more, hmore, hmoreSeen⟩ := hf a _ hle hQ mid (moments ++ later) (hseen.isSound hst) le_rfl
    rw [hcalls, List.append_assoc] at hmore
    have hlast : lastState st later = mid := hseen.last
    refine ⟨later ++ more, hmore, ?_, ?_, ?_, hmoreSeen.isOf, ?_⟩
    · exact List.forall_mem_append.mpr ⟨hseen.nested, hmoreSeen.nested⟩
    · exact followsFrom_append.mpr ⟨hseen.follows, hlast ▸ hmoreSeen.follows⟩
    · rw [lastState_append, hlast]
      exact hmoreSeen.last
    · have hends := hmoreSeen.ends
      unfold Ends at hends ⊢
      rwa [hcalls] at hends

/-- A single step is between two moments. -/
theorem crossing {command : Option (Store.Command Value)} {Q₀ : α → Prop} (hsafe : Safe P Q₀ m)
    (hmoves : ∀ st, Moves g command st (m st))
    (hvalid : ∀ store : Store Value, bound ≤ store.next → Store.Command.AllValid store command.toList)
    (hresult : ∀ st a st', st.store.WellScoped → bound ≤ st.store.next → m st = .ok a st' → Q₀ a →
      Q st'.store.next a) :
    Passes P g bound Q (fun inside => Watch.crossing inside (g inside) command m) m := by
  intro st moments hst hbound
  have hkept := hsafe st hst.toIsOf
  have hmoved := hmoves st
  have hfollows (inside : List Node) {st' : State}
      (hstore : st'.store = Store.Command.performAll st.store command.toList) :
      FollowsFrom st.store [⟨st.calls, none, st⟩, ⟨inside, command, st'⟩] :=
    ⟨trivial, rfl, hvalid st.store hbound, hstore, trivial⟩
  have hnested (inside : List Node) {st' : State} (hcalls : st'.calls = inside) (hst' : st'.IsOf P) :
      ∀ m ∈ ([⟨st.calls, none, st⟩, ⟨inside, command, st'⟩] : List Moment), m.IsNested P :=
    List.forall_mem_cons.mpr ⟨⟨rfl, hst.toIsOf⟩, List.forall_mem_singleton.mpr ⟨hcalls, hst'⟩⟩
  unfold Watch.crossing
  cases hrun : m st with
  | ok a st' =>
    rw [hrun] at hkept hmoved
    obtain ⟨hcalls, hstore⟩ := hmoved
    refine ⟨_, by simp only [hrun, withMoments], hnested _ hcalls hkept.1, hfollows _ hstore, rfl, hkept.1, hcalls, ?_⟩
    exact hresult st a st' hst.wellScoped hbound hrun hkept.2
  | error stop st' =>
    rw [hrun] at hkept hmoved
    obtain ⟨hcalls, hstore, hstop⟩ := hmoved
    exact ⟨_, by simp only [hrun, withMoments], hnested _ hcalls hkept.1, hfollows _ hstore, rfl, hkept.1, .inl hstop⟩

theorem pure {a : α} (h : ∀ next, bound ≤ next → Q next a) : Watches P bound Q (Pure.pure a) (Pure.pure a) := by
  intro st moments hst hbound
  refine ⟨[], ?_, nofun, trivial, rfl, hst.toIsOf, rfl, h _ hbound⟩
  rw [List.append_nil]
  rfl

theorem bind {v : α → Watch β} {f : α → Eval β} (hm : Watches P bound Q w m)
    (hf : ∀ a bound', bound ≤ bound' → Q bound' a → Watches P bound' R (v a) (f a)) :
    Watches P bound R (w >>= v) (m >>= f) :=
  hm.andThen hf

theorem step {Q₀ : α → Prop} (hsafe : Safe P Q₀ m) (haside : Aside m) :
    Watches P bound (fun _ => Q₀) (Watch.step m) m :=
  .crossing hsafe haside (fun _ _ => trivial) fun _ _ _ _ _ _ h => h

/-- A step that gives a value. -/
theorem value {m : Eval Value} (hsafe : Safe P (Value.IsOf P) m) (haside : Aside m) (hscoped : Scoped bound m) :
    Watches P bound (Value.IsWithin P) (Watch.step m) m :=
  .crossing hsafe haside (fun _ _ => trivial) fun st v st' hw hbound hrun hv =>
    ⟨hv, hscoped st v st' hw hbound hrun⟩

theorem throw {stop : Stop} (h : stop.OfStep ∨ stop = .exhausted) :
    Watches P bound Q (Watch.step (MonadExcept.throw stop)) (MonadExcept.throw stop) := by
  intro st moments hst _
  have hmoment : Moment.IsNested P ⟨st.calls, none, st⟩ := ⟨rfl, hst.toIsOf⟩
  refine ⟨_, rfl, ?_, ⟨trivial, rfl, trivial, rfl, trivial⟩, rfl, hst.toIsOf, h⟩
  exact List.forall_mem_cons.mpr ⟨hmoment, List.forall_mem_singleton.mpr hmoment⟩

theorem raise (site : Option Token) {cause : Cause} (h : cause ≠ .stackOverflow) :
    Watches P bound Q (Watch.step (Eval.raise site cause)) (Eval.raise site cause) :=
  .throw (.inl (.error site h))

/-- A call leads into itself, and behind its body out of itself again. -/
theorem call {w : Watch Value} {m : Eval Value} {t : Token} (ht : P t)
    (hbody : ∀ bound', bound ≤ bound' → Watches P bound' (Value.IsWithin P) w m) :
    Watches P bound (Value.IsWithin P) (Watch.call (.token t) w)
      (do enterCall (.token t); let v ← m; leaveCall; Pure.pure v) := by
  have henter : Passes P (.token t :: ·) bound (fun _ _ => True)
      (fun inside => Watch.crossing inside (.token t :: inside) none (enterCall (.token t))) (enterCall (.token t)) :=
    .crossing (.enterCall ht) (fun _ => ⟨rfl, rfl⟩) (fun _ _ => trivial) fun _ _ _ _ _ _ h => h
  have hleave (bound' : ScopeId) : Passes P List.tail bound' (fun _ _ => True)
      (fun inside => Watch.crossing inside inside.tail none leaveCall) leaveCall :=
    .crossing .leaveCall (fun _ => ⟨rfl, rfl⟩) (fun _ _ => trivial) fun _ _ _ _ _ _ h => h
  exact henter.andThen fun _ bound' hle _ => (hbody bound' hle).andThen fun v bound'' _ hv =>
    (hleave bound'').andThen fun _ _ hle'' _ => .pure fun _ hnext => hv.mono (hle''.trans hnext)

/-! ### Lists of computations -/

theorem mapM {v : Node → Watch Value} {f : Node → Eval Value} {nodes : List Node}
    (h : ∀ n ∈ nodes, ∀ bound', bound ≤ bound' → Watches P bound' (Value.IsWithin P) (v n) (f n)) :
    Watches P bound (fun next values => ∀ x ∈ values, x.IsWithin P next) (nodes.mapM v) (nodes.mapM f) := by
  induction nodes generalizing bound with
  | nil => exact .pure (by simp)
  | cons n rest ih =>
    obtain ⟨hn, hrest⟩ := List.forall_mem_cons.mp h
    rw [List.mapM_cons, List.mapM_cons]
    refine (hn bound le_rfl).bind fun x bound₁ hle₁ hx => ?_
    refine (ih fun n hmem bound' hle => hrest n hmem bound' (hle₁.trans hle)).bind fun values bound₂ hle₂ hvalues => ?_
    refine .pure fun next hnext => List.forall_mem_cons.mpr ⟨hx.mono (hle₂.trans hnext), fun y hy => ?_⟩
    exact (hvalues y hy).mono hnext

theorem forM {v : Node → Watch Unit} {f : Node → Eval Unit} {nodes : List Node}
    (h : ∀ n ∈ nodes, ∀ bound', bound ≤ bound' → Watches P bound' (fun _ _ => True) (v n) (f n)) :
    Watches P bound (fun _ _ => True) (nodes.forM v) (nodes.forM f) := by
  induction nodes generalizing bound with
  | nil => exact .pure fun _ _ => trivial
  | cons n rest ih =>
    obtain ⟨hn, hrest⟩ := List.forall_mem_cons.mp h
    refine (hn bound le_rfl).bind fun _ bound₁ hle₁ _ => ?_
    exact ih fun n hmem bound' hle => hrest n hmem bound' (hle₁.trans hle)

theorem untilReturn {v : Node → Watch (Option Value)} {f : Node → Eval (Option Value)} {statements : List Node}
    (h : ∀ s ∈ statements, ∀ bound', bound ≤ bound' → Watches P bound' (ReturnsWithin P) (v s) (f s)) :
    Watches P bound (ReturnsWithin P) (Watch.untilReturn v statements) (Eval.untilReturn f statements) := by
  induction statements generalizing bound with
  | nil => exact .pure fun _ _ => by simp [ReturnsWithin]
  | cons s rest ih =>
    obtain ⟨hs, hrest⟩ := List.forall_mem_cons.mp h
    refine (hs bound le_rfl).bind fun o bound₁ hle₁ ho => ?_
    cases o with
    | none => exact ih fun s hmem bound' hle => hrest s hmem bound' (hle₁.trans hle)
    | some value => exact .pure fun _ hnext x hx => (ho x hx).mono hnext

/-! ### Names, scopes and functions -/

theorem needToken (t : Token) :
    Watches P bound (fun _ => (· = t)) (Watch.step (Eval.needToken (.token t))) (Eval.needToken (.token t)) :=
  .step (Safe.pure rfl) (Aside.pieceClosed.orFault _)

theorem orFault {r : Except Fault α} (h : ∃ a, r = .ok a) :
    Watches P bound (fun _ _ => True) (Watch.step (Eval.orFault r)) (Eval.orFault r) := by
  obtain ⟨a, rfl⟩ := h
  exact .step (Safe.pure trivial) (Aside.pieceClosed.orFault _)

theorem nameOf (hP : Named P) {t : Token} (ht : P t) :
    Watches P bound (fun _ _ => True) (Watch.step (Eval.nameOf t)) (Eval.nameOf t) := by
  obtain ⟨name, hname⟩ := hP t ht
  exact .step (nameOf_eq hname ▸ Safe.pure trivial) (Aside.pieceClosed.nameOf t)

theorem traceAt {level : Nat} {record : Unit → Except Fault String} (h : ∃ text, record () = .ok text) :
    Watches P bound (fun _ _ => True) (Watch.step (Eval.traceAt level record)) (Eval.traceAt level record) :=
  .step (.traceAt h) (.traceAt level record)

theorem openScope (hscope : scope < bound) :
    Watches P bound (fun next inner => inner < next) (Watch.openScope scope) (Eval.openScope scope) := by
  refine .crossing (.openScope scope) (fun _ => ⟨rfl, rfl⟩) (fun _ hbound => ⟨hscope.trans_le hbound, trivial⟩) ?_
  rintro st _ st' - - ⟨⟩ -
  exact (Store.next_child scope).symm ▸ Nat.lt_succ_self _

theorem define {value : Value} (hscope : scope < bound) (name : Name) (hvalue : value.IsWithin P bound) :
    Watches P bound (fun _ _ => True) (Watch.define scope name value) (Eval.define scope name value) := by
  refine .crossing (.define scope name hvalue.isOf) (fun _ => ⟨rfl, rfl⟩) (fun store hbound => ?_) fun _ _ _ _ _ _ h => h
  exact ⟨⟨hscope.trans_le hbound, hvalue.scopedBelow.mono hbound⟩, trivial⟩

theorem assign (hP : Named P) {t : Token} {value : Value} (hscope : scope < bound) (ht : P t)
    (hvalue : value.IsWithin P bound) :
    Watches P bound (fun _ _ => True) (Watch.assign scope t value) (Eval.assign scope t value) := by
  obtain ⟨name, hname⟩ := hP t ht
  have hassign : Eval.assign scope t value = Eval.nameOf t >>= fun _ => Eval.assign scope t value := by
    rw [nameOf_eq hname, pure_bind]
  have hnamed : Watches P bound (fun _ => (· = .text name)) (Watch.step (Eval.nameOf t)) (Eval.nameOf t) :=
    .step (nameOf_eq hname ▸ Safe.pure rfl) (Aside.pieceClosed.nameOf t)
  rw [hassign]
  refine hnamed.bind fun _ bound' hle heq => ?_
  subst heq
  refine .crossing (.assign hP scope ht hvalue.isOf) (moves_assign hname scope value) (fun store hbound => ?_)
    fun _ _ _ _ _ _ h => h
  exact ⟨⟨hscope.trans_le (hle.trans hbound), hvalue.scopedBelow.mono (hle.trans hbound)⟩, trivial⟩

theorem closure {params : List Token} {body : List Node} (hscope : scope < bound) (name : String)
    (hparams : ∀ p ∈ params, P p) (hbody : ∀ s ∈ body, s.IsStatementOf P) :
    Watches P bound (Value.IsWithin P) (Watch.step (Eval.closure scope name (params.map .token) body))
      (Eval.closure scope name (params.map .token) body) :=
  .value (.closure scope name hparams hbody) (Aside.pieceClosed.closure _ _ _ _) (.closure hscope _ _ _)

theorem bindParams (hP : Named P) {params : List Token} {values : List Value} (hscope : scope < bound)
    (hparams : ∀ p ∈ params, P p) (hvalues : ∀ v ∈ values, v.IsWithin P bound) :
    Watches P bound (fun _ _ => True) (Watch.bindParams scope (params.map .token) values)
      (Eval.bindParams scope (params.map .token) values) := by
  induction params generalizing values bound with
  | nil => exact .pure fun _ _ => trivial
  | cons p params ih =>
    cases values with
    | nil => exact .pure fun _ _ => trivial
    | cons v values =>
      obtain ⟨hp, hrest⟩ := List.forall_mem_cons.mp hparams
      obtain ⟨hv, hothers⟩ := List.forall_mem_cons.mp hvalues
      refine (needToken p).bind fun t bound₁ hle₁ ht => ?_
      subst ht
      refine (nameOf hP hp).bind fun name bound₂ hle₂ _ => ?_
      have hle := hle₁.trans hle₂
      refine (define (hscope.trans_le hle) name (hv.mono hle)).bind fun _ bound₃ hle₃ _ => ?_
      exact ih (hscope.trans_le (hle.trans hle₃)) hrest fun w hw => (hothers w hw).mono (hle.trans hle₃)

theorem callValue {v : Closure → List Value → Watch (Option Value)} {f : Closure → List Value → Eval (Option Value)}
    {callee : Value} {arguments : List Value} {t : Token} (ht : P t) (hcallee : callee.IsWithin P bound)
    (hinvoke : ∀ g bound', bound ≤ bound' → Value.IsWithin P bound' (.function g) →
      Watches P bound' (ReturnsWithin P) (v g arguments) (f g arguments)) :
    Watches P bound (Value.IsWithin P) (Watch.callValue v callee arguments (.token t))
      (Eval.callValue f callee arguments (.token t)) := by
  have hrecord : ∃ text, callRecord callee arguments.length (.token t) = .ok text := by
    obtain ⟨text, htext⟩ := hcallee.isOf.text
    exact ⟨_, by rw [callRecord, htext]; rfl⟩
  unfold Watch.callValue Eval.callValue
  cases callee with
  | function g =>
    dsimp only [arity?]
    split
    · exact .raise _ (by simp)
    · refine (traceAt hrecord).bind fun _ bound₁ hle₁ _ => ?_
      have hreturned {returned : Option Value} {next : ScopeId} (h : ReturnsWithin P next returned) :
          (returned.getD .nil).IsWithin P next := by
        cases returned with
        | none => exact ⟨.nil, trivial⟩
        | some value => exact h value rfl
      have hresult (bound₂ : ScopeId) (hle₂ : bound₁ ≤ bound₂) :=
        (hinvoke g bound₂ (hle₁.trans hle₂) (hcallee.mono (hle₁.trans hle₂))).bind fun _ _ _ h =>
          Passes.pure fun _ hnext => (hreturned h).mono hnext
      simpa only [bind_assoc] using call ht hresult
  | clock =>
    dsimp only [arity?]
    split
    · exact .raise _ (by simp)
    · refine (traceAt hrecord).bind fun _ _ _ _ => ?_
      exact call ht fun _ _ => .value .readClock Aside.pieceClosed.readClock .readClock
  | _ => exact .raise _ (by simp)

end Passes

/-! ### Evaluation -/

theorem scopedBelow_ofNode (n : Node) (next : ScopeId) : (Value.ofNode n).ScopedBelow next := by cases n <;> trivial

/-- What is shown of the three computations within one bound of their depth. -/
structure WatchesWithin (P : Token → Prop) (fuel : Nat) : Prop where
  eval : ∀ calls {scope bound} {e : Node}, scope < bound → e.IsExpressionOf P →
    Watches P bound (Value.IsWithin P) (Watch.eval fuel calls scope e) (Eval.eval fuel calls scope e)
  exec : ∀ calls {scope bound} {s : Node}, scope < bound → s.IsStatementOf P →
    Watches P bound (ReturnsWithin P) (Watch.exec fuel calls scope s) (Eval.exec fuel calls scope s)
  invoke : ∀ calls {bound} {f : Closure} {arguments : List Value}, Value.IsWithin P bound (.function f) →
    (∀ v ∈ arguments, v.IsWithin P bound) →
    Watches P bound (ReturnsWithin P) (Watch.invoke fuel calls f arguments) (Eval.invoke fuel calls f arguments)

namespace WatchesWithin

variable {fuel : Nat} {scope : ScopeId}

theorem eval_succ (hP : Named P) (ih : WatchesWithin P fuel) (calls : Nat) (hscope : scope < bound) {e : Node}
    (h : e.IsExpressionOf P) :
    Watches P bound (Value.IsWithin P) (Watch.eval (fuel + 1) calls scope e) (Eval.eval (fuel + 1) calls scope e) := by
  have ihe {bound' : ScopeId} (hle : bound ≤ bound') {e : Node} (he : e.IsExpressionOf P) :
      Watches P bound' (Value.IsWithin P) (Watch.eval fuel calls scope e) (Eval.eval fuel calls scope e) :=
    ih.eval calls (hscope.trans_le hle) he
  cases h with
  | @literal value hvalue =>
    exact .value (.pure (Value.isOf_ofNode hvalue)) (Aside.pieceClosed.pure _) (.pure (scopedBelow_ofNode value))
  | grouping hinner => exact ihe le_rfl hinner
  | reference ht =>
    obtain ⟨name, hname⟩ := hP _ ht
    refine (Passes.needToken _).bind fun t _ _ heq => ?_
    subst heq
    exact .value (.lookup hP scope ht) (Aside.pieceClosed.lookup scope t) (.lookup hname scope)
  | assign ht hvalue =>
    refine (ihe le_rfl hvalue).bind fun value _ hle hv => (Passes.needToken _).bind fun t _ hle' heq => ?_
    subst heq
    have hassign := Passes.assign hP (hscope.trans_le (hle.trans hle')) ht (hv.mono hle')
    exact hassign.bind fun _ _ hle'' _ => .pure fun _ hnext => hv.mono (hle'.trans (hle''.trans hnext))
  | logical ht hleft hright =>
    refine (ihe le_rfl hleft).bind fun left _ hle hv => (Passes.needToken _).bind fun t _ hle' _ => ?_
    split
    · exact .pure fun _ hnext => hv.mono (hle'.trans hnext)
    · exact ihe (hle.trans hle') hright
  | unary ht hkind hright =>
    refine (ihe le_rfl hright).bind fun right _ _ _ => (Passes.needToken _).bind fun t _ _ heq => ?_
    subst heq
    exact .value (.applyUnary ht hkind right) (Aside.pieceClosed.applyUnary t right) (.applyUnary t right)
  | binary ht hkind hleft hright =>
    refine (ihe le_rfl hleft).bind fun left _ hle _ => (ihe hle hright).bind fun right _ _ _ => ?_
    refine (Passes.needToken _).bind fun t _ _ heq => ?_
    subst heq
    exact .value (.applyBinary ht hkind left right) (Aside.pieceClosed.applyBinary t left right)
      (.applyBinary t left right)
  | call ht hcallee harguments =>
    refine (ihe le_rfl hcallee).bind fun callee bound₁ hle₁ hv => ?_
    have hvalues := Passes.mapM fun a ha _ hle => ihe (hle₁.trans hle) (harguments a ha)
    refine hvalues.bind fun values bound₂ hle₂ hvs => ?_
    refine .callValue ht (hv.mono hle₂) fun f bound₃ hle₃ hf => ih.invoke calls hf fun w hw => ?_
    exact (hvs w hw).mono hle₃

theorem exec_succ (hP : Named P) (ih : WatchesWithin P fuel) (calls : Nat) (hscope : scope < bound) {s : Node}
    (h : s.IsStatementOf P) :
    Watches P bound (ReturnsWithin P) (Watch.exec (fuel + 1) calls scope s) (Eval.exec (fuel + 1) calls scope s) := by
  have ihe {e : Node} (he : e.IsExpressionOf P) :
      Watches P bound (Value.IsWithin P) (Watch.eval fuel calls scope e) (Eval.eval fuel calls scope e) :=
    ih.eval calls hscope he
  have ihs {bound' : ScopeId} (hle : bound ≤ bound') {s : Node} (hs : s.IsStatementOf P) :
      Watches P bound' (ReturnsWithin P) (Watch.exec fuel calls scope s) (Eval.exec fuel calls scope s) :=
    ih.exec calls (hscope.trans_le hle) hs
  have hnone {bound' : ScopeId} : Watches P bound' (ReturnsWithin P) (pure none) (pure none) :=
    .pure fun _ _ => by simp [ReturnsWithin]
  cases h with
  | expression hvalue => exact (ihe hvalue).bind fun _ _ _ _ => hnone
  | print hvalue =>
    refine (ihe hvalue).bind fun value _ _ hv => (Passes.orFault hv.isOf.text).bind fun text _ _ _ => ?_
    exact (Passes.step (.write (text ++ "\n")) (Aside.pieceClosed.write _)).bind fun _ _ _ _ => hnone
  | @var t initial ht hinitial =>
    have hdeclare {v : Value} {bound₁ : ScopeId} (hle₁ : bound ≤ bound₁) (hv : v.IsWithin P bound₁) :
        Watches P bound₁ (ReturnsWithin P)
        (do
          let t ← step (needToken (.token t))
          let x ← step (nameOf t)
          define scope x v
          step (traceAt 2 fun _ => do return "declare " ++ t.text ++ " = " ++ (← v.text))
          pure none)
        (do
          let t ← needToken (.token t)
          Eval.define scope (← nameOf t) v
          traceAt 2 fun _ => do return "declare " ++ t.text ++ " = " ++ (← v.text)
          pure none) := by
      obtain ⟨text, htext⟩ := hv.isOf.text
      refine (Passes.needToken t).bind fun _ bound₂ hle₂ heq => ?_
      subst heq
      refine (Passes.nameOf hP ht).bind fun x bound₃ hle₃ _ => ?_
      have hle := hle₂.trans hle₃
      refine (Passes.define (hscope.trans_le (hle₁.trans hle)) x (hv.mono hle)).bind fun _ _ _ _ => ?_
      refine (Passes.traceAt ?_).bind fun _ _ _ _ => hnone
      exact ⟨_, by rw [htext]; rfl⟩
    rcases hinitial with rfl | hinitial
    · exact hdeclare le_rfl ⟨.nil, trivial⟩
    · have habsent : initial.isAbsent = false := by cases hinitial <;> rfl
      simp only [Watch.exec, Eval.exec, habsent, Bool.false_eq_true, if_false]
      exact (ihe hinitial).bind fun v _ hle hv => hdeclare hle hv
  | block hstatements =>
    refine (Passes.openScope hscope).bind fun inner bound₁ _ hinner => ?_
    exact .untilReturn fun s hs bound₂ hle => ih.exec calls (hinner.trans_le hle) (hstatements s hs)
  | branch hcondition hyes =>
    obtain ⟨text, htext⟩ := source_of_isExpressionOf hP hcondition
    refine (ihe hcondition).bind fun value _ hle _ => (Passes.traceAt ?_).bind fun _ _ hle' _ => ?_
    · exact ⟨_, by rw [htext]; rfl⟩
    · split
      · exact ihs (hle.trans hle') hyes
      · exact hnone
  | branchElse hcondition hyes hno =>
    obtain ⟨text, htext⟩ := source_of_isExpressionOf hP hcondition
    refine (ihe hcondition).bind fun value _ hle _ => (Passes.traceAt ?_).bind fun _ _ hle' _ => ?_
    · exact ⟨_, by rw [htext]; rfl⟩
    · split
      · exact ihs (hle.trans hle') hyes
      split
      · exact hnone
      · exact ihs (hle.trans hle') hno
  | loop hcondition hbody =>
    obtain ⟨text, htext⟩ := source_of_isExpressionOf hP hcondition
    refine (ihe hcondition).bind fun value _ hle _ => ?_
    split
    · refine (Passes.traceAt ⟨_, by rw [htext]; rfl⟩).bind fun _ _ hle' _ => ?_
      refine (ihs (hle.trans hle') hbody).bind fun o _ hle'' ho => ?_
      cases o with
      | some v => exact .pure fun _ hnext x hx => (ho x hx).mono hnext
      | none => exact ihs (hle.trans (hle'.trans hle'')) (.loop hcondition hbody)
    · exact hnone
  | @function t params body ht hparams hbody =>
    refine (Passes.needToken t).bind fun _ bound₁ hle₁ heq => ?_
    subst heq
    refine (Passes.nameOf hP ht).bind fun x bound₂ hle₂ _ => ?_
    have hscope₂ := hscope.trans_le (hle₁.trans hle₂)
    refine (Passes.closure hscope₂ _ hparams hbody).bind fun f bound₃ hle₃ hf => ?_
    refine (Passes.define (hscope₂.trans_le hle₃) x hf).bind fun _ _ _ _ => ?_
    exact (Passes.traceAt ⟨_, rfl⟩).bind fun _ _ _ _ => hnone
  | @ret t value ht hvalue =>
    rcases hvalue with rfl | hvalue
    · have hnil : Safe P (· = some Value.nil) (pure (some .nil)) := .pure rfl
      refine .crossing hnil (Aside.pieceClosed.pure _) (fun _ _ => trivial) ?_
      rintro _ _ st' - - - rfl v ⟨⟩
      exact ⟨.nil, trivial⟩
    · have habsent : value.isAbsent = false := by cases hvalue <;> rfl
      simp only [Watch.exec, Eval.exec, habsent, Bool.false_eq_true, if_false]
      exact (ihe hvalue).bind fun v _ _ hv => .pure fun _ hnext => by simpa [ReturnsWithin] using hv.mono hnext

theorem invoke_succ (hP : Named P) (ih : WatchesWithin P fuel) (calls : Nat) {f : Closure} {arguments : List Value}
    (hf : Value.IsWithin P bound (.function f)) (harguments : ∀ v ∈ arguments, v.IsWithin P bound) :
    Watches P bound (ReturnsWithin P) (Watch.invoke (fuel + 1) calls f arguments)
      (Eval.invoke (fuel + 1) calls f arguments) := by
  cases calls with
  | zero => exact .throw (.inr rfl)
  | succ calls =>
    obtain ⟨id, name, _, body, parent⟩ := f
    obtain ⟨hof, hparent⟩ := hf
    cases hof with
    | function hparams htokens hbody =>
      dsimp only at hparams hbody
      subst hparams
      refine (Passes.openScope hparent).bind fun scope bound₁ hle₁ hscope => ?_
      have hbinds := Passes.bindParams hP hscope htokens fun v hv => (harguments v hv).mono hle₁
      refine hbinds.bind fun _ bound₂ hle₂ _ => .untilReturn fun s hs bound₃ hle₃ => ?_
      exact ih.exec calls (hscope.trans_le (hle₂.trans hle₃)) (hbody s hs)

end WatchesWithin

theorem watchesWithin (hP : Named P) (fuel : Nat) : WatchesWithin P fuel := by
  induction fuel with
  | zero =>
    exact ⟨fun _ _ _ _ _ _ => .throw (.inl .outOfFuel), fun _ _ _ _ _ _ => .throw (.inl .outOfFuel),
      fun _ _ _ _ _ _ => .throw (.inl .outOfFuel)⟩
  | succ fuel ih =>
    exact ⟨fun calls _ _ _ hscope h => ih.eval_succ hP calls hscope h,
      fun calls _ _ _ hscope h => ih.exec_succ hP calls hscope h,
      fun calls _ _ _ hf harguments => ih.invoke_succ hP calls hf harguments⟩

theorem watches_execAll (hP : Named P) (room : Room) {program : List Node} (h : ∀ s ∈ program, s.IsStatementOf P) :
    Watches P (State.globals + 1) (fun _ _ => True) (Watch.execAll room program) (Eval.execAll room program) := by
  refine .forM fun s hs bound hbound => ?_
  have hexec := (watchesWithin hP room.depth).exec room.calls (Nat.lt_of_succ_le hbound) (h s hs)
  exact hexec.bind fun _ _ _ _ => .pure fun _ _ => trivial

end Watch

end LoxLang
