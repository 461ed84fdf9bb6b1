import LoxLang.Eval.Run
import LoxLang.Proofs.Token.Lexeme
import Mathlib.Data.List.Forall2
/-!
# Runs that go alike

Two trees of one shape are run alike if their tokens agree in pairs but for their lines: the values
are the same, the same is printed, and an error has the same cause. What carries the argument is a
relation between two states. Their scopes bind the same names to like values, where two functions are
like if their bodies are like trees.

There are two relations between tokens. `R` relates the tokens of trees, and those of functions that
are kept in scopes among them; `S` relates the tokens that errors point at and those of the calls in
progress. It is the wider one, since a tree that is run once may differ in more than what is kept.

The second run may be given more fuel than the first, and nothing is said where the first one runs
out of it. So the same lemmas say that more fuel changes no result. If both are given the same fuel,
they run `together`: where the first one runs out of it, so does the second.
-/

namespace LoxLang

/-! ### Trees -/

/-- Trees of one shape whose tokens are related in pairs. Literals are the same. -/
inductive Node.Like (R : Token → Token → Prop) : Node → Node → Prop
  | null : Like R .null .null
  | bool (b : Bool) : Like R (.bool b) (.bool b)
  | num (x : Number) : Like R (.num x) (.num x)
  | str (s : String) : Like R (.str s) (.str s)
  | token {t t' : Token} (h : R t t') : Like R (.token t) (.token t')
  | literal (value : Node) : Like R (.literal value) (.literal value)
  | grouping {inner inner' : Node} (h : Like R inner inner') : Like R (.grouping inner) (.grouping inner')
  | unary {operator operator' right right' : Node} (hoperator : Like R operator operator')
      (hright : Like R right right') :
      Like R (.unary operator right) (.unary operator' right')
  | binary {left left' operator operator' right right' : Node} (hleft : Like R left left')
      (hoperator : Like R operator operator') (hright : Like R right right') :
      Like R (.binary left operator right) (.binary left' operator' right')
  | logical {left left' operator operator' right right' : Node} (hleft : Like R left left')
      (hoperator : Like R operator operator') (hright : Like R right right') :
      Like R (.logical left operator right) (.logical left' operator' right')
  | reference {name name' : Node} (hname : Like R name name') : Like R (.reference name) (.reference name')
  | assign {name name' value value' : Node} (hname : Like R name name') (hvalue : Like R value value') :
      Like R (.assign name value) (.assign name' value')
  | call {callee callee' paren paren' : Node} {arguments arguments' : List Node} (hcallee : Like R callee callee')
      (hparen : Like R paren paren') (harguments : List.Forall₂ (Like R) arguments arguments') :
      Like R (.call callee paren arguments) (.call callee' paren' arguments')
  | expression {value value' : Node} (hvalue : Like R value value') : Like R (.expression value) (.expression value')
  | print {value value' : Node} (hvalue : Like R value value') : Like R (.print value) (.print value')
  | var {name name' initial initial' : Node} (hname : Like R name name') (hinitial : Like R initial initial') :
      Like R (.var name initial) (.var name' initial')
  | block {statements statements' : List Node} (h : List.Forall₂ (Like R) statements statements') :
      Like R (.block statements) (.block statements')
  | branch {condition condition' yes yes' no no' : Node} (hcondition : Like R condition condition')
      (hyes : Like R yes yes') (hno : Like R no no') : Like R (.branch condition yes no) (.branch condition' yes' no')
  | loop {condition condition' body body' : Node} (hcondition : Like R condition condition')
      (hbody : Like R body body') :
      Like R (.loop condition body) (.loop condition' body')
  | function {name name' : Node} {params params' body body' : List Node} (hname : Like R name name')
      (hparams : List.Forall₂ (Like R) params params') (hbody : List.Forall₂ (Like R) body body') :
      Like R (.function name params body) (.function name' params' body')
  | ret {keyword keyword' value value' : Node} (hkeyword : Like R keyword keyword') (hvalue : Like R value value') :
      Like R (.ret keyword value) (.ret keyword' value')

/-- Nodes in the place of a token: related tokens, or no tokens. -/
def Node.LikeToken (S : Token → Token → Prop) (n n' : Node) : Prop := Option.Rel S n.token? n'.token?

theorem Node.LikeToken.mono {R S : Token → Token → Prop} (hRS : ∀ t t', R t t' → S t t') {n n' : Node}
    (h : n.LikeToken R n') : n.LikeToken S n' := by
  unfold Node.LikeToken at h ⊢
  generalize n.token? = found at h ⊢
  generalize n'.token? = found' at h ⊢
  cases h with
  | none => exact .none
  | some h => exact .some (hRS _ _ h)

/-- The relation holds only between tokens that differ at most in their lines. -/
def Token.Relabels (R : Token → Token → Prop) : Prop := ∀ t t', R t t' → t.bare = t'.bare

variable {R S : Token → Token → Prop}

namespace Token.Relabels

variable {t t' : Token}

theorem kind (hR : Relabels R) (h : R t t') : t.kind = t'.kind := by
  have hkind : t.bare.kind = t'.bare.kind := congrArg Token.kind (hR t t' h)
  exact hkind

theorem lexeme (hR : Relabels R) (h : R t t') : t.lexeme = t'.lexeme := by
  have hlexeme : t.bare.lexeme = t'.bare.lexeme := congrArg Token.lexeme (hR t t' h)
  exact hlexeme

theorem text (hR : Relabels R) (h : R t t') : t.text = t'.text := congrArg Json.describe (hR.lexeme h)

end Token.Relabels

namespace Node.Like

theorem isAbsent {n n' : Node} (h : n.Like R n') : n.isAbsent = n'.isAbsent := by cases h <;> rfl

theorem typeName {n n' : Node} (h : n.Like R n') : n.typeName = n'.typeName := by cases h <;> rfl

theorem token? {n n' : Node} (h : n.Like R n') : n.LikeToken R n' := by
  cases h with
  | token h => exact .some h
  | _ => exact .none

theorem lexemeText (hR : Token.Relabels R) {n n' : Node} (h : n.Like R n') : n.lexemeText = n'.lexemeText := by
  cases h with
  | token h => exact congrArg Except.ok (hR.text h)
  | _ => rfl

theorem hasTextSource (hR : Token.Relabels R) {n n' : Node} (h : n.Like R n') : n.hasTextSource = n'.hasTextSource := by
  cases h with
  | reference hname =>
    cases hname with
    | token h => simp only [Node.hasTextSource, hR.lexeme h]
    | _ => rfl
  | _ => rfl

theorem all_hasTextSource (hR : Token.Relabels R) {ns ns' : List Node} (h : List.Forall₂ (Like R) ns ns') :
    ns.all Node.hasTextSource = ns'.all Node.hasTextSource := by
  induction h with
  | nil => rfl
  | cons h _ ih => rw [List.all_cons, List.all_cons, h.hasTextSource hR, ih]

mutual

/-- Like expressions are printed alike. -/
theorem source (hR : Token.Relabels R) : ∀ {n n' : Node}, n.Like R n' → n.source = n'.source
  | .null, _, .null | .bool _, _, .bool _ | .num _, _, .num _ | .str _, _, .str _ | .literal _, _, .literal _ => rfl
  | .token _, _, .token _ | .expression _, _, .expression _ | .print _, _, .print _ | .var _ _, _, .var _ _
  | .block _, _, .block _ | .branch _ _ _, _, .branch _ _ _ | .loop _ _, _, .loop _ _
  | .function _ _ _, _, .function _ _ _ | .ret _ _, _, .ret _ _ => by simp only [Node.source, Node.typeName, Node.type?]
  | .grouping _, _, .grouping h => by rw [Node.source, Node.source, source hR h]
  | .unary _ _, _, .unary ho hr => by rw [Node.source, Node.source, ho.lexemeText hR, source hR hr]
  | .binary _ _ _, _, .binary hl ho hr => by
    rw [Node.source, Node.source, ho.lexemeText hR, source hR hl, source hR hr]
  | .logical _ _ _, _, .logical hl ho hr => by
    rw [Node.source, Node.source, ho.lexemeText hR, source hR hl, source hR hr]
  | .reference _, _, .reference h => by rw [Node.source, Node.source, h.lexemeText hR]
  | .assign _ _, _, .assign hn hv => by rw [Node.source, Node.source, hn.lexemeText hR, source hR hv]
  | .call _ _ _, _, .call hc _ ha => by
    simp only [Node.source, Node.joinArguments, source hR hc, sources hR ha, all_hasTextSource hR ha]

theorem sources (hR : Token.Relabels R) : ∀ {ns ns' : List Node}, List.Forall₂ (Like R) ns ns' →
    Node.sources ns = Node.sources ns'
  | [], _, .nil => rfl
  | _ :: _, _, .cons h hs => by rw [Node.sources, Node.sources, source hR h, sources hR hs]

end

mutual

theorem refl (hR : ∀ t, R t t) : ∀ n : Node, n.Like R n
  | .null => .null
  | .bool b => .bool b
  | .num x => .num x
  | .str s => .str s
  | .token t => .token (hR t)
  | .literal value => .literal value
  | .grouping inner => .grouping (refl hR inner)
  | .unary operator right => .unary (refl hR operator) (refl hR right)
  | .binary left operator right => .binary (refl hR left) (refl hR operator) (refl hR right)
  | .logical left operator right => .logical (refl hR left) (refl hR operator) (refl hR right)
  | .reference name => .reference (refl hR name)
  | .assign name value => .assign (refl hR name) (refl hR value)
  | .call callee paren arguments => .call (refl hR callee) (refl hR paren) (refl_all hR arguments)
  | .expression value => .expression (refl hR value)
  | .print value => .print (refl hR value)
  | .var name initial => .var (refl hR name) (refl hR initial)
  | .block statements => .block (refl_all hR statements)
  | .branch condition yes no => .branch (refl hR condition) (refl hR yes) (refl hR no)
  | .loop condition body => .loop (refl hR condition) (refl hR body)
  | .function name params body => .function (refl hR name) (refl_all hR params) (refl_all hR body)
  | .ret keyword value => .ret (refl hR keyword) (refl hR value)

theorem refl_all (hR : ∀ t, R t t) : ∀ ns : List Node, List.Forall₂ (Like R) ns ns
  | [] => .nil
  | n :: rest => .cons (refl hR n) (refl_all hR rest)

end

mutual

/-- Trees with the same tokens are the same. -/
theorem eq : ∀ {n n' : Node}, n.Like Eq n' → n = n'
  | .null, _, .null | .bool _, _, .bool _ | .num _, _, .num _ | .str _, _, .str _ | .literal _, _, .literal _ => rfl
  | .token _, _, .token h => by rw [h]
  | .grouping _, _, .grouping h => by rw [eq h]
  | .unary _ _, _, .unary ho hr => by rw [eq ho, eq hr]
  | .binary _ _ _, _, .binary hl ho hr => by rw [eq hl, eq ho, eq hr]
  | .logical _ _ _, _, .logical hl ho hr => by rw [eq hl, eq ho, eq hr]
  | .reference _, _, .reference h => by rw [eq h]
  | .assign _ _, _, .assign hn hv => by rw [eq hn, eq hv]
  | .call _ _ _, _, .call hc hp ha => by rw [eq hc, eq hp, eq_all ha]
  | .expression _, _, .expression h => by rw [eq h]
  | .print _, _, .print h => by rw [eq h]
  | .var _ _, _, .var hn hi => by rw [eq hn, eq hi]
  | .block _, _, .block h => by rw [eq_all h]
  | .branch _ _ _, _, .branch hc hy hn => by rw [eq hc, eq hy, eq hn]
  | .loop _ _, _, .loop hc hb => by rw [eq hc, eq hb]
  | .function _ _ _, _, .function hn hp hb => by rw [eq hn, eq_all hp, eq_all hb]
  | .ret _ _, _, .ret hk hv => by rw [eq hk, eq hv]

theorem eq_all : ∀ {ns ns' : List Node}, List.Forall₂ (Like Eq) ns ns' → ns = ns'
  | [], _, .nil => rfl
  | _ :: _, _, .cons h hs => by rw [eq h, eq_all hs]

end

end Node.Like

/-! ### Values -/

structure Closure.Like (R : Token → Token → Prop) (f f' : Closure) : Prop where
  id : f.id = f'.id
  name : f.name = f'.name
  params : List.Forall₂ (Node.Like R) f.params f'.params
  body : List.Forall₂ (Node.Like R) f.body f'.body
  scope : f.scope = f'.scope

/-- Values that are the same but for the tokens of functions. -/
inductive Value.Like (R : Token → Token → Prop) : Value → Value → Prop
  | nil : Like R .nil .nil
  | bool (b : Bool) : Like R (.bool b) (.bool b)
  | num (x : Number) : Like R (.num x) (.num x)
  | str (s : String) : Like R (.str s) (.str s)
  | function {f f' : Closure} (h : f.Like R f') : Like R (.function f) (.function f')
  | clock : Like R .clock .clock
  | node (n : Node) : Like R (.node n) (.node n)

namespace Value.Like

variable {v v' w w' : Value}

theorem ofNode (n : Node) : (Value.ofNode n).Like R (Value.ofNode n) := by
  cases n with
  | null => exact .nil
  | bool b => exact .bool b
  | num x => exact .num x
  | str s => exact .str s
  | _ => exact .node _

theorem truthy (h : v.Like R v') : v.truthy = v'.truthy := by cases h <;> rfl

theorem text (h : v.Like R v') : v.text = v'.text := by
  cases h with
  | function h => simp only [Value.text, h.name]
  | _ => rfl

theorem equal (hv : v.Like R v') (hw : w.Like R w') : v.equal w = v'.equal w' := by
  cases hv with
  | function hf =>
    cases hw with
    | function hg => simp only [Value.equal, hf.id, hg.id]
    | _ => rfl
  | _ => cases hw <;> rfl

theorem arity? (h : v.Like R v') : Eval.arity? v = Eval.arity? v' := by
  cases h with
  | function h => simp only [Eval.arity?, h.params.length_eq]
  | _ => rfl

theorem refl (hR : ∀ t, R t t) (v : Value) : v.Like R v := by
  cases v with
  | nil => exact .nil
  | bool b => exact .bool b
  | num x => exact .num x
  | str s => exact .str s
  | function f => exact .function ⟨rfl, rfl, Node.Like.refl_all hR f.params, Node.Like.refl_all hR f.body, rfl⟩
  | clock => exact .clock
  | node n => exact .node n

theorem eq (h : v.Like Eq v') : v = v' := by
  cases h with
  | @function f f' h =>
    apply congrArg Value.function
    cases f
    cases f'
    rw [Closure.mk.injEq]
    exact ⟨h.id, h.name, Node.Like.eq_all h.params, Node.Like.eq_all h.body, h.scope⟩
  | _ => rfl

end Value.Like

/-! ### Stores -/

section

variable {α β : Type} {V : α → β → Prop}

theorem isSome_eq_of_rel {o : Option α} {o' : Option β} (h : Option.Rel V o o') :
    o.isSome = o'.isSome := by cases h <;> rfl

/-- Bindings of the same names to related values. -/
def BindingsLike (V : α → β → Prop) : List (Name × α) → List (Name × β) → Prop :=
  List.Forall₂ fun b b' => b.1 = b'.1 ∧ V b.2 b'.2

theorem BindingsLike.lookup {bindings : List (Name × α)} {bindings' : List (Name × β)}
    (h : BindingsLike V bindings bindings')
    (name : Name) : Option.Rel V (bindings.lookup name) (bindings'.lookup name) := by
  induction h with
  | nil => exact .none
  | @cons b b' rest rest' hb _ ih =>
    obtain ⟨n, v⟩ := b
    obtain ⟨n', v'⟩ := b'
    obtain ⟨rfl, hv⟩ : n = n' ∧ V v v' := hb
    rw [List.lookup_cons, List.lookup_cons]
    split
    · exact .some hv
    · exact ih

theorem BindingsLike.putBinding {bindings : List (Name × α)} {bindings' : List (Name × β)}
    (h : BindingsLike V bindings bindings') (name : Name) {v : α} {v' : β} (hv : V v v') :
    BindingsLike V (Scope.putBinding name v bindings) (Scope.putBinding name v' bindings') := by
  induction h with
  | nil => exact .cons ⟨rfl, hv⟩ .nil
  | @cons b b' rest rest' hb hrest ih =>
    obtain ⟨n, w⟩ := b
    obtain ⟨n', w'⟩ := b'
    obtain ⟨rfl, hw⟩ : n = n' ∧ V w w' := hb
    unfold Scope.putBinding
    split
    · exact .cons ⟨rfl, hv⟩ hrest
    · exact .cons ⟨rfl, hw⟩ ih

structure Scope.Like (V : α → β → Prop) (scope : Scope α) (scope' : Scope β) : Prop where
  parent : scope.parent = scope'.parent
  bindings : BindingsLike V scope.bindings scope'.bindings

/-- Stores with the same scopes that bind the same names to related values. -/
def Store.Like (V : α → β → Prop) (store : Store α) (store' : Store β) : Prop :=
  store.scopes.size = store'.scopes.size ∧ ∀ s : ScopeId, Option.Rel (Scope.Like V) store.scopes[s]? store'.scopes[s]?

namespace Store.Like

variable {store : Store α} {store' : Store β}

theorem next (h : store.Like V store') : store.next = store'.next := h.1

/-- A place is free in both stores, or has a scope in both. -/
theorem cases_scope (h : store.Like V store') (s : ScopeId) : store.scopes[s]? = none ∧ store'.scopes[s]? = none ∨
    ∃ scope scope', store.scopes[s]? = some scope ∧ store'.scopes[s]? = some scope' ∧ scope.Like V scope' := by
  have hrel := h.2 s
  generalize store.scopes[s]? = found at hrel
  generalize store'.scopes[s]? = found' at hrel
  cases hrel with
  | none => exact .inl ⟨rfl, rfl⟩
  | some hscope => exact .inr ⟨_, _, rfl, rfl, hscope⟩

theorem binds (h : store.Like V store') (s : ScopeId) (name : Name) : store.binds s name = store'.binds s name := by
  unfold Store.binds
  rcases h.cases_scope s with ⟨hnone, hnone'⟩ | ⟨scope, scope', hsome, hsome', hscope⟩
  · rw [hnone, hnone']
    rfl
  · rw [hsome, hsome']
    exact isSome_eq_of_rel (hscope.bindings.lookup name)

theorem chainWithin (h : store.Like V store') (length : Nat) (s : ScopeId) :
    store.chainWithin length s = store'.chainWithin length s := by
  induction length generalizing s with
  | zero => rfl
  | succ length ih =>
    unfold Store.chainWithin
    rcases h.cases_scope s with ⟨hnone, hnone'⟩ | ⟨scope, scope', hsome, hsome', hscope⟩
    · rw [hnone, hnone']
    · simp only [hsome, hsome', hscope.parent, funext ih]

theorem resolve? (h : store.Like V store') (s : ScopeId) (name : Name) :
    store.resolve? s name = store'.resolve? s name := by
  simp only [Store.resolve?, Store.chain, h.next, h.chainWithin, h.binds]

theorem get? (h : store.Like V store') (s : ScopeId) (name : Name) :
    Option.Rel V (store.get? s name) (store'.get? s name) := by
  unfold Store.get?
  rw [h.resolve?]
  cases store'.resolve? s name with
  | none => exact .none
  | some t =>
    change Option.Rel V ((store.bindings t).lookup name) ((store'.bindings t).lookup name)
    unfold Store.bindings
    rcases h.cases_scope t with ⟨hnone, hnone'⟩ | ⟨scope, scope', hsome, hsome', hscope⟩
    · rw [hnone, hnone']
      exact .none
    · rw [hsome, hsome']
      exact hscope.bindings.lookup name

theorem child (h : store.Like V store') (parent : ScopeId) : (store.child parent).Like V (store'.child parent) := by
  refine ⟨by simp only [Store.child, Array.size_push, h.1], fun s => ?_⟩
  simp only [Store.child, Array.getElem?_push, h.1]
  split
  · exact .some ⟨rfl, .nil⟩
  · exact h.2 s

theorem define (h : store.Like V store') (s : ScopeId) (name : Name) {v : α} {v' : β} (hv : V v v') :
    (store.define s name v).Like V (store'.define s name v') := by
  refine ⟨by simp only [Store.define, Array.size_modify, h.1], fun t => ?_⟩
  simp only [Store.define, Array.getElem?_modify]
  split
  · rcases h.cases_scope t with ⟨hnone, hnone'⟩ | ⟨scope, scope', hsome, hsome', hscope⟩
    · rw [hnone, hnone']
      exact .none
    · rw [hsome, hsome']
      exact .some ⟨hscope.parent, hscope.bindings.putBinding name hv⟩
  · exact h.2 t

end Store.Like

theorem BindingsLike.refl {V : α → α → Prop} (hV : ∀ a, V a a) (bindings : List (Name × α)) :
    BindingsLike V bindings bindings := by
  induction bindings with
  | nil => exact .nil
  | cons b rest ih => exact .cons ⟨rfl, hV b.2⟩ ih

theorem BindingsLike.eq {V : α → α → Prop} (hV : ∀ a b, V a b → a = b) {bindings bindings' : List (Name × α)}
    (h : BindingsLike V bindings bindings') : bindings = bindings' := by
  induction h with
  | nil => rfl
  | cons hb _ ih => rw [Prod.ext hb.1 (hV _ _ hb.2), ih]

theorem Store.Like.refl {V : α → α → Prop} (hV : ∀ a, V a a) (store : Store α) : store.Like V store := by
  refine ⟨rfl, fun s => ?_⟩
  cases store.scopes[s]? with
  | none => exact .none
  | some scope => exact .some ⟨rfl, .refl hV scope.bindings⟩

theorem Store.Like.eq {V : α → α → Prop} (hV : ∀ a b, V a b → a = b) {store store' : Store α}
    (h : store.Like V store') :
    store = store' := by
  have hscopes : store.scopes = store'.scopes := by
    apply Array.ext_getElem?
    intro s
    rcases h.cases_scope s with ⟨hnone, hnone'⟩ | ⟨scope, scope', hsome, hsome', hparent, hbindings⟩
    · rw [hnone, hnone']
    · rw [hsome, hsome']
      cases scope
      cases scope'
      exact congrArg some (congrArg₂ Scope.mk hparent (hbindings.eq hV))
  exact congrArg Store.mk hscopes

end

/-! ### States -/

/-- States that a program cannot tell apart. The traces may differ, but not if nothing is traced. -/
structure State.Like (R S : Token → Token → Prop) (st st' : State) : Prop where
  store : st.store.Like (Value.Like R) st'.store
  nextId : st.nextId = st'.nextId
  output : st.output = st'.output
  level : st.level = st'.level
  quiet : st.level = 0 → st.trace = st'.trace
  calls : List.Forall₂ (Node.LikeToken S) st.calls st'.calls
  clock : st.clock = st'.clock
  readings : st.readings = st'.readings

theorem State.Like.refl (hR : ∀ t, R t t) (hS : ∀ t, S t t) (st : State) : st.Like R S st where
  store := .refl (.refl hR) st.store
  nextId := rfl
  output := rfl
  level := rfl
  quiet _ := rfl
  calls := by
    apply List.forall₂_same.mpr
    intro n _
    unfold Node.LikeToken
    cases n.token? with
    | none => exact .none
    | some t => exact .some (hS t)
  clock := rfl
  readings := rfl

/-- Early stops for the same cause at related tokens. -/
inductive Stop.Like (S : Token → Token → Prop) : Stop → Stop → Prop
  | error {site site' : Option Token} (hsite : Option.Rel S site site') (cause : Cause) :
      Like S (.error ⟨site, cause⟩) (.error ⟨site', cause⟩)
  | exhausted : Like S .exhausted .exhausted
  | fault (f : Fault) : Like S (.fault f) (.fault f)

namespace Eval

variable {α β γ δ : Type} {Q : α → β → Prop} {T : γ → δ → Prop} {m : Eval α} {m' : Eval β} {together : Prop}

/-- How two runs end alike. A run that is out of fuel says nothing about the other one, unless they run together. -/
inductive EndsLike (together : Prop) (R S : Token → Token → Prop) (Q : α → β → Prop) :
    EStateM.Result Stop State α → EStateM.Result Stop State β → Prop
  | ok {a : α} {b : β} {st st' : State} (hst : st.Like R S st') (h : Q a b) :
      EndsLike together R S Q (.ok a st) (.ok b st')
  | stopped {stop stop' : Stop} {st st' : State} (hst : st.Like R S st') (h : stop.Like S stop') :
      EndsLike together R S Q (.error stop st) (.error stop' st')
  | outOfFuel (st : State) (r : EStateM.Result Stop State β) (h : together → ∃ st', r = .error .outOfFuel st') :
      EndsLike together R S Q (.error .outOfFuel st) r

/-- From like states the computations end alike. -/
def RunsLike (together : Prop) (R S : Token → Token → Prop) (Q : α → β → Prop) (m : Eval α) (m' : Eval β) : Prop :=
  ∀ st st', st.Like R S st' → EndsLike together R S Q (m st) (m' st')

namespace RunsLike

theorem bind {f : α → Eval γ} {f' : β → Eval δ} (hm : RunsLike together R S Q m m')
    (hf : ∀ a b, Q a b → RunsLike together R S T (f a) (f' b)) : RunsLike together R S T (m >>= f) (m' >>= f') := by
  intro st st' hst
  have hfirst := hm st st' hst
  simp only [Bind.bind, EStateM.bind]
  generalize m st = r at hfirst
  generalize m' st' = r' at hfirst
  cases hfirst with
  | ok hst h => exact hf _ _ h _ _ hst
  | stopped hst h => exact .stopped hst h
  | outOfFuel st r h =>
    refine .outOfFuel st _ fun htogether => ?_
    obtain ⟨st', rfl⟩ := h htogether
    exact ⟨st', rfl⟩

theorem pure {a : α} {b : β} (h : Q a b) : RunsLike together R S Q (Pure.pure a) (Pure.pure b) :=
  fun _ _ hst => .ok hst h

theorem outOfFuel {m' : Eval β} (h : together → m' = throw .outOfFuel) :
    RunsLike together R S Q (throw .outOfFuel) m' :=
  fun st st' _ => .outOfFuel st _ fun htogether => ⟨st', h htogether ▸ rfl⟩

theorem fault (f : Fault) : RunsLike together R S Q (throw (.fault f)) (throw (.fault f)) :=
  fun _ _ hst => .stopped hst (.fault f)

theorem exhausted : RunsLike together R S Q (throw .exhausted) (throw .exhausted) :=
  fun _ _ hst => .stopped hst .exhausted

theorem raise {site site' : Option Token} (hsite : Option.Rel S site site') (cause : Cause) :
    RunsLike together R S Q (Eval.raise site cause) (Eval.raise site' cause) :=
  fun _ _ hst => .stopped hst (.error hsite cause)

theorem look {f : State → Eval γ} {f' : State → Eval δ}
    (h : ∀ st st', st.Like R S st' → RunsLike together R S T (f st) (f' st')) :
    RunsLike together R S T (get >>= f) (get >>= f') :=
  fun st st' hst => h st st' hst st st' hst

theorem step {g g' : State → State} (h : ∀ st st', st.Like R S st' → (g st).Like R S (g' st')) :
    RunsLike together R S (fun _ _ => True) (modify g) (modify g') :=
  fun st st' hst => .ok (h st st' hst) trivial

/-- The results of one computation that may fault. -/
theorem orFault {r : Except Fault α} {r' : Except Fault β} (h : ∀ a b, r = .ok a → r' = .ok b → Q a b)
    (hsame : r.map (fun _ => ()) = r'.map fun _ => ()) :
    RunsLike together R S Q (Eval.orFault r) (Eval.orFault r') := by
  cases r with
  | ok a =>
    cases r' with
    | ok b => exact .pure (h a b rfl rfl)
    | error f => cases hsame
  | error f =>
    cases r' with
    | ok b => cases hsame
    | error f' =>
      cases hsame
      exact .fault f

/-- Records of levels above zero are of no account, as long as both can be worked out or neither. -/
theorem traceAt {level : Nat} (hlevel : 0 < level) {record record' : Unit → Except Fault String}
    (hsame : (record ()).map (fun _ => ()) = (record' ()).map fun _ => ()) :
    RunsLike together R S (fun _ _ => True) (Eval.traceAt level record) (Eval.traceAt level record') := by
  intro st st' hst
  change EndsLike together R S _ ((if level ≤ st.level then _ else _ : Eval Unit) st)
    ((if level ≤ st'.level then _ else _ : Eval Unit) st')
  rw [← hst.level]
  split
  next hwritten =>
    have hloud : st.level = 0 → ∀ P : Prop, P := fun hzero => absurd hzero (by omega)
    cases hrecord : record () with
    | ok text =>
      cases hrecord' : record' () with
      | ok text' => exact .ok { hst with quiet := fun hzero => hloud hzero _ } trivial
      | error f => simp [hrecord, hrecord', Except.map] at hsame
    | error f =>
      cases hrecord' : record' () with
      | ok text' => simp [hrecord, hrecord', Except.map] at hsame
      | error f' =>
        obtain rfl : f = f' := by simpa [hrecord, hrecord', Except.map] using hsame
        exact .stopped hst (.fault f)
  next => exact .ok hst trivial

theorem write (text : String) : RunsLike together R S (fun _ _ => True) (Eval.write text) (Eval.write text) :=
  .step fun _ _ hst => { hst with output := congrArg (·.push text) hst.output }

theorem openScope (parent : ScopeId) : RunsLike together R S Eq (Eval.openScope parent) (Eval.openScope parent) :=
  fun _ _ hst => .ok { hst with store := hst.store.child parent } hst.store.next

theorem define {v v' : Value} (scope : ScopeId) (name : Name) (hv : v.Like R v') :
    RunsLike together R S (fun _ _ => True) (Eval.define scope name v) (Eval.define scope name v') :=
  .step fun _ _ hst => { hst with store := hst.store.define scope name hv }

theorem closure {params params' body body' : List Node} (scope : ScopeId) (name : String)
    (hparams : List.Forall₂ (Node.Like R) params params') (hbody : List.Forall₂ (Node.Like R) body body') :
    RunsLike together R S (Value.Like R) (Eval.closure scope name params body)
      (Eval.closure scope name params' body') :=
  fun _ _ hst => .ok { hst with nextId := congrArg (· + 1) hst.nextId }
    (.function ⟨hst.nextId, rfl, hparams, hbody, rfl⟩)

theorem enterCall {paren paren' : Node} (h : paren.LikeToken S paren') :
    RunsLike together R S (fun _ _ => True) (Eval.enterCall paren) (Eval.enterCall paren') :=
  .step fun _ _ hst => { hst with calls := .cons h hst.calls }

theorem leaveCall : RunsLike together R S (fun _ _ => True) Eval.leaveCall Eval.leaveCall := by
  refine .step fun st st' hst => { hst with calls := ?_ }
  have hcalls := List.forall₂_drop 1 hst.calls
  rwa [List.drop_one, List.drop_one] at hcalls

theorem readClock : RunsLike together R S (Value.Like R) Eval.readClock Eval.readClock := by
  intro st st' hst
  refine .ok { hst with readings := congrArg (· + 1) hst.readings } ?_
  rw [hst.clock, hst.readings]
  exact .num _

/-! ### Lists of computations -/

theorem mapM {f : Node → Eval α} {f' : Node → Eval β} {P : Node → Node → Prop} {ns ns' : List Node}
    (h : List.Forall₂ P ns ns') (hf : ∀ n n', P n n' → RunsLike together R S Q (f n) (f' n')) :
    RunsLike together R S (List.Forall₂ Q) (ns.mapM f) (ns'.mapM f') := by
  induction h with
  | nil => exact .pure .nil
  | cons h _ ih =>
    rw [List.mapM_cons, List.mapM_cons]
    exact (hf _ _ h).bind fun _ _ hfirst => ih.bind fun _ _ hrest => .pure (.cons hfirst hrest)

theorem untilReturn {f f' : Node → Eval (Option Value)} {P : Node → Node → Prop} {V : Value → Value → Prop}
    {ns ns' : List Node} (h : List.Forall₂ P ns ns')
    (hf : ∀ n n', P n n' → RunsLike together R S (Option.Rel V) (f n) (f' n')) :
    RunsLike together R S (Option.Rel V) (Eval.untilReturn f ns) (Eval.untilReturn f' ns') := by
  induction h with
  | nil => exact .pure .none
  | cons h _ ih =>
    refine (hf _ _ h).bind fun o o' ho => ?_
    cases ho with
    | none => exact ih
    | some hv => exact .pure (.some hv)

theorem forM {f f' : Node → Eval Unit} {P : Node → Node → Prop} {ns ns' : List Node} (h : List.Forall₂ P ns ns')
    (hf : ∀ n n', P n n' → RunsLike together R S (fun _ _ => True) (f n) (f' n')) :
    RunsLike together R S (fun _ _ => True) (ns.forM f) (ns'.forM f') := by
  induction h with
  | nil => exact .pure trivial
  | cons h _ ih => exact (hf _ _ h).bind fun _ _ _ => ih

/-! ### Tokens and operators -/

theorem needToken {P : Token → Token → Prop} {n n' : Node} (h : n.LikeToken P n') :
    RunsLike together R S P (Eval.needToken n) (Eval.needToken n') := by
  unfold Eval.needToken Node.needToken
  unfold Node.LikeToken at h
  generalize n.token? = found at h
  generalize n'.token? = found' at h
  cases h with
  | none => exact .fault .notToken
  | some h => exact .pure h

theorem nameOf {P : Token → Token → Prop} (hP : Token.Relabels P) {t t' : Token} (h : P t t') :
    RunsLike together R S Eq (Eval.nameOf t) (Eval.nameOf t') := by
  unfold Eval.nameOf
  rw [hP.lexeme h]
  split
  · exact .pure rfl
  · exact .fault .notName

variable {t t' : Token} {v v' w w' : Value}

theorem lookup (hS : Token.Relabels S) (h : S t t') (scope : ScopeId) :
    RunsLike together R S (Value.Like R) (Eval.lookup scope t) (Eval.lookup scope t') := by
  refine (nameOf hS h).bind fun name name' hname => .look fun st st' hst => ?_
  subst hname
  have hget := hst.store.get? scope name
  generalize st.store.get? scope name = found at hget
  generalize st'.store.get? scope name = found' at hget
  cases hget with
  | none =>
    rw [hS.text h]
    exact .raise (.some h) _
  | some hv => exact .pure hv

theorem assign (hS : Token.Relabels S) (h : S t t') (scope : ScopeId) (hv : v.Like R v') :
    RunsLike together R S (fun _ _ => True) (Eval.assign scope t v) (Eval.assign scope t' v') := by
  refine (nameOf hS h).bind fun name name' hname => .look fun st st' hst => ?_
  subst hname
  rw [hst.store.resolve?]
  cases st'.store.resolve? scope name with
  | none =>
    dsimp only
    rw [hS.text h]
    exact .raise (.some h) _
  | some target => exact .define target name hv

theorem applyUnary (hS : Token.Relabels S) (h : S t t') (hv : v.Like R v') :
    RunsLike together R S (Value.Like R) (Eval.applyUnary t v) (Eval.applyUnary t' v') := by
  unfold Eval.applyUnary
  rw [hS.kind h, hS.text h, hv.truthy]
  split
  · exact .pure (.bool _)
  · cases hv with
    | num x => exact .pure (.num _)
    | _ => exact .raise (.some h) _
  · exact .raise (.some h) _

theorem applyNumeric (hS : Token.Relabels S) (h : S t t') (x y : Number) :
    RunsLike together R S (Value.Like R) (Eval.applyNumeric t x y) (Eval.applyNumeric t' x y) := by
  unfold Eval.applyNumeric
  rw [hS.kind h, hS.text h]
  split
  · exact .pure (.num _)
  · exact .pure (.num _)
  · exact .pure (.num _)
  · exact .pure (.bool _)
  · exact .pure (.bool _)
  · exact .pure (.bool _)
  · exact .pure (.bool _)
  · exact .raise (.some h) _

theorem applyBinary (hS : Token.Relabels S) (h : S t t') (hv : v.Like R v') (hw : w.Like R w') :
    RunsLike together R S (Value.Like R) (Eval.applyBinary t v w) (Eval.applyBinary t' v' w') := by
  unfold Eval.applyBinary
  rw [hS.kind h, hv.equal hw]
  split
  · exact .pure (.bool _)
  · exact .pure (.bool _)
  · cases hv with
    | num x =>
      cases hw with
      | num y => exact .pure (.num _)
      | _ => exact .raise (.some h) _
    | str s =>
      cases hw with
      | str s' => exact .pure (.str _)
      | _ => exact .raise (.some h) _
    | _ => exact .raise (.some h) _
  · cases hv with
    | num x =>
      cases hw with
      | num y => exact .applyNumeric hS h x y
      | _ => exact .raise (.some h) _
    | _ => exact .raise (.some h) _

/-! ### Calls -/

theorem bindParams (hR : Token.Relabels R) (scope : ScopeId) {params params' : List Node} {values values' : List Value}
    (hparams : List.Forall₂ (Node.Like R) params params') (hvalues : List.Forall₂ (Value.Like R) values values') :
    RunsLike together R S (fun _ _ => True) (Eval.bindParams scope params values)
      (Eval.bindParams scope params' values') := by
  induction hparams generalizing values values' with
  | nil => exact .pure trivial
  | cons hparam _ ih =>
    cases hvalues with
    | nil => exact .pure trivial
    | cons hvalue hvalues =>
      refine (needToken hparam.token?).bind fun t t' ht => (nameOf hR ht).bind fun name name' hname => ?_
      subst hname
      exact (define scope name hvalue).bind fun _ _ _ => ih hvalues

theorem callRecord {callee callee' : Value} {paren paren' : Node} (hcallee : callee.Like R callee')
    (hparen : paren.LikeToken S paren') (given : Nat) :
    (Eval.callRecord callee given paren).map (fun _ => ()) =
      (Eval.callRecord callee' given paren').map fun _ => () := by
  unfold Eval.callRecord Node.needToken
  rw [hcallee.text]
  unfold Node.LikeToken at hparen
  generalize paren.token? = found at hparen
  generalize paren'.token? = found' at hparen
  cases callee'.text with
  | error f => rfl
  | ok text => cases hparen <;> rfl

theorem callValue {invoke invoke' : Closure → List Value → Eval (Option Value)} {callee callee' : Value}
    {arguments arguments' : List Value} {paren paren' : Node} (hcallee : callee.Like R callee')
    (harguments : List.Forall₂ (Value.Like R) arguments arguments') (hparen : paren.LikeToken S paren')
    (hinvoke : ∀ f f', f.Like R f' →
      RunsLike together R S (Option.Rel (Value.Like R)) (invoke f arguments) (invoke' f' arguments')) :
    RunsLike together R S (Value.Like R) (Eval.callValue invoke callee arguments paren)
      (Eval.callValue invoke' callee' arguments' paren') := by
  have hleave {v v' : Value} (hv : v.Like R v') :
      RunsLike together R S (Value.Like R) (Eval.leaveCall >>= fun _ => Pure.pure v)
        (Eval.leaveCall >>= fun _ => Pure.pure v') := leaveCall.bind fun _ _ _ => .pure hv
  unfold Eval.callValue
  rw [hcallee.arity?, harguments.length_eq]
  split
  · exact .raise hparen _
  split
  · exact .raise hparen _
  refine (traceAt (by decide) (callRecord hcallee hparen _)).bind fun _ _ _ => (enterCall hparen).bind fun _ _ _ => ?_
  cases hcallee with
  | function hf =>
    dsimp only
    simp only [pure_bind]
    refine (hinvoke _ _ hf).bind fun o o' ho => ?_
    cases ho with
    | none => exact hleave .nil
    | some hv => exact hleave hv
  | _ => exact readClock.bind fun _ _ hv => hleave hv

end RunsLike

/-! ### Evaluation

One lemma for each kind of expression: if its parts run alike, so does the whole. -/

section

variable {fuel fuel' calls : Nat} {scope : ScopeId}

/-- The expressions run alike within their bounds. -/
def EvalLike (together : Prop) (R S : Token → Token → Prop) (fuel fuel' calls : Nat) (scope : ScopeId)
    (e e' : Node) : Prop :=
  RunsLike together R S (Value.Like R) (eval fuel calls scope e) (eval fuel' calls scope e')

theorem evalLike_literal (value : Node) :
    EvalLike together R S (fuel + 1) (fuel' + 1) calls scope (.literal value) (.literal value) :=
  .pure (.ofNode value)

theorem evalLike_reference (hS : Token.Relabels S) {name name' : Node} (hname : name.LikeToken S name') :
    EvalLike together R S (fuel + 1) (fuel' + 1) calls scope (.reference name) (.reference name') :=
  (RunsLike.needToken hname).bind fun _ _ ht => .lookup hS ht scope

theorem evalLike_assign (hS : Token.Relabels S) {name name' value value' : Node} (hname : name.LikeToken S name')
    (hvalue : EvalLike together R S fuel fuel' calls scope value value') :
    EvalLike together R S (fuel + 1) (fuel' + 1) calls scope (.assign name value) (.assign name' value') := by
  refine hvalue.bind fun v v' hv => (RunsLike.needToken hname).bind fun t t' ht => ?_
  exact (RunsLike.assign hS ht scope hv).bind fun _ _ _ => .pure hv

theorem evalLike_logical (hS : Token.Relabels S) {left left' operator operator' right right' : Node}
    (hleft : EvalLike together R S fuel fuel' calls scope left left') (hoperator : operator.LikeToken S operator')
    (hright : EvalLike together R S fuel fuel' calls scope right right') :
    EvalLike together R S (fuel + 1) (fuel' + 1) calls scope (.logical left operator right)
      (.logical left' operator' right') := by
  refine hleft.bind fun v v' hv => (RunsLike.needToken hoperator).bind fun t t' ht => ?_
  rw [hS.kind ht, hv.truthy]
  split
  · exact .pure hv
  · exact hright

theorem evalLike_unary (hS : Token.Relabels S) {operator operator' right right' : Node}
    (hoperator : operator.LikeToken S operator') (hright : EvalLike together R S fuel fuel' calls scope right right') :
    EvalLike together R S (fuel + 1) (fuel' + 1) calls scope (.unary operator right) (.unary operator' right') := by
  refine hright.bind fun v v' hv => (RunsLike.needToken hoperator).bind fun t t' ht => ?_
  exact .applyUnary hS ht hv

theorem evalLike_binary (hS : Token.Relabels S) {left left' operator operator' right right' : Node}
    (hleft : EvalLike together R S fuel fuel' calls scope left left') (hoperator : operator.LikeToken S operator')
    (hright : EvalLike together R S fuel fuel' calls scope right right') :
    EvalLike together R S (fuel + 1) (fuel' + 1) calls scope (.binary left operator right)
      (.binary left' operator' right') := by
  refine hleft.bind fun v v' hv => hright.bind fun w w' hw => (RunsLike.needToken hoperator).bind fun t t' ht => ?_
  exact .applyBinary hS ht hv hw

theorem evalLike_call {callee callee' paren paren' : Node} {arguments arguments' : List Node}
    (hcallee : EvalLike together R S fuel fuel' calls scope callee callee') (hparen : paren.LikeToken S paren')
    (harguments : List.Forall₂ (EvalLike together R S fuel fuel' calls scope) arguments arguments')
    (hinvoke : ∀ f f' values values', f.Like R f' → List.Forall₂ (Value.Like R) values values' →
      RunsLike together R S (Option.Rel (Value.Like R)) (invoke fuel calls f values) (invoke fuel' calls f' values')) :
    EvalLike together R S (fuel + 1) (fuel' + 1) calls scope (.call callee paren arguments)
      (.call callee' paren' arguments') := by
  refine hcallee.bind fun v v' hv => (RunsLike.mapM harguments fun _ _ h => h).bind fun values values' hvalues => ?_
  exact .callValue hv hvalues hparen fun f f' hf => hinvoke f f' values values' hf hvalues

end

/-- What is shown of the three computations for one pair of bounds. -/
structure LikeWithin (together : Prop) (R S : Token → Token → Prop) (fuel fuel' : Nat) : Prop where
  eval : ∀ calls scope {e e' : Node}, e.Like R e' → EvalLike together R S fuel fuel' calls scope e e'
  exec : ∀ calls scope {s s' : Node}, s.Like R s' →
    RunsLike together R S (Option.Rel (Value.Like R)) (Eval.exec fuel calls scope s) (Eval.exec fuel' calls scope s')
  invoke : ∀ calls f f' arguments arguments', f.Like R f' → List.Forall₂ (Value.Like R) arguments arguments' →
    RunsLike together R S (Option.Rel (Value.Like R)) (Eval.invoke fuel calls f arguments)
      (Eval.invoke fuel' calls f' arguments')

namespace LikeWithin

variable {fuel fuel' : Nat}

theorem eval_succ (hS : Token.Relabels S) (hRS : ∀ t t', R t t' → S t t') (ih : LikeWithin together R S fuel fuel')
    (calls : Nat)
    (scope : ScopeId) {e e' : Node} (h : e.Like R e') :
    EvalLike together R S (fuel + 1) (fuel' + 1) calls scope e e' := by
  have hsite {n n' : Node} (h : n.Like R n') : n.LikeToken S n' := h.token?.mono hRS
  cases h with
  | literal value => exact evalLike_literal value
  | grouping h => exact ih.eval calls scope h
  | reference hname => exact evalLike_reference hS (hsite hname)
  | assign hname hvalue => exact evalLike_assign hS (hsite hname) (ih.eval calls scope hvalue)
  | logical hleft hoperator hright =>
    exact evalLike_logical hS (ih.eval calls scope hleft) (hsite hoperator) (ih.eval calls scope hright)
  | unary hoperator hright => exact evalLike_unary hS (hsite hoperator) (ih.eval calls scope hright)
  | binary hleft hoperator hright =>
    exact evalLike_binary hS (ih.eval calls scope hleft) (hsite hoperator) (ih.eval calls scope hright)
  | call hcallee hparen harguments =>
    refine evalLike_call (ih.eval calls scope hcallee) (hsite hparen) ?_ (ih.invoke calls)
    exact harguments.imp fun _ _ h => ih.eval calls scope h
  | _ => exact .fault _

theorem exec_succ (hR : Token.Relabels R) (ih : LikeWithin together R S fuel fuel') (calls : Nat) (scope : ScopeId)
    {s s' : Node}
    (h : s.Like R s') : RunsLike together R S (Option.Rel (Value.Like R)) (Eval.exec (fuel + 1) calls scope s)
      (Eval.exec (fuel' + 1) calls scope s') := by
  have hnone : RunsLike together R S (Option.Rel (Value.Like R)) (pure none) (pure none) := .pure .none
  cases h with
  | expression hvalue => exact (ih.eval calls scope hvalue).bind fun _ _ _ => hnone
  | print hvalue =>
    refine (ih.eval calls scope hvalue).bind fun v v' hv => ?_
    rw [hv.text]
    refine (RunsLike.orFault (Q := Eq)
      (fun _ _ h h' => Except.ok.inj (h.symm.trans h')) rfl).bind fun text text' htext => ?_
    subst htext
    exact (RunsLike.write _).bind fun _ _ _ => hnone
  | @var name name' initial initial' hname hinitial =>
    have hdeclare {v v' : Value} (hv : v.Like R v') : RunsLike together R S (Option.Rel (Value.Like R)) (do
        let t ← needToken name
        define scope (← nameOf t) v
        traceAt 2 fun _ => do return "declare " ++ t.text ++ " = " ++ (← v.text)
        pure none) (do
        let t ← needToken name'
        define scope (← nameOf t) v'
        traceAt 2 fun _ => do return "declare " ++ t.text ++ " = " ++ (← v'.text)
        pure none) := by
      refine (RunsLike.needToken hname.token?).bind fun t t' ht => (RunsLike.nameOf hR ht).bind fun n n' hn => ?_
      subst hn
      refine (RunsLike.define scope n hv).bind fun _ _ _ => (RunsLike.traceAt (by decide) ?_).bind fun _ _ _ => hnone
      rw [hR.text ht, hv.text]
    simp only [Eval.exec, ← hinitial.isAbsent]
    split
    · exact hdeclare .nil
    · exact (ih.eval calls scope hinitial).bind fun _ _ hv => hdeclare hv
  | block h =>
    refine (RunsLike.openScope scope).bind fun inner inner' hinner => ?_
    subst hinner
    exact .untilReturn h fun _ _ h => ih.exec calls inner h
  | branch hcondition hyes hno =>
    refine (ih.eval calls scope hcondition).bind fun v v' hv => (RunsLike.traceAt (by decide) ?_).bind fun _ _ _ => ?_
    · rw [hcondition.source hR, hv.truthy]
    · rw [hv.truthy, hno.isAbsent]
      split
      · exact ih.exec calls scope hyes
      split
      · exact hnone
      · exact ih.exec calls scope hno
  | loop hcondition hbody =>
    refine (ih.eval calls scope hcondition).bind fun v v' hv => ?_
    rw [hv.truthy]
    split
    · refine (RunsLike.traceAt (by decide) ?_).bind fun _ _ _ => (ih.exec calls scope hbody).bind fun o o' ho => ?_
      · rw [hcondition.source hR]
      · cases ho with
        | none => exact ih.exec calls scope (.loop hcondition hbody)
        | some hv => exact .pure (.some hv)
    · exact hnone
  | function hname hparams hbody =>
    refine (RunsLike.needToken hname.token?).bind fun t t' ht => (RunsLike.nameOf hR ht).bind fun n n' hn => ?_
    subst hn
    rw [hR.text ht, hparams.length_eq]
    refine (RunsLike.closure scope _ hparams hbody).bind fun v v' hv => ?_
    refine (RunsLike.define scope n hv).bind fun _ _ _ => ?_
    exact (RunsLike.traceAt (by decide) rfl).bind fun _ _ _ => hnone
  | ret hkeyword hvalue =>
    simp only [Eval.exec, ← hvalue.isAbsent]
    split
    · exact .pure (.some .nil)
    · exact (ih.eval calls scope hvalue).bind fun _ _ hv => .pure (.some hv)
  | _ => exact .fault _

theorem invoke_succ (hR : Token.Relabels R) (ih : LikeWithin together R S fuel fuel') (calls : Nat) {f f' : Closure}
    {arguments arguments' : List Value} (hf : f.Like R f')
    (harguments : List.Forall₂ (Value.Like R) arguments arguments') :
    RunsLike together R S (Option.Rel (Value.Like R)) (Eval.invoke (fuel + 1) calls f arguments)
      (Eval.invoke (fuel' + 1) calls f' arguments') := by
  cases calls with
  | zero => exact .exhausted
  | succ calls =>
    simp only [Eval.invoke, ← hf.scope]
    refine (RunsLike.openScope f.scope).bind fun scope scope' hscope => ?_
    subst hscope
    refine (RunsLike.bindParams hR scope hf.params harguments).bind fun _ _ _ => ?_
    exact .untilReturn hf.body fun _ _ h => ih.exec calls scope h

end LikeWithin

/-- Like trees run alike, and more fuel does no harm. -/
theorem likeWithin (hR : Token.Relabels R) (hS : Token.Relabels S) (hRS : ∀ t t', R t t' → S t t') {fuel fuel' : Nat}
    (hle : fuel ≤ fuel') (htogether : together → fuel = fuel') : LikeWithin together R S fuel fuel' := by
  induction fuel generalizing fuel' with
  | zero =>
    exact ⟨fun _ _ _ _ _ => .outOfFuel fun h => htogether h ▸ rfl,
      fun _ _ _ _ _ => .outOfFuel fun h => htogether h ▸ rfl,
      fun _ _ _ _ _ _ _ => .outOfFuel fun h => htogether h ▸ rfl⟩
  | succ fuel ih =>
    obtain ⟨fuel', rfl⟩ : ∃ k, fuel' = k + 1 := ⟨fuel' - 1, by omega⟩
    have ih := ih (Nat.le_of_succ_le_succ hle) fun h => Nat.succ.inj (htogether h)
    exact ⟨fun calls scope _ _ h => ih.eval_succ hS hRS calls scope h,
      fun calls scope _ _ h => ih.exec_succ hR calls scope h,
      fun calls _ _ _ _ hf harguments => ih.invoke_succ hR calls hf harguments⟩

end Eval

end LoxLang
