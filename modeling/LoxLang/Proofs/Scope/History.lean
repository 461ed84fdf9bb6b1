import LoxLang.Proofs.Eval.Safety
import Mathlib.Data.List.Perm.Subperm
import Mathlib.Logic.Relation
/-!
# The history of a store

There are three things that can be asked of a store: to open a scope, to define a name in a scope, and
to assign to a name, wherever it is bound. Commands are valid in the store that they meet if the scopes
they are about, and those of functions that they store, are allocated.

Nothing is ever taken back. So scopes keep their parents and bound names stay bound, and a name is
resolved ever more inward: to the scope it was resolved to before or to one nearer by, and to a nearer
one only if the name was defined there in between. An assignment binds no name.
-/

namespace LoxLang

/-- If the value is a function, its scope is one of the first `next`. -/
def Value.ScopedBelow (next : ScopeId) : Value → Prop
  | .function f => f.scope < next
  | _ => True

theorem Value.ScopedBelow.mono {next next' : ScopeId} {v : Value} (h : v.ScopedBelow next) (hle : next ≤ next') :
    v.ScopedBelow next' := by
  cases v with
  | function f => exact Nat.lt_of_lt_of_le h hle
  | _ => trivial

namespace Store

/-! ### Parents and names -/

section

variable {α : Type} (store : Store α)

/-- The parent of a scope, if there is such a scope. -/
def parent? (s : ScopeId) : Option (Option ScopeId) := store.scopes[s]?.map Scope.parent

variable {store} {s : ScopeId} {name : Name} {value : α}

theorem next_child (p : ScopeId) : (store.child p).next = store.next + 1 := by simp [next, child]

theorem next_define : (store.define s name value).next = store.next := by simp [next, define]

theorem parent?_child (p t : ScopeId) :
    (store.child p).parent? t = if t = store.next then some (some p) else store.parent? t := by
  unfold parent? child next
  rw [Array.getElem?_push]
  split <;> rfl

theorem parent?_define (t : ScopeId) : (store.define s name value).parent? t = store.parent? t := by
  unfold parent? define
  rw [Array.getElem?_modify]
  split
  · cases store.scopes[t]? <;> rfl
  · rfl

theorem lookup_putBinding (name other : Name) (value : α) (bindings : List (Name × α)) :
    (Scope.putBinding name value bindings).lookup other =
      if other = name then some value else bindings.lookup other := by
  induction bindings with
  | nil =>
    by_cases hother : other = name
    · simp [Scope.putBinding, hother]
    · have hbeq : (other == name) = false := beq_false_of_ne hother
      simp [Scope.putBinding, List.lookup_cons, hbeq, hother]
  | cons b rest ih =>
    obtain ⟨n, v⟩ := b
    unfold Scope.putBinding
    by_cases hother : other = n
    · subst hother
      by_cases hname : other = name
      · simp [hname]
      · simp [hname]
    · have hbeq : (other == n) = false := beq_false_of_ne hother
      by_cases hname : n = name
      · subst hname
        simp [List.lookup_cons, hbeq, hother]
      · simp [List.lookup_cons, hbeq, hname, ih]

theorem binds_child (p t : ScopeId) : (store.child p).binds t name = store.binds t name := by
  unfold binds child
  rw [Array.getElem?_push]
  split
  next ht =>
    have hnone : store.scopes[t]? = none := Array.getElem?_eq_none (by omega)
    rw [hnone]
    rfl
  next => rfl

/-- A definition binds its name in its scope, if there is one, and nothing else. -/
theorem binds_define (t : ScopeId) (other : Name) : (store.define s name value).binds t other = true ↔
    store.binds t other = true ∨ t = s ∧ other = name ∧ s < store.next := by
  unfold binds define next
  rw [Array.getElem?_modify]
  by_cases hst : s = t
  · subst hst
    cases hscope : store.scopes[s]? with
    | none =>
      have hsize : store.scopes.size ≤ s := Array.getElem?_eq_none_iff.mp hscope
      simp [hsize]
    | some scope =>
      have hsize : s < store.scopes.size := (Array.getElem?_eq_some_iff.mp hscope).1
      by_cases hname : other = name
      · simp [Scope.binds, Scope.define, lookup_putBinding, hname, hsize]
      · simp [Scope.binds, Scope.define, lookup_putBinding, hname]
  · simp [hst, Ne.symm hst]

/-! ### Chains -/

/-- The second scope is the parent of the first. -/
def Leads (store : Store α) (s p : ScopeId) : Prop := store.parent? s = some (some p)

/-- Walking outwards from a scope never comes back to it. -/
def Acyclic (store : Store α) : Prop := ∀ s, ¬Relation.TransGen store.Leads s s

theorem lt_next_of_parent? {parent : Option ScopeId} (h : store.parent? s = some parent) : s < store.next := by
  obtain ⟨scope, hscope, -⟩ := Option.map_eq_some_iff.mp h
  exact (Array.getElem?_eq_some_iff.mp hscope).1

theorem chainWithin_succ (length : Nat) (s : ScopeId) : store.chainWithin (length + 1) s =
    (store.parent? s).elim [] fun parent => s :: parent.elim [] (store.chainWithin length) := by
  unfold parent?
  rw [chainWithin]
  cases store.scopes[s]? <;> rfl

theorem chainWithin_of_le (h : store.next ≤ s) (length : Nat) : store.chainWithin length s = [] := by
  cases length with
  | zero => rfl
  | succ length =>
    have hnone : store.parent? s = none := by rw [parent?, Array.getElem?_eq_none h, Option.map_none]
    rw [chainWithin_succ, hnone, Option.elim_none]

/-- A shorter bound cuts the same walk. -/
theorem chainWithin_eq_take (length : Nat) (s : ScopeId) :
    store.chainWithin length s = (store.chainWithin (length + 1) s).take length := by
  induction length generalizing s with
  | zero => rfl
  | succ length ih =>
    rw [chainWithin_succ length, chainWithin_succ (length + 1)]
    cases store.parent? s with
    | none => rfl
    | some parent =>
      cases parent with
      | none => simp
      | some p => simp only [Option.elim_some, List.take_succ_cons, ← ih p]

/-- What is met on the way are scopes that lie further and further out. -/
theorem pairwise_chainWithin (length : Nat) (s : ScopeId) :
    (store.chainWithin length s).Pairwise (Relation.TransGen store.Leads) ∧
      ∀ t ∈ store.chainWithin length s, t < store.next ∧ Relation.ReflTransGen store.Leads s t := by
  induction length generalizing s with
  | zero => simp [chainWithin]
  | succ length ih =>
    rw [chainWithin_succ]
    cases hparent : store.parent? s with
    | none => simp
    | some parent =>
      have hs := lt_next_of_parent? hparent
      cases parent with
      | none => simp [hs, Relation.ReflTransGen.refl]
      | some p =>
        obtain ⟨hpairs, hmem⟩ := ih p
        have hstep : store.Leads s p := hparent
        refine ⟨.cons (fun t ht => .head' hstep (hmem t ht).2) hpairs, fun t ht => ?_⟩
        rcases List.mem_cons.mp ht with rfl | ht
        · exact ⟨hs, .refl⟩
        · exact ⟨(hmem t ht).1, .head hstep (hmem t ht).2⟩

/-- No scope is met twice, so the bound on the length of a chain is not exceeded. -/
theorem Acyclic.length_chainWithin_le (h : store.Acyclic) (length : Nat) (s : ScopeId) :
    (store.chainWithin length s).length ≤ store.next := by
  obtain ⟨hpairs, hmem⟩ := store.pairwise_chainWithin length s
  have hnodup : (store.chainWithin length s).Nodup := by
    refine hpairs.imp ?_
    rintro t _ hlead rfl
    exact h t hlead
  have hsubset : store.chainWithin length s ⊆ List.range store.next := fun t ht => List.mem_range.mpr (hmem t ht).1
  simpa using (List.Nodup.subperm hnodup hsubset).length_le

/-- The walk outwards from a scope goes on from its parent and ends where there is none. -/
theorem Acyclic.chain_eq (h : store.Acyclic) (s : ScopeId) :
    store.chain s = (store.parent? s).elim [] fun parent => s :: parent.elim [] store.chain := by
  have hlength := h.length_chainWithin_le (store.next + 1) s
  rw [chain, chainWithin_eq_take, List.take_of_length_le hlength, chainWithin_succ]
  rfl

/-- Every parent was allocated before its children. -/
def Ordered (store : Store α) : Prop := ∀ s p, store.parent? s = some (some p) → p < s

theorem Ordered.acyclic (h : store.Ordered) : store.Acyclic := by
  have hless {s t : ScopeId} (hlead : Relation.TransGen store.Leads s t) : t < s := by
    induction hlead with
    | single hstep => exact h _ _ hstep
    | tail _ hstep ih => exact (h _ _ hstep).trans ih
  exact fun s hlead => Nat.lt_irrefl s (hless hlead)

theorem Ordered.chain_eq (h : store.Ordered) (s : ScopeId) :
    store.chain s = (store.parent? s).elim [] fun parent => s :: parent.elim [] store.chain :=
  h.acyclic.chain_eq s

theorem Ordered.child (h : store.Ordered) {p : ScopeId} (hp : p < store.next) : (store.child p).Ordered := by
  intro s q hparent
  rw [parent?_child] at hparent
  split at hparent
  next hs =>
    cases hparent
    exact hs ▸ hp
  next => exact h s q hparent

/-- Chains depend only on the parents of the scopes up to their first one. -/
theorem Ordered.chain_congr {store' : Store α} (h : store.Ordered) (h' : store'.Ordered)
    (hparents : ∀ t ≤ s, store'.parent? t = store.parent? t) : store'.chain s = store.chain s := by
  induction s using Nat.strong_induction_on with
  | _ s ih =>
    rw [h.chain_eq, h'.chain_eq, hparents s le_rfl]
    cases hparent : store.parent? s with
    | none => rfl
    | some parent =>
      cases parent with
      | none => rfl
      | some p =>
        have hp : p < s := h s p hparent
        simp only [Option.elim_some, ih p hp fun t ht => hparents t (Nat.le_trans ht hp.le)]

end

/-! ### Commands -/

/-- What is asked of the scopes. -/
inductive Command (α : Type) where
  | child (parent : ScopeId)
  | define (s : ScopeId) (name : Name) (value : α)
  | assign (s : ScopeId) (name : Name) (value : α)

namespace Command

section

variable {α : Type}

/-- The store after a command; an assignment that fails changes nothing. -/
def perform (store : Store α) : Command α → Store α
  | child parent => store.child parent
  | define s name value => store.define s name value
  | assign s name value => (store.assign? s name value).getD store

def performAll (store : Store α) (commands : List (Command α)) : Store α := commands.foldl perform store

theorem performAll_append (store : Store α) (commands more : List (Command α)) :
    performAll store (commands ++ more) = performAll (performAll store commands) more :=
  List.foldl_append

/-- An assignment defines the name where it is bound, or does nothing. -/
theorem perform_assign (store : Store α) (s : ScopeId) (name : Name) (value : α) :
    perform store (.assign s name value) = store ∨
      ∃ t, store.binds t name = true ∧ perform store (.assign s name value) = store.define t name value := by
  have hperform : perform store (.assign s name value) =
      ((store.resolve? s name).map fun t => store.define t name value).getD store := rfl
  rw [hperform]
  cases hresolve : store.resolve? s name with
  | none => exact .inl rfl
  | some t => exact .inr ⟨t, (List.find?_eq_some_iff_append.mp hresolve).1, rfl⟩

variable {store : Store α}

theorem next_le_perform (command : Command α) : store.next ≤ (command.perform store).next := by
  cases command with
  | child parent => exact (next_child parent).symm ▸ Nat.le_succ _
  | define => exact next_define.ge
  | assign s name value =>
    rcases perform_assign store s name value with hsame | ⟨t, -, hdefine⟩
    · exact hsame.symm ▸ le_rfl
    · exact hdefine.symm ▸ next_define.ge

theorem parent?_perform (command : Command α) {s : ScopeId} (hs : s < store.next) :
    (command.perform store).parent? s = store.parent? s := by
  cases command with
  | child parent => exact (parent?_child parent s).trans (if_neg (Nat.ne_of_lt hs))
  | define => exact parent?_define s
  | assign t name value =>
    rcases perform_assign store t name value with hsame | ⟨u, -, hdefine⟩
    · rw [hsame]
    · rw [hdefine, parent?_define]

theorem binds_perform (command : Command α) {s : ScopeId} {name : Name} (h : store.binds s name = true) :
    (command.perform store).binds s name = true := by
  cases command with
  | child parent => exact (binds_child parent s).trans h
  | define => exact (binds_define s name).mpr (.inl h)
  | assign t other value =>
    rcases perform_assign store t other value with hsame | ⟨u, -, hdefine⟩
    · rwa [hsame]
    · rw [hdefine]
      exact (binds_define s name).mpr (.inl h)

/-- Only a definition binds a name that was not bound. -/
theorem binds_of_perform {command : Command α} {s : ScopeId} {name : Name}
    (h : (command.perform store).binds s name = true) :
    store.binds s name = true ∨ ∃ value, command = .define s name value := by
  cases command with
  | child parent => exact .inl ((binds_child parent s).symm.trans h)
  | define t other value =>
    rcases (binds_define s name).mp h with hold | ⟨rfl, rfl, -⟩
    · exact .inl hold
    · exact .inr ⟨value, rfl⟩
  | assign t other value =>
    rcases perform_assign store t other value with hsame | ⟨u, hbound, hdefine⟩
    · exact .inl (hsame ▸ h)
    · rw [hdefine] at h
      rcases (binds_define s name).mp h with hold | ⟨rfl, rfl, -⟩
      · exact .inl hold
      · exact .inl hbound

end

end Command

/-! ### Well-scoped stores -/

/-- Parents are allocated before their children, and functions have allocated scopes. -/
structure WellScoped (store : Store Value) : Prop where
  ordered : store.Ordered
  closures : store.Holds (Value.ScopedBelow store.next)

theorem WellScoped.define {store : Store Value} (h : store.WellScoped) (s : ScopeId) (name : Name) {value : Value}
    (hvalue : value.ScopedBelow store.next) : (store.define s name value).WellScoped where
  ordered t p hparent := h.ordered t p (parent?_define t ▸ hparent)
  closures := by
    rw [next_define]
    exact h.closures.define s name hvalue

namespace Command

/-- What a command needs of the store it meets. -/
def Valid (store : Store Value) : Command Value → Prop
  | child parent => parent < store.next
  | define s _ value => s < store.next ∧ value.ScopedBelow store.next
  | assign s _ value => s < store.next ∧ value.ScopedBelow store.next

/-- Each of the commands is valid when its turn comes. -/
def AllValid : Store Value → List (Command Value) → Prop
  | _, [] => True
  | store, command :: rest => command.Valid store ∧ AllValid (command.perform store) rest

variable {store : Store Value} {commands : List (Command Value)}

theorem wellScoped_perform {command : Command Value} (hvalid : command.Valid store) (h : store.WellScoped) :
    (command.perform store).WellScoped := by
  cases command with
  | child parent =>
    constructor
    · exact h.ordered.child hvalid
    · have hholds := h.closures.child parent
      intro scope hscope b hb
      exact (hholds scope hscope b hb).mono (next_le_perform (.child parent))
  | define s name value => exact h.define s name hvalid.2
  | assign s name value =>
    rcases perform_assign store s name value with hsame | ⟨t, -, hdefine⟩
    · rwa [hsame]
    · rw [hdefine]
      exact h.define t name hvalid.2

/-! ### Histories -/

theorem AllValid.append {more : List (Command Value)} (h : AllValid store commands)
    (h' : AllValid (performAll store commands) more) : AllValid store (commands ++ more) := by
  induction commands generalizing store with
  | nil => exact h'
  | cons command rest ih => exact ⟨h.1, ih h.2 h'⟩

theorem next_le_performAll (store : Store Value) (commands : List (Command Value)) :
    store.next ≤ (performAll store commands).next := by
  induction commands generalizing store with
  | nil => exact le_rfl
  | cons command rest ih => exact (command.next_le_perform).trans (ih _)

theorem wellScoped_performAll (hvalid : AllValid store commands) (h : store.WellScoped) :
    (performAll store commands).WellScoped := by
  induction commands generalizing store with
  | nil => exact h
  | cons command rest ih => exact ih hvalid.2 (wellScoped_perform hvalid.1 h)

theorem parent?_performAll (commands : List (Command Value)) {s : ScopeId} (hs : s < store.next) :
    (performAll store commands).parent? s = store.parent? s := by
  induction commands generalizing store with
  | nil => rfl
  | cons command rest ih => exact (ih (hs.trans_le command.next_le_perform)).trans (command.parent?_perform hs)

theorem binds_performAll (commands : List (Command Value)) {s : ScopeId} {name : Name}
    (h : store.binds s name = true) : (performAll store commands).binds s name = true := by
  induction commands generalizing store with
  | nil => exact h
  | cons command rest ih => exact ih (command.binds_perform h)

/-- A name that came to be bound was defined there. -/
theorem define_mem_of_binds {s : ScopeId} {name : Name} (h : (performAll store commands).binds s name = true) :
    store.binds s name = true ∨ ∃ value, .define s name value ∈ commands := by
  induction commands generalizing store with
  | nil => exact .inl h
  | cons command rest ih =>
    rcases ih h with hmid | ⟨value, hmem⟩
    · rcases binds_of_perform hmid with hold | ⟨value, rfl⟩
      · exact .inl hold
      · exact .inr ⟨value, List.mem_cons_self⟩
    · exact .inr ⟨value, List.mem_cons_of_mem _ hmem⟩

theorem chain_performAll (hvalid : AllValid store commands) (h : store.WellScoped) {s : ScopeId} (hs : s < store.next) :
    (performAll store commands).chain s = store.chain s :=
  h.ordered.chain_congr (wellScoped_performAll hvalid h).ordered fun _ ht =>
    parent?_performAll commands (Nat.lt_of_le_of_lt ht hs)

end Command

/-! ### Resolution moves inward -/

/-- With more elements to find, the first one found is the same as before or an earlier one. -/
theorem find?_of_imp {β : Type} {p q : β → Bool} {items : List β} {b : β} (himp : ∀ a, p a = true → q a = true)
    (h : items.find? p = some b) : ∃ b' nearer farther, items.find? q = some b' ∧ items = nearer ++ b' :: farther ∧
      b ∈ b' :: farther ∧ (b' = b ∨ p b' = false) := by
  obtain ⟨hb, before, after, rfl, hbefore⟩ := List.find?_eq_some_iff_append.mp h
  cases hfind : before.find? q with
  | none =>
    refine ⟨b, before, after, ?_, rfl, List.mem_cons_self, .inl rfl⟩
    rw [List.find?_append, hfind, Option.none_or, List.find?_cons_of_pos (himp b hb)]
  | some b' =>
    obtain ⟨-, nearer, rest, rfl, -⟩ := List.find?_eq_some_iff_append.mp hfind
    refine ⟨b', nearer, rest ++ b :: after, ?_, by simp, by simp, .inr ?_⟩
    · rw [List.find?_append, hfind, Option.some_or]
    · simpa using hbefore b' (by simp)

/-- What holds of the scopes of a session over time, if the commands have led from the earlier store to the later one. -/
structure Inward (earlier : Store Value) (commands : List (Command Value)) (later : Store Value) : Prop where
  /-- Parents are allocated strictly earlier, and functions have allocated scopes. -/
  wellScoped : earlier.WellScoped ∧ later.WellScoped
  /-- So the walk outwards ends. -/
  walks : ∀ s, later.chain s = (later.parent? s).elim [] fun parent => s :: parent.elim [] later.chain
  parents : ∀ s < earlier.next, s < later.next ∧ later.parent? s = earlier.parent? s
  bindings : ∀ s name, earlier.binds s name = true → later.binds s name = true
  /-- A name stays resolved, on the chain that was there before, where it was or nearer; and nearer only if the name was
  defined there. -/
  resolves : ∀ s name t, earlier.resolve? s name = some t → ∃ t' nearer farther, later.resolve? s name = some t' ∧
    earlier.chain s = nearer ++ t' :: farther ∧ t ∈ t' :: farther ∧ (t' = t ∨ ∃ value, .define t' name value ∈ commands)

theorem lt_next_of_resolve? {store : Store Value} {s t : ScopeId} {name : Name} (h : store.resolve? s name = some t) :
    s < store.next := by
  by_contra hs
  rw [resolve?, chain, chainWithin_of_le (Nat.not_lt.mp hs)] at h
  cases h

theorem Command.inward_performAll {store : Store Value} {commands : List (Command Value)}
    (hvalid : AllValid store commands) (hw : store.WellScoped) : Inward store commands (performAll store commands) where
  wellScoped := ⟨hw, wellScoped_performAll hvalid hw⟩
  walks := (wellScoped_performAll hvalid hw).ordered.chain_eq
  parents s hs := ⟨hs.trans_le (next_le_performAll store commands), parent?_performAll commands hs⟩
  bindings _ _ hbinds := binds_performAll commands hbinds
  resolves s name t hresolve := by
    obtain ⟨t', nearer, farther, hfind, hchain, hmem, hold⟩ :=
      find?_of_imp (fun _ => binds_performAll commands) hresolve
    refine ⟨t', nearer, farther, ?_, hchain, hmem, ?_⟩
    · rwa [resolve?, chain_performAll hvalid hw (lt_next_of_resolve? hresolve)]
    · have hbinds : (performAll store commands).binds t' name = true := (List.find?_eq_some_iff_append.mp hfind).1
      rcases hold with rfl | hunbound
      · exact .inl rfl
      · rcases define_mem_of_binds hbinds with hbefore | hdefined
        · rw [hbefore] at hunbound
          cases hunbound
        · exact .inr hdefined

end Store

/-! ### States between runs -/

/-- The invariant between runs: the store is well scoped and has the global scope. -/
structure State.Settled (st : State) : Prop where
  wellScoped : st.store.WellScoped
  globals : State.globals < st.store.next

theorem State.settled_initial (level : Nat) (canTrace : Bool) (clock : Nat → Number) :
    (State.initial level canTrace clock).Settled where
  wellScoped := by
    have hroot : Store.WellScoped Store.root := by
      refine ⟨fun s p hparent => ?_, .root⟩
      cases s with
      | zero => cases hparent
      | succ s => cases hparent
    exact hroot.define State.globals "clock" trivial
  globals := Nat.zero_lt_one

end LoxLang
