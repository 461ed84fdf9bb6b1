import LoxLang.Proofs.Scope.Alignment
/-!
# Reading what was written

A scope lies on the chains of many others, so a write to it can be seen from many scopes. What a name
is read as, from any scope, changes only if the write is to the innermost scope that binds the name
there: an assignment is seen by exactly the scopes that resolve its name to the scope it was made in,
and a definition also by those that did not find the name nearer by.

So a scope need not be looked at to know what it holds. A ledger lists everything that was ever
written, and a name is read as the last value written to the innermost scope where it was written.
-/

namespace LoxLang

namespace Store

variable {α : Type} {store : Store α} {s t : ScopeId} {x y : Name} {v : α}

/-! ### The nearest scope -/

/-- The nearest scope from `s` outwards that has a property, found along the parents. -/
inductive Nearest (store : Store α) (p : ScopeId → Prop) : ScopeId → ScopeId → Prop
  | here {s : ScopeId} (hs : s < store.next) (h : p s) : Nearest store p s s
  | outer {s q t : ScopeId} (h : ¬p s) (hleads : store.Leads s q) (hrest : Nearest store p q t) : Nearest store p s t

/-- A name is resolved to the nearest scope that binds it. -/
def Resolves (store : Store α) (x : Name) : ScopeId → ScopeId → Prop := store.Nearest fun t => store.binds t x = true

theorem binds_lt_next (h : store.binds s x = true) : s < store.next := by
  by_contra hs
  rw [binds, Array.getElem?_eq_none (Nat.not_lt.mp hs)] at h
  cases h

theorem exists_parent? (hs : s < store.next) : ∃ parent, store.parent? s = some parent :=
  ⟨_, by rw [parent?, Array.getElem?_eq_getElem hs, Option.map_some]⟩

/-- Going along the chain is going along the parents. -/
theorem Acyclic.find?_chain_eq_some_iff (h : store.Acyclic) {p : ScopeId → Bool} :
    (store.chain s).find? p = some t ↔ store.Nearest (fun u => p u = true) s t := by
  constructor
  · intro hfind
    generalize hchain : store.chain s = scopes at hfind
    induction scopes generalizing s with
    | nil => cases hfind
    | cons first rest ih =>
      rw [h.chain_eq] at hchain
      cases hparent : store.parent? s with
      | none =>
        rw [hparent] at hchain
        cases hchain
      | some parent =>
        rw [hparent] at hchain
        obtain ⟨rfl, hrest⟩ := List.cons.inj hchain
        cases hp : p s with
        | true =>
          rw [List.find?_cons_of_pos hp] at hfind
          cases hfind
          exact .here (lt_next_of_parent? hparent) hp
        | false =>
          have hnot : ¬p s = true := Bool.eq_false_iff.mp hp
          rw [List.find?_cons_of_neg hnot] at hfind
          cases parent with
          | none =>
            rw [← hrest] at hfind
            cases hfind
          | some q => exact .outer hnot hparent (ih hrest hfind)
  · intro hnearest
    induction hnearest with
    | @here s hs hp =>
      obtain ⟨parent, hparent⟩ := exists_parent? hs
      rw [h.chain_eq, hparent]
      exact List.find?_cons_of_pos hp
    | @outer s q t hp hleads hrest ih =>
      have hparent : store.parent? s = some (some q) := hleads
      rw [h.chain_eq, hparent, Option.elim_some, List.find?_cons_of_neg hp]
      exact ih

theorem Acyclic.resolve?_eq_some_iff (h : store.Acyclic) : store.resolve? s x = some t ↔ store.Resolves x s t :=
  h.find?_chain_eq_some_iff

theorem Nearest.congr {p q : ScopeId → Prop} (hpq : ∀ u, p u ↔ q u) : store.Nearest p s t ↔ store.Nearest q s t := by
  rw [funext fun u => propext (hpq u)]

theorem Nearest.holds {p : ScopeId → Prop} (h : store.Nearest p s t) : p t := by
  induction h with
  | here _ hp => exact hp
  | outer _ _ _ ih => exact ih

/-- A name is resolved as soon as some scope on the way outwards binds it. -/
theorem exists_resolves_iff :
    (∃ t, store.Resolves x s t) ↔ ∃ t, Relation.ReflTransGen store.Leads s t ∧ store.binds t x = true := by
  constructor
  · rintro ⟨t, hresolves⟩
    refine ⟨t, ?_, hresolves.holds⟩
    induction hresolves with
    | here => exact .refl
    | outer _ hleads _ ih => exact .head hleads ih
  · rintro ⟨t, hway, hbinds⟩
    induction hway using Relation.ReflTransGen.head_induction_on with
    | refl => exact ⟨t, .here (binds_lt_next hbinds) hbinds⟩
    | @head s q hleads _ ih =>
      by_cases hs : store.binds s x = true
      · exact ⟨s, .here (lt_next_of_parent? hleads) hs⟩
      · obtain ⟨u, hu⟩ := ih
        exact ⟨u, .outer hs hleads hu⟩

/-! ### Reading -/

/-- A name is read in the first scope of the chain that has a value for it. -/
theorem get?_eq_findSome? :
    store.get? s x = (store.chain s).findSome? fun t => (store.bindings t).lookup x := by
  have hbinds : (fun t => store.binds t x) = fun t => ((store.bindings t).lookup x).isSome := funext fun t => binds_eq
  show ((store.chain s).find? fun t => store.binds t x).bind (fun t => (store.bindings t).lookup x) = _
  rw [hbinds]
  induction store.chain s with
  | nil => rfl
  | cons t rest ih =>
    rw [List.find?_cons, List.findSome?_cons]
    cases hvalue : (store.bindings t).lookup x with
    | none => exact ih
    | some value => exact hvalue

/-- From where a name is read. -/
theorem Acyclic.get?_eq_some_iff (h : store.Acyclic) :
    store.get? s x = some v ↔ ∃ t, store.Resolves x s t ∧ (store.bindings t).lookup x = some v := by
  show (store.resolve? s x).bind (fun t => (store.bindings t).lookup x) = some v ↔ _
  rw [Option.bind_eq_some_iff]
  simp only [h.resolve?_eq_some_iff]

theorem lookup_bindings_define (hs : s < store.next) : ((store.define s x v).bindings t).lookup y =
    if t = s ∧ y = x then some v else (store.bindings t).lookup y := by
  by_cases ht : t = s
  · subst ht
    rw [bindings_define_self hs, lookup_putBinding]
    simp
  · rw [bindings_define_of_ne ht, if_neg fun h => ht h.1]

theorem chain_define : (store.define s x v).chain t = store.chain t := by
  have hwithin (length : Nat) (t : ScopeId) :
      (store.define s x v).chainWithin length t = store.chainWithin length t := by
    induction length generalizing t with
    | zero => rfl
    | succ length ih =>
      rw [chainWithin_succ, chainWithin_succ, parent?_define, funext ih]
  rw [chain, chain, next_define, hwithin]

/-- A new scope is empty, so names are read in it as they are in its parent. -/
theorem Ordered.get?_child_next (h : store.Ordered) {p : ScopeId} (hp : p < store.next) :
    (store.child p).get? store.next x = store.get? p x := by
  have hparent : (store.child p).parent? store.next = some (some p) := (parent?_child p _).trans (if_pos rfl)
  have hchain : (store.child p).chain p = store.chain p :=
    h.chain_congr (h.child hp) fun t ht => (parent?_child p t).trans (if_neg (ht.trans_lt hp).ne)
  rw [get?_eq_findSome?, get?_eq_findSome?, (h.child hp).chain_eq, hparent]
  simp only [Option.elim_some, List.findSome?_cons, bindings_child, bindings_next, List.lookup_nil, hchain]

theorem Ordered.get?_child_of_lt (h : store.Ordered) {p : ScopeId} (hp : p < store.next) (hs : s < store.next) :
    (store.child p).get? s x = store.get? s x := by
  have hchain : (store.child p).chain s = store.chain s :=
    h.chain_congr (h.child hp) fun t ht => (parent?_child p t).trans (if_neg (ht.trans_lt hs).ne)
  rw [get?_eq_findSome?, get?_eq_findSome?, hchain]
  simp only [bindings_child]

/-- If a search differs at one place, where it now finds `v`, then it finds `v` or what it found before: `v` if it comes
to that place before it finds anything. -/
theorem findSome?_eq_of_eq_elsewhere {places : List ScopeId} {f g : ScopeId → Option α}
    (hg : ∀ t, g t = if t = s then some v else f t) :
    places.findSome? g =
      if places.find? (fun t => t == s || (f t).isSome) = some s then some v else places.findSome? f := by
  induction places with
  | nil => rfl
  | cons t rest ih =>
    rw [List.findSome?_cons, List.findSome?_cons, List.find?_cons, hg t]
    by_cases ht : t = s
    · simp [ht]
    · have hbeq : (t == s) = false := beq_false_of_ne ht
      cases hf : f t with
      | none => simpa [ht, hbeq] using ih
      | some value => simp [ht, hbeq]

/-- A definition is seen from where its scope is met before any other that binds the name. -/
theorem Acyclic.get?_define_self (h : store.Acyclic) (hs : s < store.next)
    (hnearest : store.Nearest (fun u => u = s ∨ store.binds u x = true) t s) :
    (store.define s x v).get? t x = some v := by
  have hfind : (store.chain t).find? (fun u => u == s || ((store.bindings u).lookup x).isSome) = some s := by
    rw [h.find?_chain_eq_some_iff]
    exact (Nearest.congr fun u => by rw [Bool.or_eq_true, beq_iff_eq, ← binds_eq]).mpr hnearest
  rw [get?_eq_findSome?, chain_define, findSome?_eq_of_eq_elsewhere (s := s) (v := v) fun u => ?_, if_pos hfind]
  rw [lookup_bindings_define hs]
  simp

theorem Acyclic.get?_define_other (h : store.Acyclic) (hs : s < store.next)
    (hother : ¬(y = x ∧ store.Nearest (fun u => u = s ∨ store.binds u x = true) t s)) :
    (store.define s x v).get? t y = store.get? t y := by
  rw [get?_eq_findSome?, get?_eq_findSome?, chain_define]
  by_cases hy : y = x
  · subst hy
    have hfind : ¬(store.chain t).find? (fun u => u == s || ((store.bindings u).lookup y).isSome) = some s := by
      intro hfind
      rw [h.find?_chain_eq_some_iff] at hfind
      exact hother ⟨rfl, (Nearest.congr fun u => by rw [Bool.or_eq_true, beq_iff_eq, ← binds_eq]).mp hfind⟩
    rw [findSome?_eq_of_eq_elsewhere (s := s) (v := v) fun u => ?_, if_neg hfind]
    rw [lookup_bindings_define hs]
    simp
  · congr 1
    funext u
    rw [lookup_bindings_define hs, if_neg fun h => hy h.2]

/-! ### Assigning -/

/-- The names that a scope binds, in the order of first binding. -/
def names (store : Store α) (t : ScopeId) : List Name := (store.bindings t).map Prod.fst

theorem map_fst_putBinding {bindings : List (Name × α)} (h : (bindings.lookup x).isSome) :
    (Scope.putBinding x v bindings).map Prod.fst = bindings.map Prod.fst := by
  induction bindings with
  | nil => cases h
  | cons b rest ih =>
    obtain ⟨n, value⟩ := b
    unfold Scope.putBinding
    by_cases hn : n = x
    · simp [hn]
    · have hrest : (rest.lookup x).isSome := by
        rwa [List.lookup_cons, beq_false_of_ne fun hx => hn hx.symm] at h
      simp [hn, ih hrest]

/-- To define a bound name adds no name. -/
theorem names_define (h : store.binds s x = true) (t : ScopeId) : (store.define s x v).names t = store.names t := by
  unfold names
  by_cases ht : t = s
  · subst ht
    rw [bindings_define_self (binds_lt_next h)]
    exact map_fst_putBinding (binds_eq ▸ h)
  · rw [bindings_define_of_ne ht]

theorem Acyclic.assign?_eq_some_iff (h : store.Acyclic) {store' : Store α} :
    store.assign? s x v = some store' ↔ ∃ u, store.Resolves x s u ∧ store' = store.define u x v := by
  rw [assign?, Option.map_eq_some_iff]
  simp only [h.resolve?_eq_some_iff, eq_comm (a := store')]

/-- What can be read after a write. -/
structure ReadOverWrite (store : Store α) : Prop where
  assigns_iff : ∀ s x v, (∃ store', store.assign? s x v = some store') ↔
    ∃ t, Relation.ReflTransGen store.Leads s t ∧ store.binds t x = true
  /-- An assignment is to the scope `u` that the name is resolved to, and seen from where it is resolved to the same. -/
  assigned : ∀ s x v store', store.assign? s x v = some store' → ∃ u, store.Resolves x s u ∧
    (∀ t, store.Resolves x t u → store'.get? t x = some v) ∧
    (∀ t y, ¬(y = x ∧ store.Resolves x t u) → store'.get? t y = store.get? t y) ∧
    (∀ t, store'.names t = store.names t ∧ store'.parent? t = store.parent? t)
  /-- A definition is seen from where its scope is the nearest one that is that scope or bound the name before. -/
  defined : ∀ s x v, s < store.next →
    (∀ t, store.Nearest (fun u => u = s ∨ store.binds u x = true) t s → (store.define s x v).get? t x = some v) ∧
    (∀ t y, ¬(y = x ∧ store.Nearest (fun u => u = s ∨ store.binds u x = true) t s) →
      (store.define s x v).get? t y = store.get? t y)

theorem Acyclic.readOverWrite (h : store.Acyclic) : store.ReadOverWrite where
  assigns_iff s x v := by
    rw [← exists_resolves_iff]
    simp only [h.assign?_eq_some_iff]
    constructor
    · rintro ⟨_, u, hu, -⟩
      exact ⟨u, hu⟩
    · rintro ⟨u, hu⟩
      exact ⟨_, u, hu, rfl⟩
  assigned s x v store' hassign := by
    obtain ⟨u, hu, rfl⟩ := h.assign?_eq_some_iff.mp hassign
    have hbinds : store.binds u x = true := hu.holds
    -- The scope binds the name already, so it makes no difference that it is asked for by itself.
    have hsame (t : ScopeId) : store.Nearest (fun w => w = u ∨ store.binds w x = true) t u ↔ store.Resolves x t u :=
      Nearest.congr fun w => or_iff_right_of_imp fun hw => hw ▸ hbinds
    refine ⟨u, hu, fun t ht => h.get?_define_self (binds_lt_next hbinds) ((hsame t).mpr ht), fun t y hother => ?_,
      fun t => ⟨names_define hbinds t, parent?_define t⟩⟩
    rw [← hsame] at hother
    exact h.get?_define_other (binds_lt_next hbinds) hother
  defined s x v hs := ⟨fun t ht => h.get?_define_self hs ht, fun t y hother => h.get?_define_other hs hother⟩

/-! ### Commands -/

namespace Command

/-- Every command is about scopes that are there when it is given, of which there are `count` at first. -/
def AllPlaced : (count : Nat) → List (Command α) → Prop
  | _, [] => True
  | count, child parent :: rest => parent < count ∧ AllPlaced (count + 1) rest
  | count, define s _ _ :: rest => s < count ∧ AllPlaced count rest
  | count, assign s _ _ :: rest => s < count ∧ AllPlaced count rest

end Command

end Store

/-! ### The ledger -/

open Store

/-- Everything that was written, with the last entry first: where, which name, and which value. -/
structure Ledger (α : Type) where
  /-- The parents of the scopes in order. -/
  parents : List (Option ScopeId)
  writes : List (ScopeId × Name × α)

namespace Ledger

variable {α : Type} {ledger later : Ledger α} {store : Store α} {s t : ScopeId} {x : Name} {v : α}

/-- One scope and nothing written. -/
def root : Ledger α := ⟨[none], []⟩

/-- The last value written to a name in a scope. -/
def last? (ledger : Ledger α) (t : ScopeId) (x : Name) : Option α :=
  (ledger.writes.find? fun write => write.1 == t && write.2.1 == x).map fun write => write.2.2

/-- The innermost scope from `s` outwards where the name was written. -/
inductive Innermost (ledger : Ledger α) (x : Name) : ScopeId → ScopeId → Prop
  | here {s : ScopeId} {v : α} (h : ledger.last? s x = some v) : Innermost ledger x s s
  | outer {s p t : ScopeId} (h : ledger.last? s x = none) (hparent : ledger.parents[s]? = some (some p))
      (hrest : Innermost ledger x p t) : Innermost ledger x s t

/-- How a command is entered. An assignment is a write to the innermost scope where its name was written, if there is
one. -/
inductive Enters (ledger : Ledger α) : Command α → Ledger α → Prop
  | child (p : ScopeId) : Enters ledger (.child p) { ledger with parents := ledger.parents ++ [some p] }
  | define (s : ScopeId) (x : Name) (v : α) :
      Enters ledger (.define s x v) { ledger with writes := (s, x, v) :: ledger.writes }
  | assign {s t : ScopeId} {x : Name} (v : α) (h : ledger.Innermost x s t) :
      Enters ledger (.assign s x v) { ledger with writes := (t, x, v) :: ledger.writes }
  | refused {s : ScopeId} {x : Name} (v : α) (h : ∀ t, ¬ledger.Innermost x s t) : Enters ledger (.assign s x v) ledger

inductive EntersAll : Ledger α → List (Command α) → Ledger α → Prop
  | nil (ledger : Ledger α) : EntersAll ledger [] ledger
  | cons {ledger mid last : Ledger α} {command : Command α} {rest : List (Command α)} (h : ledger.Enters command mid)
      (hrest : EntersAll mid rest last) : EntersAll ledger (command :: rest) last

/-- The ledger of a store: what was written last is what the scopes hold. -/
structure IsOf (ledger : Ledger α) (store : Store α) : Prop where
  ordered : store.Ordered
  parents : ∀ t, store.parent? t = ledger.parents[t]?
  values : ∀ t x, (store.bindings t).lookup x = ledger.last? t x

theorem last?_cons (t u : ScopeId) (x y : Name) (v : α) (parents : List (Option ScopeId))
    (writes : List (ScopeId × Name × α)) :
    last? ⟨parents, (u, y, v) :: writes⟩ t x = if t = u ∧ x = y then some v else last? ⟨parents, writes⟩ t x := by
  unfold last?
  rw [List.find?_cons]
  by_cases h : t = u ∧ x = y
  · simp [h]
  · have hother : ((u == t && y == x) : Bool) = false := by
      rw [Bool.eq_false_iff, Ne, Bool.and_eq_true, beq_iff_eq, beq_iff_eq]
      exact fun h' => h ⟨h'.1.symm, h'.2.symm⟩
    simp only [hother, if_neg h]

namespace IsOf

theorem root : (root : Ledger α).IsOf Store.root where
  ordered s p h := by
    cases s with
    | zero => cases h
    | succ s => cases h
  parents t := by
    cases t with
    | zero => rfl
    | succ t => rfl
  values t x := by
    cases t with
    | zero => rfl
    | succ t => rfl

theorem length_parents (h : ledger.IsOf store) : ledger.parents.length = store.next := by
  have hnext (t : ScopeId) : store.parent? t = none ↔ store.next ≤ t := by
    rw [parent?, Option.map_eq_none_iff, Array.getElem?_eq_none_iff]
    rfl
  have hlength (t : ScopeId) : store.next ≤ t ↔ ledger.parents.length ≤ t := by
    rw [← hnext, h.parents, List.getElem?_eq_none_iff]
  exact le_antisymm ((hlength _).mp le_rfl) ((hlength _).mpr le_rfl)

theorem binds_iff (h : ledger.IsOf store) : store.binds s x = true ↔ ∃ v, ledger.last? s x = some v := by
  rw [binds_eq, h.values, Option.isSome_iff_exists]

theorem innermost_iff (h : ledger.IsOf store) : ledger.Innermost x s t ↔ store.Resolves x s t := by
  constructor
  · intro hin
    induction hin with
    | here hlast =>
      have hbinds := h.binds_iff.mpr ⟨_, hlast⟩
      exact .here (binds_lt_next hbinds) hbinds
    | outer hlast hparent _ ih =>
      refine .outer (fun hbinds => ?_) ((h.parents _).trans hparent) ih
      obtain ⟨v, hv⟩ := h.binds_iff.mp hbinds
      cases hlast.symm.trans hv
  · intro hresolves
    induction hresolves with
    | here _ hbinds =>
      obtain ⟨v, hv⟩ := h.binds_iff.mp hbinds
      exact .here hv
    | @outer s q t hbinds hleads _ ih =>
      refine .outer ?_ ((h.parents s).symm.trans hleads) ih
      rw [Option.eq_none_iff_forall_ne_some]
      exact fun v hv => hbinds (h.binds_iff.mpr ⟨v, hv⟩)

/-- A name is read as the last value written to the innermost scope. -/
theorem get?_eq_some_iff (h : ledger.IsOf store) :
    store.get? s x = some v ↔ ∃ t, ledger.Innermost x s t ∧ ledger.last? t x = some v := by
  rw [h.ordered.acyclic.get?_eq_some_iff]
  simp only [h.innermost_iff, h.values]

theorem child (h : ledger.IsOf store) {p : ScopeId} (hp : p < store.next) :
    IsOf { ledger with parents := ledger.parents ++ [some p] } (store.child p) where
  ordered := h.ordered.child hp
  parents t := by
    rw [parent?_child, ← h.length_parents, h.parents]
    rcases Nat.lt_trichotomy t ledger.parents.length with hlt | rfl | hgt
    · rw [if_neg hlt.ne, List.getElem?_append_left hlt]
    · rw [if_pos rfl, List.getElem?_concat_length]
    · have hlength : (ledger.parents ++ [some p]).length ≤ t := by rwa [List.length_append]
      rw [if_neg hgt.ne', List.getElem?_eq_none hgt.le, List.getElem?_eq_none hlength]
  values t x := (congrArg (List.lookup x) bindings_child).trans (h.values t x)

theorem write (h : ledger.IsOf store) (hs : s < store.next) (x : Name) (v : α) :
    IsOf { ledger with writes := (s, x, v) :: ledger.writes } (store.define s x v) where
  ordered t p hparent := h.ordered t p (parent?_define t ▸ hparent)
  parents t := (parent?_define t).trans (h.parents t)
  values t y := by rw [lookup_bindings_define hs, h.values, last?_cons]

/-- The ledger goes on to be that of the store. -/
theorem assign (h : ledger.IsOf store) (s : ScopeId) (x : Name) (v : α) :
    ∃ later, ledger.Enters (.assign s x v) later ∧ later.IsOf ((store.assign? s x v).getD store) := by
  cases hassign : store.assign? s x v with
  | some store' =>
    obtain ⟨t, hresolves, rfl⟩ := h.ordered.acyclic.assign?_eq_some_iff.mp hassign
    exact ⟨_, .assign v (h.innermost_iff.mpr hresolves), h.write (binds_lt_next hresolves.holds) x v⟩
  | none =>
    refine ⟨ledger, .refused v fun t hin => ?_, h⟩
    have hresolves := h.innermost_iff.mp hin
    cases hassign.symm.trans (h.ordered.acyclic.assign?_eq_some_iff.mpr ⟨t, hresolves, rfl⟩)

/-- What one command keeps, all of them keep. -/
theorem performAll (h : ledger.IsOf store) {commands : List (Command α)}
    (hplaced : Command.AllPlaced store.next commands) :
    ∃ later, EntersAll ledger commands later ∧ later.IsOf (Command.performAll store commands) := by
  induction commands generalizing ledger store with
  | nil => exact ⟨ledger, .nil ledger, h⟩
  | cons command rest ih =>
    cases command with
    | child p =>
      obtain ⟨later, hrest, hlater⟩ := ih (h.child hplaced.1) (next_child p ▸ hplaced.2)
      exact ⟨later, .cons (.child p) hrest, hlater⟩
    | define s x v =>
      obtain ⟨later, hrest, hlater⟩ := ih (h.write hplaced.1 x v) (by rw [next_define]; exact hplaced.2)
      exact ⟨later, .cons (.define s x v) hrest, hlater⟩
    | assign s x v =>
      have hnext : ((store.assign? s x v).getD store).next = store.next := by
        cases hassign : store.assign? s x v with
        | none => rfl
        | some store' =>
          obtain ⟨t, -, rfl⟩ := h.ordered.acyclic.assign?_eq_some_iff.mp hassign
          exact next_define
      obtain ⟨mid, hmid, hof⟩ := h.assign s x v
      obtain ⟨later, hrest, hlater⟩ := ih hof (hnext ▸ hplaced.2)
      exact ⟨later, .cons hmid hrest, hlater⟩

end IsOf

end Ledger

/-! ### Tokens -/

namespace Eval

theorem nameOf_of_name? {tok : Token} {name : Name} (htok : tok.lexeme.name? = some name) (st : State) :
    nameOf tok st = .ok name st := by
  rw [nameOf, htok]
  rfl

/-- Reading a name through a token. -/
theorem lookup_eq {tok : Token} {name : Name} (htok : tok.lexeme.name? = some name) (s : ScopeId) (st : State) :
    lookup s tok st = (st.store.get? s name).elim (.error (.error ⟨some tok, .undefined tok.text⟩) st) (.ok · st) := by
  have hget : (get : Eval State) st = .ok st st := rfl
  unfold lookup
  simp only [bind, EStateM.bind, nameOf_of_name? htok, hget]
  cases st.store.get? s name <;> rfl

/-- Assigning to a name through a token. -/
theorem assign_eq {tok : Token} {name : Name} (htok : tok.lexeme.name? = some name) (s : ScopeId) (value : Value)
    (st : State) : assign s tok value st = (st.store.assign? s name value).elim
      (.error (.error ⟨some tok, .undefined tok.text⟩) st) fun store => .ok () { st with store := store } := by
  have hget : (get : Eval State) st = .ok st st := rfl
  unfold assign Store.assign?
  simp only [bind, EStateM.bind, nameOf_of_name? htok, hget]
  cases st.store.resolve? s name <;> rfl

end Eval

/-- The laws of scopes. In every state whose scopes have no cycle of parents, writes are seen from exactly the scopes
they should be seen from; a name that is not bound on the way outwards is an error at its token, by which nothing
changes; and after any commands to one scope and those opened in it, a name is read as the last value written to the
innermost scope where it was written. -/
theorem reads_follow_writes (st : State) (hacyclic : st.store.Acyclic) (commands : List (Store.Command Value))
    (hplaced : Store.Command.AllPlaced 1 commands) :
    st.store.ReadOverWrite ∧
    (∀ (s : ScopeId) (tok : Token) (name : Name) (value : Value), tok.lexeme.name? = some name →
      Eval.lookup s tok st =
        (st.store.get? s name).elim (.error (.error ⟨some tok, .undefined tok.text⟩) st) (.ok · st) ∧
      Eval.assign s tok value st = (st.store.assign? s name value).elim
        (.error (.error ⟨some tok, .undefined tok.text⟩) st) (fun store => .ok () { st with store := store }) ∧
      (Cause.undefined tok.text).message = "Undefined variable '" ++ tok.text ++ "'.") ∧
    ∃ ledger, Ledger.EntersAll .root commands ledger ∧ ∀ s x value,
      (Store.Command.performAll Store.root commands).get? s x = some value ↔
        ∃ t, ledger.Innermost x s t ∧ ledger.last? t x = some value := by
  refine ⟨hacyclic.readOverWrite, fun s tok name value htok => ⟨Eval.lookup_eq htok s st,
    Eval.assign_eq htok s value st, ?_⟩, ?_⟩
  · simp [Cause.message, Cause.pieces, String.join]
  · obtain ⟨ledger, hentered, hof⟩ := Ledger.IsOf.root.performAll hplaced
    exact ⟨ledger, hentered, fun s x value => hof.get?_eq_some_iff⟩

/-- A global that is nil, hidden by another one of its name, which is assigned from further inside. -/
def hiddenNil : List (Store.Command Value) :=
  [.define 0 "x" .nil, .child 0, .define 1 "x" (.bool true), .child 1, .assign 2 "x" (.str "new"), .assign 2 "y" .nil]

theorem reads_follow_writes_hiddenNil :
    let store := Store.Command.performAll Store.root hiddenNil
    Store.Command.AllPlaced 1 hiddenNil ∧ store.Acyclic ∧
      store.get? 2 "x" = some (.str "new") ∧ store.get? 0 "x" = some .nil ∧
      (∃ ledger, Ledger.EntersAll .root hiddenNil ledger ∧
        (∃ t, ledger.Innermost "x" 2 t ∧ ledger.last? t "x" = some (.str "new")) ∧
        ∃ t, ledger.Innermost "x" 0 t ∧ ledger.last? t "x" = some .nil) ∧
      ¬∃ store', store.assign? 2 "y" .nil = some store' := by
  intro store
  have hplaced : Store.Command.AllPlaced 1 hiddenNil := by simp [hiddenNil, Store.Command.AllPlaced]
  have hacyclic : store.Acyclic := by
    obtain ⟨_, -, hof⟩ := Ledger.IsOf.root.performAll hplaced
    exact hof.ordered.acyclic
  have hinner : store.get? 2 "x" = some (.str "new") := rfl
  have houter : store.get? 0 "x" = some .nil := rfl
  obtain ⟨hlaws, -, ledger, hentered, hreads⟩ :=
    reads_follow_writes { State.initial 0 true fun _ => .zero with store := store } hacyclic hiddenNil hplaced
  refine ⟨hplaced, hacyclic, hinner, houter, ⟨ledger, hentered, (hreads 2 _ _).mp hinner, (hreads 0 _ _).mp houter⟩, ?_⟩
  rw [hlaws.assigns_iff 2 "y" .nil]
  rintro ⟨t, -, hbinds⟩
  match t, hbinds with
  | 0, hbinds => cases hbinds
  | 1, hbinds => cases hbinds
  | 2, hbinds => cases hbinds
  | _ + 3, hbinds => cases hbinds

end LoxLang
