import LoxLang.Proofs.Eval.Likeness
import LoxLang.Proofs.Scope.History
import Mathlib.Data.Fintype.EquivFin
/-!
# Stores that differ by empty scopes

Two runs of a program may open their scopes at different places, and one of them may open scopes that the
other does not. As long as the extra scopes bind nothing, names are resolved alike.

To say so, the scopes of both stores are numbered. The first scope of a number, on either side, is a scope
of its own, and its twin on the other side binds the same names. Every later scope of the same number is
an extra one: it is empty, and its parent has its number too. So a walk outwards from any scope comes past
extra scopes only until it meets the first of their number, and two walks that start at scopes of one
number go on as twins.

Functions are aligned if they are the same but for the scopes they were declared in, and these have one
number.
-/

namespace LoxLang

/-! ### Numbers of scopes -/

/-- The numbers of the scopes of two stores, by their places. -/
structure Numbering where
  left : List Nat
  right : List Nat

namespace Numbering

/-- No scope before has the same number. -/
def IsFirst (numbers : List Nat) (s : ScopeId) : Prop := ∀ t < s, numbers[t]? ≠ numbers[s]?

/-- A scope on the left and one on the right that have one number. -/
def Same (n : Numbering) (a b : ScopeId) : Prop := ∃ k, n.left[a]? = some k ∧ n.right[b]? = some k

/-- Scopes of one number that are no extra scopes. -/
structure Twins (n : Numbering) (a b : ScopeId) : Prop where
  same : n.Same a b
  left : IsFirst n.left a
  right : IsFirst n.right b

/-- The scopes that are numbered keep their numbers. -/
structure Grows (n n' : Numbering) : Prop where
  left : n.left <+: n'.left
  right : n.right <+: n'.right

/-- The scopes of one store, each with a number of its own. -/
def identity (next : ScopeId) : Numbering := ⟨List.range next, List.range next⟩

/-- One more scope on either side, of one number. -/
def push (n : Numbering) (k : Nat) : Numbering := ⟨n.left ++ [k], n.right ++ [k]⟩

def pushLeft (n : Numbering) (k : Nat) : Numbering := { n with left := n.left ++ [k] }

def pushRight (n : Numbering) (k : Nat) : Numbering := { n with right := n.right ++ [k] }

theorem isFirst_append {numbers more : List Nat} {s : ScopeId} (hs : s < numbers.length) :
    IsFirst (numbers ++ more) s ↔ IsFirst numbers s := by
  apply forall₂_congr
  intro t ht
  rw [List.getElem?_append_left (ht.trans hs), List.getElem?_append_left hs]

theorem isFirst_new {numbers : List Nat} {k : Nat} (hk : k ∉ numbers) : IsFirst (numbers ++ [k]) numbers.length := by
  intro t ht heq
  rw [List.getElem?_append_left ht, List.getElem?_concat_length] at heq
  exact hk (List.mem_of_getElem? heq)

theorem not_isFirst_old {numbers : List Nat} {k : Nat} (hk : k ∈ numbers) :
    ¬IsFirst (numbers ++ [k]) numbers.length := by
  intro hfirst
  obtain ⟨t, ht⟩ := List.mem_iff_getElem?.mp hk
  have hlt : t < numbers.length := (List.getElem?_eq_some_iff.mp ht).1
  apply hfirst t hlt
  rw [List.getElem?_append_left hlt, ht, List.getElem?_concat_length]

/-- A scope is one of those before, or it is the last one. -/
theorem getElem?_concat {numbers : List Nat} {k k' : Nat} {s : ScopeId} (h : (numbers ++ [k])[s]? = some k') :
    numbers[s]? = some k' ∨ s = numbers.length ∧ k' = k := by
  by_cases hs : s < numbers.length
  · rw [List.getElem?_append_left hs] at h
    exact .inl h
  · have hlast : s = numbers.length := by
      have hlt : s < (numbers ++ [k]).length := (List.getElem?_eq_some_iff.mp h).1
      rw [List.length_append, List.length_singleton] at hlt
      exact Nat.le_antisymm (Nat.le_of_lt_succ hlt) (Nat.not_lt.mp hs)
    subst hlast
    rw [List.getElem?_concat_length] at h
    exact .inr ⟨rfl, (Option.some.inj h).symm⟩

theorem lt_of_numbered {numbers : List Nat} {k : Nat} {s : ScopeId} (h : numbers[s]? = some k) : s < numbers.length :=
  (List.getElem?_eq_some_iff.mp h).1

theorem numbered_of_prefix {numbers numbers' : List Nat} {k : Nat} {s : ScopeId} (hgrows : numbers <+: numbers')
    (h : numbers[s]? = some k) : numbers'[s]? = some k := by
  obtain ⟨more, rfl⟩ := hgrows
  rwa [List.getElem?_append_left (lt_of_numbered h)]

/-! ### Growing -/

namespace Grows

variable {n n' n'' : Numbering} {a b : ScopeId}

theorem refl (n : Numbering) : n.Grows n := ⟨List.prefix_rfl, List.prefix_rfl⟩

theorem trans (h : n.Grows n') (h' : n'.Grows n'') : n.Grows n'' :=
  ⟨h.left.trans h'.left, h.right.trans h'.right⟩

theorem push (n : Numbering) (k : Nat) : n.Grows (n.push k) := ⟨List.prefix_append _ _, List.prefix_append _ _⟩

theorem pushLeft (n : Numbering) (k : Nat) : n.Grows (n.pushLeft k) := ⟨List.prefix_append _ _, List.prefix_rfl⟩

theorem pushRight (n : Numbering) (k : Nat) : n.Grows (n.pushRight k) := ⟨List.prefix_rfl, List.prefix_append _ _⟩

theorem same (h : n.Grows n') (hsame : n.Same a b) : n'.Same a b := by
  obtain ⟨k, hleft, hright⟩ := hsame
  exact ⟨k, numbered_of_prefix h.left hleft, numbered_of_prefix h.right hright⟩

theorem twins (h : n.Grows n') (htwins : n.Twins a b) : n'.Twins a b := by
  obtain ⟨hsame, hleft, hright⟩ := htwins
  refine ⟨h.same hsame, ?_, ?_⟩
  · obtain ⟨k, hk, -⟩ := hsame
    obtain ⟨more, hmore⟩ := h.left
    rw [← hmore]
    exact (isFirst_append (lt_of_numbered hk)).mpr hleft
  · obtain ⟨k, -, hk⟩ := hsame
    obtain ⟨more, hmore⟩ := h.right
    rw [← hmore]
    exact (isFirst_append (lt_of_numbered hk)).mpr hright

end Grows

namespace Twins

variable {n : Numbering} {a b a' b' : ScopeId} {k : Nat}

theorem right_eq (h : n.Twins a b) (h' : n.Twins a b') : b = b' := by
  obtain ⟨k, hk, hb⟩ := h.same
  obtain ⟨k', hk', hb'⟩ := h'.same
  obtain rfl : k = k' := Option.some.inj (hk.symm.trans hk')
  rcases Nat.lt_trichotomy b b' with hlt | heq | hgt
  · exact absurd (hb.trans hb'.symm) (h'.right b hlt)
  · exact heq
  · exact absurd (hb'.trans hb.symm) (h.right b' hgt)

theorem left_eq (h : n.Twins a b) (h' : n.Twins a' b) : a = a' := by
  obtain ⟨k, ha, hk⟩ := h.same
  obtain ⟨k', ha', hk'⟩ := h'.same
  obtain rfl : k = k' := Option.some.inj (hk.symm.trans hk')
  rcases Nat.lt_trichotomy a a' with hlt | heq | hgt
  · exact absurd (ha.trans ha'.symm) (h'.left a hlt)
  · exact heq
  · exact absurd (ha'.trans ha.symm) (h.left a' hgt)

theorem push (hleft : k ∉ n.left) (hright : k ∉ n.right) : (n.push k).Twins n.left.length n.right.length where
  same := ⟨k, List.getElem?_concat_length, List.getElem?_concat_length⟩
  left := isFirst_new hleft
  right := isFirst_new hright

/-- With one more scope on either side, there is one more pair of twins. -/
theorem of_push (hleft : k ∉ n.left) (hright : k ∉ n.right) (h : (n.push k).Twins a b) :
    n.Twins a b ∨ a = n.left.length ∧ b = n.right.length := by
  obtain ⟨k', ha, hb⟩ := h.same
  rcases getElem?_concat ha with hold | ⟨rfl, rfl⟩
  · rcases getElem?_concat hb with hold' | ⟨rfl, rfl⟩
    · have hfirst := (isFirst_append (lt_of_numbered hold)).mp h.left
      exact .inl ⟨⟨k', hold, hold'⟩, hfirst, (isFirst_append (lt_of_numbered hold')).mp h.right⟩
    · exact absurd (List.mem_of_getElem? hold) hleft
  · exact .inr ⟨rfl, (push hleft hright).right_eq h |>.symm⟩

/-- An extra scope is not among the twins. -/
theorem of_pushLeft (hk : k ∈ n.left) (h : (n.pushLeft k).Twins a b) : n.Twins a b := by
  obtain ⟨k', ha, hb⟩ := h.same
  rcases getElem?_concat ha with hold | ⟨rfl, -⟩
  · exact ⟨⟨k', hold, hb⟩, (isFirst_append (lt_of_numbered hold)).mp h.left, h.right⟩
  · exact absurd h.left (not_isFirst_old hk)

theorem of_pushRight (hk : k ∈ n.right) (h : (n.pushRight k).Twins a b) : n.Twins a b := by
  obtain ⟨k', ha, hb⟩ := h.same
  rcases getElem?_concat hb with hold | ⟨rfl, -⟩
  · exact ⟨⟨k', ha, hold⟩, h.left, (isFirst_append (lt_of_numbered hold)).mp h.right⟩
  · exact absurd h.right (not_isFirst_old hk)

end Twins

theorem identity_numbered {next k : Nat} {s : ScopeId} : (List.range next)[s]? = some k ↔ s < next ∧ k = s := by
  rw [List.getElem?_eq_some_iff]
  simp [eq_comm]

theorem identity_same {next : Nat} {s : ScopeId} (hs : s < next) : (identity next).Same s s :=
  ⟨s, List.getElem?_range hs, List.getElem?_range hs⟩

theorem identity_isFirst {next : Nat} {s : ScopeId} (hs : s < next) : IsFirst (List.range next) s := by
  intro t ht heq
  rw [List.getElem?_range hs, List.getElem?_range (ht.trans hs)] at heq
  exact Nat.ne_of_lt ht (Option.some.inj heq)

theorem identity_twins {next : Nat} {s : ScopeId} (hs : s < next) : (identity next).Twins s s :=
  ⟨identity_same hs, identity_isFirst hs, identity_isFirst hs⟩

theorem exists_new (n : Numbering) : ∃ k, k ∉ n.left ∧ k ∉ n.right := by
  obtain ⟨k, hk⟩ := Infinite.exists_notMem_finset (n.left ++ n.right).toFinset
  exact ⟨k, by simpa using hk⟩

end Numbering

/-! ### Values -/

/-- Values that are the same but for the scopes of functions, which have one number. -/
inductive Value.Aligned (n : Numbering) : Value → Value → Prop
  | nil : Aligned n .nil .nil
  | bool (b : Bool) : Aligned n (.bool b) (.bool b)
  | num (x : Number) : Aligned n (.num x) (.num x)
  | str (s : String) : Aligned n (.str s) (.str s)
  | function (f : Closure) {scope : ScopeId} (h : n.Same f.scope scope) :
      Aligned n (.function f) (.function { f with scope := scope })
  | clock : Aligned n .clock .clock
  | node (node : Node) : Aligned n (.node node) (.node node)

namespace Value.Aligned

variable {n n' : Numbering} {v v' w w' : Value}

theorem ofNode (node : Node) : (Value.ofNode node).Aligned n (Value.ofNode node) := by
  cases node with
  | null => exact .nil
  | bool b => exact .bool b
  | num x => exact .num x
  | str s => exact .str s
  | _ => exact .node _

theorem mono (h : v.Aligned n v') (hgrows : n.Grows n') : v.Aligned n' v' := by
  cases h with
  | nil => exact .nil
  | bool b => exact .bool b
  | num x => exact .num x
  | str s => exact .str s
  | function f h => exact .function f (hgrows.same h)
  | clock => exact .clock
  | node n => exact .node n

theorem truthy (h : v.Aligned n v') : v.truthy = v'.truthy := by cases h <;> rfl

theorem text (h : v.Aligned n v') : v.text = v'.text := by cases h <;> rfl

theorem equal (hv : v.Aligned n v') (hw : w.Aligned n w') : v.equal w = v'.equal w' := by
  cases hv <;> cases hw <;> rfl

theorem arity? (h : v.Aligned n v') : Eval.arity? v = Eval.arity? v' := by cases h <;> rfl

/-- Aligned with itself, if the scopes of functions are numbered alike. -/
theorem identity {next : ScopeId} (h : v.ScopedBelow next) : v.Aligned (.identity next) v := by
  cases v with
  | nil => exact .nil
  | bool b => exact .bool b
  | num x => exact .num x
  | str s => exact .str s
  | function f => exact .function f (Numbering.identity_same h)
  | clock => exact .clock
  | node n => exact .node n

end Value.Aligned

theorem BindingsLike.grows {n n' : Numbering} {bindings bindings' : List (Name × Value)}
    (h : BindingsLike (Value.Aligned n) bindings bindings') (hgrows : n.Grows n') :
    BindingsLike (Value.Aligned n') bindings bindings' :=
  h.imp fun _ _ hb => ⟨hb.1, hb.2.mono hgrows⟩

theorem Numbering.Grows.parents {n n' : Numbering} (hgrows : n.Grows n') {parent parent' : Option (Option ScopeId)}
    (h : Option.Rel (Option.Rel n.Same) parent parent') : Option.Rel (Option.Rel n'.Same) parent parent' := by
  cases h with
  | none => exact .none
  | some h =>
    cases h with
    | none => exact .some .none
    | some h => exact .some (.some (hgrows.same h))

/-! ### Stores -/

namespace Store

section

variable {α : Type} {store : Store α} {s t p : ScopeId} {name : Name} {value : α}

theorem bindings_child : (store.child p).bindings t = store.bindings t := by
  unfold bindings child
  rw [Array.getElem?_push]
  split
  next ht =>
    rw [ht, Array.getElem?_eq_none le_rfl]
    rfl
  next => rfl

theorem bindings_next : store.bindings store.next = [] := by
  unfold bindings next
  rw [Array.getElem?_eq_none le_rfl]
  rfl

theorem bindings_define_self (hs : s < store.next) :
    (store.define s name value).bindings s = Scope.putBinding name value (store.bindings s) := by
  unfold bindings define
  rw [Array.getElem?_modify, if_pos rfl, Array.getElem?_eq_getElem hs]
  rfl

theorem bindings_define_of_ne (hts : t ≠ s) : (store.define s name value).bindings t = store.bindings t := by
  unfold bindings define
  rw [Array.getElem?_modify, if_neg hts.symm]

theorem binds_eq : store.binds s name = ((store.bindings s).lookup name).isSome := by
  unfold binds bindings
  cases store.scopes[s]? <;> rfl

/-- The scopes are walked outwards until one binds the name. -/
theorem Ordered.resolve?_eq (h : store.Ordered) (s : ScopeId) (name : Name) : store.resolve? s name =
    (store.parent? s).elim none fun parent =>
      if store.binds s name then some s else parent.elim none fun p => store.resolve? p name := by
  unfold resolve?
  rw [h.chain_eq]
  cases store.parent? s with
  | none => rfl
  | some parent =>
    rw [Option.elim_some, Option.elim_some, List.find?_cons]
    cases store.binds s name with
    | true => rfl
    | false => cases parent <;> rfl

/-- The scopes are numbered, and the extra ones are empty and have parents of their own numbers. -/
structure Numbered (store : Store α) (numbers : List Nat) : Prop where
  length : numbers.length = store.next
  ordered : store.Ordered
  extra : ∀ s k, numbers[s]? = some k → ¬Numbering.IsFirst numbers s →
    store.bindings s = [] ∧ ∃ p, store.parent? s = some (some p) ∧ numbers[p]? = some k

namespace Numbered

variable {numbers : List Nat} {k : Nat}

theorem define (h : store.Numbered numbers) (hs : Numbering.IsFirst numbers s) :
    (store.define s name value).Numbered numbers where
  length := h.length.trans next_define.symm
  ordered t p hparent := h.ordered t p (by rwa [parent?_define] at hparent)
  extra t k hk hextra := by
    have hts : t ≠ s := fun hts => hextra (hts ▸ hs)
    rw [parent?_define, bindings_define_of_ne hts]
    exact h.extra t k hk hextra

/-- A scope that is opened gets a new number, or that of its parent. -/
theorem child (h : store.Numbered numbers) (hp : p < store.next) (hk : k ∉ numbers ∨ numbers[p]? = some k) :
    (store.child p).Numbered (numbers ++ [k]) where
  length := by rw [List.length_append, List.length_singleton, h.length, next_child]
  ordered s q hparent := by
    rw [parent?_child] at hparent
    split at hparent
    next hs =>
      cases hparent
      exact hs ▸ hp
    next => exact h.ordered s q hparent
  extra s k' hk' hextra := by
    rw [bindings_child, parent?_child]
    rcases Numbering.getElem?_concat hk' with hold | ⟨rfl, rfl⟩
    · have hlt := Numbering.lt_of_numbered hold
      have hextra' : ¬Numbering.IsFirst numbers s := fun hfirst => hextra ((Numbering.isFirst_append hlt).mpr hfirst)
      obtain ⟨hempty, q, hparent, hq⟩ := h.extra s k' hold hextra'
      rw [if_neg (Nat.ne_of_lt (h.length ▸ hlt))]
      exact ⟨hempty, q, hparent, Numbering.numbered_of_prefix (List.prefix_append _ _) hq⟩
    · rcases hk with hnew | hparent
      · exact absurd (Numbering.isFirst_new hnew) hextra
      · rw [h.length, bindings_next]
        exact ⟨rfl, p, if_pos rfl, Numbering.numbered_of_prefix (List.prefix_append _ _) hparent⟩

/-- A walk outwards comes past an extra scope to a scope of its number. -/
theorem resolve?_extra (h : store.Numbered numbers) (hk : numbers[s]? = some k)
    (hextra : ¬Numbering.IsFirst numbers s) (name : Name) :
    ∃ p < s, numbers[p]? = some k ∧ store.resolve? s name = store.resolve? p name := by
  obtain ⟨hempty, p, hparent, hp⟩ := h.extra s k hk hextra
  refine ⟨p, h.ordered s p hparent, hp, ?_⟩
  rw [h.ordered.resolve?_eq, hparent, Option.elim_some, binds_eq, hempty]
  rfl

end Numbered

end

/-- Stores that differ by extra scopes and by the places of the others. -/
structure Aligned (n : Numbering) (A B : Store Value) : Prop where
  left : A.Numbered n.left
  right : B.Numbered n.right
  numbers : ∀ k, k ∈ n.left ↔ k ∈ n.right
  bindings : ∀ a b, n.Twins a b → BindingsLike (Value.Aligned n) (A.bindings a) (B.bindings b)
  parents : ∀ a b, n.Twins a b → Option.Rel (Option.Rel n.Same) (A.parent? a) (B.parent? b)

namespace Aligned

variable {n : Numbering} {A B : Store Value} {a b : ScopeId}

/-- Names are resolved to twins: by induction on the places of both scopes, since every step leads outwards. -/
theorem resolve? (h : A.Aligned n B) (hsame : n.Same a b) (name : Name) :
    Option.Rel n.Twins (A.resolve? a name) (B.resolve? b name) := by
  induction hsum : a + b using Nat.strong_induction_on generalizing a b with
  | _ sum ih =>
    subst hsum
    obtain ⟨k, hka, hkb⟩ := hsame
    -- An extra scope is passed on its side alone; twins are passed on both sides at once.
    by_cases ha : Numbering.IsFirst n.left a
    swap
    · obtain ⟨p, hp, hkp, hresolve⟩ := h.left.resolve?_extra hka ha name
      rw [hresolve]
      exact ih (p + b) (Nat.add_lt_add_right hp b) ⟨k, hkp, hkb⟩ rfl
    by_cases hb : Numbering.IsFirst n.right b
    swap
    · obtain ⟨p, hp, hkp, hresolve⟩ := h.right.resolve?_extra hkb hb name
      rw [hresolve]
      exact ih (a + p) (Nat.add_lt_add_left hp a) ⟨k, hka, hkp⟩ rfl
    have htwins : n.Twins a b := ⟨⟨k, hka, hkb⟩, ha, hb⟩
    have hbinds : A.binds a name = B.binds b name := by
      rw [binds_eq, binds_eq]
      exact isSome_eq_of_rel ((h.bindings a b htwins).lookup name)
    have hparents := h.parents a b htwins
    rw [h.left.ordered.resolve?_eq, h.right.ordered.resolve?_eq, hbinds]
    cases hA : A.parent? a with
    | none =>
      rw [hA] at hparents
      generalize B.parent? b = found at hparents
      cases hparents
      exact .none
    | some parent =>
      cases hB : B.parent? b with
      | none => rw [hA, hB] at hparents; cases hparents
      | some parent' =>
        rw [hA, hB] at hparents
        obtain ⟨hparent⟩ := hparents
        simp only [Option.elim_some]
        split
        · exact .some htwins
        · cases hparent with
          | none => exact .none
          | @some p p' hsame =>
            have hp := h.left.ordered a p hA
            have hp' := h.right.ordered b p' hB
            exact ih (p + p') (Nat.add_lt_add hp hp') hsame rfl

theorem get? (h : A.Aligned n B) (hsame : n.Same a b) (name : Name) :
    Option.Rel (Value.Aligned n) (A.get? a name) (B.get? b name) := by
  have hresolve := h.resolve? hsame name
  unfold Store.get?
  generalize A.resolve? a name = found at hresolve
  generalize B.resolve? b name = found' at hresolve
  cases hresolve with
  | none => exact .none
  | some htwins => exact (h.bindings _ _ htwins).lookup name

theorem lt_left (h : A.Aligned n B) (hsame : n.Same a b) : a < A.next := by
  obtain ⟨k, hk, -⟩ := hsame
  exact h.left.length ▸ Numbering.lt_of_numbered hk

theorem lt_right (h : A.Aligned n B) (hsame : n.Same a b) : b < B.next := by
  obtain ⟨k, -, hk⟩ := hsame
  exact h.right.length ▸ Numbering.lt_of_numbered hk

theorem define (h : A.Aligned n B) (htwins : n.Twins a b) (name : Name) {v v' : Value} (hv : v.Aligned n v') :
    (A.define a name v).Aligned n (B.define b name v') where
  left := h.left.define htwins.left
  right := h.right.define htwins.right
  numbers := h.numbers
  bindings a' b' htwins' := by
    by_cases ha : a' = a
    · subst ha
      obtain rfl : b = b' := htwins.right_eq htwins'
      rw [bindings_define_self (h.lt_left htwins.same), bindings_define_self (h.lt_right htwins.same)]
      exact (h.bindings _ _ htwins).putBinding name hv
    · have hb : b' ≠ b := fun hb => ha ((hb ▸ htwins').left_eq htwins)
      rw [bindings_define_of_ne ha, bindings_define_of_ne hb]
      exact h.bindings a' b' htwins'
  parents a' b' htwins' := by
    rw [parent?_define, parent?_define]
    exact h.parents a' b' htwins'

theorem parent?_child_old (h : A.Aligned n B) (htwins : n.Twins a b) (p p' : ScopeId) :
    (A.child p).parent? a = A.parent? a ∧ (B.child p').parent? b = B.parent? b :=
  ⟨(parent?_child p a).trans (if_neg (Nat.ne_of_lt (h.lt_left htwins.same))),
    (parent?_child p' b).trans (if_neg (Nat.ne_of_lt (h.lt_right htwins.same)))⟩

/-- Scopes opened on both sides are twins. -/
theorem child (h : A.Aligned n B) (hsame : n.Same a b) :
    ∃ n', n.Grows n' ∧ (A.child a).Aligned n' (B.child b) ∧ n'.Twins A.next B.next := by
  obtain ⟨k, hleft, hright⟩ := n.exists_new
  have hgrows := Numbering.Grows.push n k
  have hnew := Numbering.Twins.push hleft hright
  rw [h.left.length, h.right.length] at hnew
  refine ⟨n.push k, hgrows, ?_, hnew⟩
  refine ⟨h.left.child (h.lt_left hsame) (.inl hleft), h.right.child (h.lt_right hsame) (.inl hright), ?_, ?_, ?_⟩
  · simp [Numbering.push, h.numbers]
  · intro a' b' htwins
    rw [bindings_child, bindings_child]
    rcases htwins.of_push hleft hright with hold | ⟨rfl, rfl⟩
    · exact (h.bindings a' b' hold).grows hgrows
    · rw [h.left.length, h.right.length, bindings_next, bindings_next]
      exact .nil
  · intro a' b' htwins
    rcases htwins.of_push hleft hright with hold | ⟨rfl, rfl⟩
    · obtain ⟨ha, hb⟩ := h.parent?_child_old hold a b
      rw [ha, hb]
      exact hgrows.parents (h.parents a' b' hold)
    · rw [parent?_child, parent?_child, if_pos h.left.length, if_pos h.right.length]
      exact .some (.some (hgrows.same hsame))

/-- A scope opened on the left only is an extra one, and stands for what its parent does. -/
theorem childLeft (h : A.Aligned n B) (hsame : n.Same a b) :
    ∃ n', n.Grows n' ∧ (A.child a).Aligned n' B ∧ n'.Same A.next b := by
  obtain ⟨k, hka, hkb⟩ := id hsame
  have hgrows := Numbering.Grows.pushLeft n k
  have hmem : k ∈ n.left := List.mem_of_getElem? hka
  have hmem' : k ∈ n.right := List.mem_of_getElem? hkb
  have hnew : (n.left ++ [k])[A.next]? = some k := h.left.length ▸ List.getElem?_concat_length
  refine ⟨n.pushLeft k, hgrows, ?_, k, hnew, hkb⟩
  refine ⟨h.left.child (h.lt_left hsame) (.inr hka), h.right, fun k' => ?_, ?_, ?_⟩
  · rw [Numbering.pushLeft, List.mem_append, List.mem_singleton, h.numbers]
    exact or_iff_left_of_imp fun heq => heq ▸ hmem'
  · intro a' b' htwins
    rw [bindings_child]
    exact (h.bindings a' b' (htwins.of_pushLeft hmem)).grows hgrows
  · intro a' b' htwins
    have hold := htwins.of_pushLeft hmem
    rw [(h.parent?_child_old hold a b).1]
    exact hgrows.parents (h.parents a' b' hold)

theorem childRight (h : A.Aligned n B) (hsame : n.Same a b) :
    ∃ n', n.Grows n' ∧ A.Aligned n' (B.child b) ∧ n'.Same a B.next := by
  obtain ⟨k, hka, hkb⟩ := id hsame
  have hgrows := Numbering.Grows.pushRight n k
  have hmem : k ∈ n.right := List.mem_of_getElem? hkb
  have hmem' : k ∈ n.left := List.mem_of_getElem? hka
  have hnew : (n.right ++ [k])[B.next]? = some k := h.right.length ▸ List.getElem?_concat_length
  refine ⟨n.pushRight k, hgrows, ?_, k, hka, hnew⟩
  refine ⟨h.left, h.right.child (h.lt_right hsame) (.inr hkb), fun k' => ?_, ?_, ?_⟩
  · rw [Numbering.pushRight, List.mem_append, List.mem_singleton, ← h.numbers]
    exact (or_iff_left_of_imp fun heq => heq ▸ hmem').symm
  · intro a' b' htwins
    rw [bindings_child]
    exact (h.bindings a' b' (htwins.of_pushRight hmem)).grows hgrows
  · intro a' b' htwins
    have hold := htwins.of_pushRight hmem
    rw [(h.parent?_child_old hold a b).2]
    exact hgrows.parents (h.parents a' b' hold)

end Aligned

/-- A store is aligned with itself, each scope with itself. -/
theorem WellScoped.aligned {store : Store Value} (h : store.WellScoped) :
    store.Aligned (.identity store.next) store := by
  have hnumbered : store.Numbered (List.range store.next) := by
    refine ⟨List.length_range, h.ordered, fun s k hk hextra => ?_⟩
    exact absurd (Numbering.identity_isFirst (Numbering.identity_numbered.mp hk).1) hextra
  have hself {a b : ScopeId} (htwins : (Numbering.identity store.next).Twins a b) : a < store.next ∧ b = a := by
    obtain ⟨k, ha, -⟩ := htwins.same
    have hlt := (Numbering.identity_numbered.mp ha).1
    exact ⟨hlt, htwins.right_eq (Numbering.identity_twins hlt)⟩
  refine ⟨hnumbered, hnumbered, fun _ => Iff.rfl, ?_, ?_⟩
  · intro a b htwins
    obtain ⟨ha, rfl⟩ := hself htwins
    exact List.forall₂_same.mpr fun binding hbinding => ⟨rfl, .identity (h.closures.bindings b binding hbinding)⟩
  · intro a b htwins
    obtain ⟨ha, rfl⟩ := hself htwins
    cases hparent : store.parent? b with
    | none => exact .none
    | some parent =>
      cases parent with
      | none => exact .some .none
      | some p => exact .some (.some (Numbering.identity_same ((h.ordered b p hparent).trans ha)))

end Store

end LoxLang
