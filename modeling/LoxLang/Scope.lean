import LoxLang.Name
/-!
# Scopes

All scopes of a session live in one store and are named by their place in it. A scope has a parent,
which was allocated before it, and the bindings made in it. Scopes are never removed, so a function
can keep using the scope it was declared in.

A name is looked up along the chain of a scope: the scope itself, its parent, and so on outwards.
-/

namespace LoxLang

/-- The place of a scope in its store. -/
abbrev ScopeId := Nat

/-- A scope: where it was opened, and what was bound in it, in the order of first binding. -/
structure Scope (α : Type) where
  parent : Option ScopeId
  bindings : List (Name × α)

namespace Scope

variable {α : Type}

def binds (scope : Scope α) (name : Name) : Bool := (scope.bindings.lookup name).isSome

/-- Binds a name; a name that is bound keeps its place and changes its value. -/
def putBinding (name : Name) (value : α) : List (Name × α) → List (Name × α)
  | [] => [(name, value)]
  | (n, v) :: rest =>
    if n == name then (n, value) :: rest else (n, v) :: putBinding name value rest

def define (scope : Scope α) (name : Name) (value : α) : Scope α :=
  { scope with bindings := putBinding name value scope.bindings }

end Scope

structure Store (α : Type) where
  scopes : Array (Scope α)

namespace Store

variable {α : Type}

def root : Store α := ⟨#[⟨none, []⟩]⟩

def child (store : Store α) (parent : ScopeId) : Store α :=
  ⟨store.scopes.push ⟨some parent, []⟩⟩

def next (store : Store α) : ScopeId := store.scopes.size

/-- The first `length` scopes from a scope outwards. -/
def chainWithin (store : Store α) : (length : Nat) → ScopeId → List ScopeId
  | 0, _ => []
  | length + 1, s =>
    match store.scopes[s]? with
    | none => []
    | some scope => s :: (scope.parent.elim [] (store.chainWithin length))

/-- The scopes from a scope outwards. Parents lead to no scope twice, so a chain is no longer than the
number of scopes. -/
def chain (store : Store α) (s : ScopeId) : List ScopeId := store.chainWithin store.next s

def binds (store : Store α) (s : ScopeId) (name : Name) : Bool :=
  store.scopes[s]?.elim false fun scope => scope.binds name

/-- The innermost scope on the chain that binds a name. -/
def resolve? (store : Store α) (s : ScopeId) (name : Name) : Option ScopeId :=
  (store.chain s).find? fun t => store.binds t name

def bindings (store : Store α) (s : ScopeId) : List (Name × α) :=
  store.scopes[s]?.elim [] fun scope => scope.bindings

/-- The bindings of a scope in the order of their names, if all of them are texts: there is no order
between other names. -/
def listing? (store : Store α) (s : ScopeId) : Option (List (String × α)) := do
  let named ← (store.bindings s).mapM fun (name, value) => do return (← name.text?, value)
  return named.mergeSort fun a b => !(b.1 < a.1)

def get? (store : Store α) (s : ScopeId) (name : Name) : Option α := do
  let t ← store.resolve? s name
  (store.bindings t).lookup name

def define (store : Store α) (s : ScopeId) (name : Name) (value : α) : Store α :=
  ⟨store.scopes.modify s fun scope => scope.define name value⟩

/-- Changes the value of a name where it is bound, if it is bound at all. -/
def assign? (store : Store α) (s : ScopeId) (name : Name) (value : α) : Option (Store α) :=
  (store.resolve? s name).map fun t => store.define t name value

end Store

end LoxLang
