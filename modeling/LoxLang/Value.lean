import LoxLang.Node.Source
import LoxLang.Scope
/-!
# Values

What expressions evaluate to. A function keeps its declaration and the scope it was declared in; two
functions are equal only if they are the same, so each carries a number of its own. A stored tree may
hold a node as a literal, and then that node is the value: it can be passed around and compared, but
it has no text.
-/

namespace LoxLang

structure Closure where
  /-- Tells one run of a declaration from another. -/
  id : Nat
  name : String
  params : List Node
  body : List Node
  scope : ScopeId

inductive Value where
  | nil
  | bool (b : Bool)
  | num (x : Number)
  | str (s : String)
  | function (f : Closure)
  | clock
  | node (n : Node)

/-! ### Comparing stored values

Bare values inside a node are the same when they make the same name. -/

namespace Json

mutual

def same : Json → Json → Bool
  | .arr xs, .arr ys => sameItems xs ys
  | .obj xs, .obj ys => xs.length == ys.length && sameFields xs ys
  | a, b => sameScalar a b

def sameItems : List Json → List Json → Bool
  | [], [] => true
  | x :: xs, y :: ys => same x y && sameItems xs ys
  | _, _ => false

/-- Whether every field stands in the other object too. -/
def sameFields : List (String × Json) → List (String × Json) → Bool
  | [], _ => true
  | (key, x) :: rest, ys =>
    (match ys.lookup key with
      | some y => same x y
      | none => false) && sameFields rest ys

end

end Json

namespace Token

def same (a b : Token) : Bool :=
  a.kind == b.kind && a.lexeme.same b.lexeme && a.literal.same b.literal && a.line == b.line

end Token

namespace Node

/-- Bare values of a node as JSON. -/
def scalar? : Node → Option Json
  | null => some .null
  | bool b => some (.bool b)
  | num x => some (.num x)
  | str s => some (.str s)
  | _ => none

mutual

/-- Whether two nodes agree in their kinds and all their parts. -/
def same : Node → Node → Bool
  | token a, token b => a.same b
  | literal a, literal b => same a b
  | grouping a, grouping b => same a b
  | unary o a, unary p b => same o p && same a b
  | binary a o b, binary c p d => same a c && same o p && same b d
  | logical a o b, logical c p d => same a c && same o p && same b d
  | reference a, reference b => same a b
  | assign a b, assign c d => same a c && same b d
  | call a o as, call b p bs => same a b && same o p && sameList as bs
  | expression a, expression b => same a b
  | print a, print b => same a b
  | var a b, var c d => same a c && same b d
  | block as, block bs => sameList as bs
  | branch a b c, branch d e f => same a d && same b e && same c f
  | loop a b, loop c d => same a c && same b d
  | function a ps as, function b qs bs => same a b && sameList ps qs && sameList as bs
  | ret a b, ret c d => same a c && same b d
  | a, b =>
    match a.scalar?, b.scalar? with
    | some x, some y => x.sameScalar y
    | _, _ => false

def sameList : List Node → List Node → Bool
  | [], [] => true
  | a :: as, b :: bs => same a b && sameList as bs
  | _, _ => false

end

end Node

namespace Value

def ofNode : Node → Value
  | .null => nil
  | .bool b => bool b
  | .num x => num x
  | .str s => str s
  | n => node n

/-- Only `nil` and `false` are not truthy. -/
def truthy : Value → Bool
  | nil => false
  | bool b => b
  | _ => true

/-- Values of different kinds are never equal. -/
def equal : Value → Value → Bool
  | nil, nil => true
  | bool a, bool b => a == b
  | num x, num y => x.eq y
  | str s, str t => s == t
  | function f, function g => f.id == g.id
  | clock, clock => true
  | node a, node b => a.same b
  | _, _ => false

/-- The text that printing a value writes. -/
def text : Value → Except Fault String
  | nil => .ok "nil"
  | bool b => .ok (if b then "true" else "false")
  | num x => .ok x.display
  | str s => .ok s
  | function f => .ok ("<fn " ++ f.name ++ ">")
  | clock => .ok "<native fn>"
  | node _ => .error .notValue

/-- The source text of a value that a literal can stand for. -/
def literalSource : Value → Except Fault String
  | nil => Node.null.literalSource
  | bool b => (Node.bool b).literalSource
  | num x => (Node.num x).literalSource
  | str s => (Node.str s).literalSource
  | _ => .error .notLiteral

end Value

end LoxLang
