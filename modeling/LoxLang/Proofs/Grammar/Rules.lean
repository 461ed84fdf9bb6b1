import LoxLang.Node.Basic
/-!
# The grammar as rules

Which token lists are expressions and statements, and of which tree, said without a parser. A rule of
the grammar is a constructor: `Derives` has those of expressions, `DerivesStatement` those of
statements and declarations. Where the grammar repeats something, a rule takes the list of what is
repeated, and the tree is a fold over that list.

The rules settle what the bare grammar leaves open. Operations of one level are grouped from the
left. An `else` belongs to the nearest `if` that has none: a statement that ends in an `if` without
`else` is `dangling`, and a dangling statement does not stand before an `else`. A `for` statement has
the tree of a loop, and a `return` statement stands inside a function only.
-/

namespace LoxLang.Grammar

/-- A run of tokens with what it stands for. -/
structure Phrase (α : Type) where
  tokens : List Token
  tree : α

/-- Runs of tokens with a comma between each and the next. -/
inductive Separated : List (List Token) → List Token → Prop where
  | none : Separated [] []
  | one (piece : List Token) : Separated [piece] piece
  | more {piece next ts : List Token} {pieces : List (List Token)} {comma : Token} (hcomma : comma.kind = .comma)
      (hrest : Separated (next :: pieces) ts) : Separated (piece :: next :: pieces) (piece ++ comma :: ts)

/-- The most arguments of a call and the most parameters of a function. -/
def mostItems : Nat := 255

/-! ### Levels -/

/-- The levels of operations with two operands, the loosest first. -/
inductive Operation where
  | disjunction | conjunction | equality | comparison | term | factor

inductive Level where
  | assignment
  | operation (l : Operation)
  | unary
  | call
  | primary

namespace Operation

def operators : Operation → List Kind
  | disjunction => [.kwOr]
  | conjunction => [.kwAnd]
  | equality => [.bangEqual, .equalEqual]
  | comparison => [.greater, .greaterEqual, .less, .lessEqual]
  | term => [.minus, .plus]
  | factor => [.slash, .star]

/-- The level of the operands of a level. -/
def operand : Operation → Level
  | disjunction => .operation conjunction
  | conjunction => .operation equality
  | equality => .operation comparison
  | comparison => .operation term
  | term => .operation factor
  | factor => .unary

def node : Operation → Node → Node → Node → Node
  | disjunction | conjunction => .logical
  | _ => .binary

end Operation

/-! ### Expressions -/

structure Operand where
  operator : Token
  right : Phrase Node

namespace Operand

def tokens (x : Operand) : List Token := x.operator :: x.right.tokens

def onto (l : Operation) (left : Node) (x : Operand) : Node := l.node left (.token x.operator) x.right.tree

end Operand

/-- The arguments of a call in their parentheses. -/
structure Arguments where
  opening : Token
  items : List (Phrase Node)
  inside : List Token
  closing : Token

namespace Arguments

def tokens (x : Arguments) : List Token := x.opening :: x.inside ++ [x.closing]

def onto (callee : Node) (x : Arguments) : Node := .call callee (.token x.closing) (x.items.map Phrase.tree)

/-- Parentheses around no more items than allowed, with commas between them. -/
structure Enclosed (x : Arguments) : Prop where
  opening : x.opening.kind = .leftParen
  closing : x.closing.kind = .rightParen
  separated : Separated (x.items.map Phrase.tokens) x.inside
  within : x.items.length ≤ mostItems

end Arguments

/-- The expressions of every level with their trees. -/
inductive Derives : Level → List Token → Node → Prop where
  | assign {name equals : Token} {ts : List Token} {value : Node} (hname : name.kind = .identifier)
      (hequals : equals.kind = .equal) (hvalue : Derives .assignment ts value) :
      Derives .assignment (name :: equals :: ts) (.assign (.token name) value)
  | noAssign {ts : List Token} {e : Node} (h : Derives (.operation .disjunction) ts e) : Derives .assignment ts e
  | operation {l : Operation} {ts : List Token} {first : Node} (tail : List Operand)
      (hfirst : Derives l.operand ts first) (hoperators : ∀ x ∈ tail, x.operator.kind ∈ l.operators)
      (htail : ∀ x ∈ tail, Derives l.operand x.right.tokens x.right.tree) :
      Derives (.operation l) (ts ++ tail.flatMap Operand.tokens) (tail.foldl (Operand.onto l) first)
  | sign {t : Token} {ts : List Token} {e : Node} (ht : t.kind = .bang ∨ t.kind = .minus)
      (h : Derives .unary ts e) : Derives .unary (t :: ts) (.unary (.token t) e)
  | noSign {ts : List Token} {e : Node} (h : Derives .call ts e) : Derives .unary ts e
  | call {ts : List Token} {callee : Node} (tail : List Arguments) (hcallee : Derives .primary ts callee)
      (henclosed : ∀ x ∈ tail, x.Enclosed)
      (hitems : ∀ x ∈ tail, ∀ item ∈ x.items, Derives .assignment item.tokens item.tree) :
      Derives .call (ts ++ tail.flatMap Arguments.tokens) (tail.foldl Arguments.onto callee)
  | value {t : Token} (ht : t.kind = .number ∨ t.kind = .string) : Derives .primary [t] (.literal (.ofScalar t.literal))
  | yes {t : Token} (ht : t.kind = .kwTrue) : Derives .primary [t] (.literal (.bool true))
  | no {t : Token} (ht : t.kind = .kwFalse) : Derives .primary [t] (.literal (.bool false))
  | nil {t : Token} (ht : t.kind = .kwNil) : Derives .primary [t] (.literal .null)
  | name {t : Token} (ht : t.kind = .identifier) : Derives .primary [t] (.reference (.token t))
  | grouping {opening closing : Token} {ts : List Token} {e : Node} (hopening : opening.kind = .leftParen)
      (hclosing : closing.kind = .rightParen) (h : Derives .assignment ts e) :
      Derives .primary (opening :: ts ++ [closing]) (.grouping e)

abbrev DerivesExpression : List Token → Node → Prop := Derives .assignment

/-! ### Statements -/

/-- An expression that may be left out. -/
inductive DerivesOptional : List Token → Option Node → Prop where
  | none : DerivesOptional [] none
  | some {ts : List Token} {e : Node} (h : DerivesExpression ts e) : DerivesOptional ts (some e)

inductive DerivesVariable : List Token → Node → Prop where
  | bare {name semicolon : Token} (hname : name.kind = .identifier) (hsemicolon : semicolon.kind = .semicolon) :
      DerivesVariable [name, semicolon] (.var (.token name) .null)
  | initial {name equals semicolon : Token} {ts : List Token} {e : Node} (hname : name.kind = .identifier)
      (hequals : equals.kind = .equal) (h : DerivesExpression ts e) (hsemicolon : semicolon.kind = .semicolon) :
      DerivesVariable (name :: equals :: ts ++ [semicolon]) (.var (.token name) e)

/-- The first clause of a `for` statement with its semicolon. -/
inductive DerivesInitial : List Token → Option Node → Prop where
  | none {semicolon : Token} (hsemicolon : semicolon.kind = .semicolon) : DerivesInitial [semicolon] none
  | var {keyword : Token} {ts : List Token} {e : Node} (hkeyword : keyword.kind = .kwVar)
      (h : DerivesVariable ts e) : DerivesInitial (keyword :: ts) (some e)
  | expression {semicolon : Token} {ts : List Token} {e : Node} (h : DerivesExpression ts e)
      (hsemicolon : semicolon.kind = .semicolon) : DerivesInitial (ts ++ [semicolon]) (some (.expression e))

/-- The loop of a `for` statement without its first clause: the increment goes behind the body. -/
def forLoop : (condition increment : Option Node) → (body : Node) → Node
  | none, none, body => .loop (.literal (.bool true)) body
  | some condition, none, body => .loop condition body
  | none, some increment, body => .loop (.literal (.bool true)) (.block [body, .expression increment])
  | some condition, some increment, body => .loop condition (.block [body, .expression increment])

/-- The tree of a `for` statement: the first clause goes in front of the loop. -/
def forTree : (initial condition increment : Option Node) → (body : Node) → Node
  | none, condition, increment, body => forLoop condition increment body
  | some initial, condition, increment, body => .block [initial, forLoop condition increment body]

inductive Symbol where
  | declaration
  /-- A statement; it is dangling if an `else` behind it would be taken as its own. -/
  | statement (dangling : Bool)

/-- The statements and declarations, inside a function or outside of all of them, with their trees. -/
inductive DerivesStatement : Symbol → (inFunction : Bool) → List Token → Node → Prop where
  | statement {dangling f : Bool} {ts : List Token} {s : Node} (h : DerivesStatement (.statement dangling) f ts s) :
      DerivesStatement .declaration f ts s
  | var {f : Bool} {keyword : Token} {ts : List Token} {s : Node} (hkeyword : keyword.kind = .kwVar)
      (h : DerivesVariable ts s) : DerivesStatement .declaration f (keyword :: ts) s
  | function {f : Bool} {keyword name opening closing brace close : Token} {inside : List Token}
      (params : List Token) (body : List (Phrase Node)) (hkeyword : keyword.kind = .kwFun)
      (hname : name.kind = .identifier) (hopening : opening.kind = .leftParen)
      (hparams : ∀ p ∈ params, p.kind = .identifier) (hinside : Separated (params.map fun p => [p]) inside)
      (hwithin : params.length ≤ mostItems) (hclosing : closing.kind = .rightParen)
      (hbrace : brace.kind = .leftBrace) (hbody : ∀ x ∈ body, DerivesStatement .declaration true x.tokens x.tree)
      (hclose : close.kind = .rightBrace) :
      DerivesStatement .declaration f
        (keyword :: name :: opening :: inside ++ closing :: brace :: body.flatMap Phrase.tokens ++ [close])
        (.function (.token name) (params.map .token) (body.map Phrase.tree))
  | expression {f : Bool} {semicolon : Token} {ts : List Token} {e : Node} (h : DerivesExpression ts e)
      (hsemicolon : semicolon.kind = .semicolon) :
      DerivesStatement (.statement false) f (ts ++ [semicolon]) (.expression e)
  | print {f : Bool} {keyword semicolon : Token} {ts : List Token} {e : Node} (hkeyword : keyword.kind = .kwPrint)
      (h : DerivesExpression ts e) (hsemicolon : semicolon.kind = .semicolon) :
      DerivesStatement (.statement false) f (keyword :: ts ++ [semicolon]) (.print e)
  | ret {keyword semicolon : Token} {ts : List Token} {value : Option Node} (hkeyword : keyword.kind = .kwReturn)
      (h : DerivesOptional ts value) (hsemicolon : semicolon.kind = .semicolon) :
      DerivesStatement (.statement false) true (keyword :: ts ++ [semicolon]) (.ret (.token keyword) (value.getD .null))
  | block {f : Bool} {brace close : Token} (body : List (Phrase Node)) (hbrace : brace.kind = .leftBrace)
      (hbody : ∀ x ∈ body, DerivesStatement .declaration f x.tokens x.tree) (hclose : close.kind = .rightBrace) :
      DerivesStatement (.statement false) f (brace :: body.flatMap Phrase.tokens ++ [close])
        (.block (body.map Phrase.tree))
  | branch {dangling f : Bool} {keyword opening closing : Token} {ts yes : List Token} {condition s : Node}
      (hkeyword : keyword.kind = .kwIf) (hopening : opening.kind = .leftParen)
      (hcondition : DerivesExpression ts condition) (hclosing : closing.kind = .rightParen)
      (hyes : DerivesStatement (.statement dangling) f yes s) :
      DerivesStatement (.statement true) f (keyword :: opening :: ts ++ closing :: yes) (.branch condition s .null)
  | branchElse {dangling f : Bool} {keyword opening closing otherwise : Token} {ts yes no : List Token}
      {condition s t : Node} (hkeyword : keyword.kind = .kwIf) (hopening : opening.kind = .leftParen)
      (hcondition : DerivesExpression ts condition) (hclosing : closing.kind = .rightParen)
      (hyes : DerivesStatement (.statement false) f yes s) (hotherwise : otherwise.kind = .kwElse)
      (hno : DerivesStatement (.statement dangling) f no t) :
      DerivesStatement (.statement dangling) f (keyword :: opening :: ts ++ closing :: yes ++ otherwise :: no)
        (.branch condition s t)
  | loop {dangling f : Bool} {keyword opening closing : Token} {ts body : List Token} {condition s : Node}
      (hkeyword : keyword.kind = .kwWhile) (hopening : opening.kind = .leftParen)
      (hcondition : DerivesExpression ts condition) (hclosing : closing.kind = .rightParen)
      (hbody : DerivesStatement (.statement dangling) f body s) :
      DerivesStatement (.statement dangling) f (keyword :: opening :: ts ++ closing :: body) (.loop condition s)
  | forLoop {dangling f : Bool} {keyword opening semicolon closing : Token} {is cs ns body : List Token}
      {initial condition increment : Option Node} {s : Node} (hkeyword : keyword.kind = .kwFor)
      (hopening : opening.kind = .leftParen) (hinitial : DerivesInitial is initial)
      (hcondition : DerivesOptional cs condition) (hsemicolon : semicolon.kind = .semicolon)
      (hincrement : DerivesOptional ns increment) (hclosing : closing.kind = .rightParen)
      (hbody : DerivesStatement (.statement dangling) f body s) :
      DerivesStatement (.statement dangling) f
        (keyword :: opening :: is ++ cs ++ semicolon :: ns ++ closing :: body) (forTree initial condition increment s)

/-- Whole programs: declarations one after the other, outside of all functions. -/
def DerivesProgram (ts : List Token) (program : List Node) : Prop :=
  ∃ items : List (Phrase Node), ts = items.flatMap Phrase.tokens ∧ program = items.map Phrase.tree ∧
    ∀ x ∈ items, DerivesStatement .declaration false x.tokens x.tree

end LoxLang.Grammar
