import LoxLang.Token.Basic
/-!
# Program trees

Programs are trees of nodes. There are eight kinds of expressions and eight kinds of statements; a
`for` statement has no kind of its own. A tree may also come from a stored document, and a document
may put anything in any place: a bare value where an expression belongs, a statement where a token
belongs. So the children of a node are nodes of whatever kind, bare values and tokens included, and
what stands in the wrong place is refused only when it is reached. An absent part is `null`.
-/

namespace LoxLang

/-- The kinds of expressions and statements. -/
inductive NodeType where
  | literal | grouping | unary | binary | logical | reference | assign | call
  | expression | print | var | block | branch | loop | function | ret
deriving DecidableEq, Repr

namespace NodeType

def name : NodeType → String
  | literal => "Literal" | grouping => "Grouping" | unary => "Unary" | binary => "Binary"
  | logical => "Logical" | reference => "Variable" | assign => "Assign" | call => "Call"
  | expression => "Expression" | print => "Print" | var => "Var" | block => "Block"
  | branch => "If" | loop => "While" | function => "Function" | ret => "Return"

def all : List NodeType :=
  [literal, grouping, unary, binary, logical, reference, assign, call,
   expression, print, var, block, branch, loop, function, ret]

def ofName? (name : String) : Option NodeType := all.find? fun t => t.name == name

def isExpression : NodeType → Bool
  | literal | grouping | unary | binary | logical | reference | assign | call => true
  | _ => false

end NodeType

/-- A tree, or a bare value or token in place of one. -/
inductive Node where
  | null
  | bool (b : Bool)
  | num (x : Number)
  | str (s : String)
  | token (t : Token)
  | literal (value : Node)
  | grouping (inner : Node)
  | unary (operator right : Node)
  | binary (left operator right : Node)
  | logical (left operator right : Node)
  | reference (name : Node)
  | assign (name value : Node)
  | call (callee paren : Node) (arguments : List Node)
  | expression (value : Node)
  | print (value : Node)
  | var (name initial : Node)
  | block (statements : List Node)
  | branch (condition yes no : Node)
  | loop (condition body : Node)
  | function (name : Node) (params body : List Node)
  | ret (keyword value : Node)

namespace Node

def type? : Node → Option NodeType
  | literal _ => some .literal
  | grouping _ => some .grouping
  | unary .. => some .unary
  | binary .. => some .binary
  | logical .. => some .logical
  | reference _ => some .reference
  | assign .. => some .assign
  | call .. => some .call
  | expression _ => some .expression
  | print _ => some .print
  | var .. => some .var
  | block _ => some .block
  | branch .. => some .branch
  | loop .. => some .loop
  | function .. => some .function
  | ret .. => some .ret
  | null | bool _ | num _ | str _ | token _ => none

/-- The name of what a node is, in messages. -/
def typeName (n : Node) : String :=
  match n with
  | null => "NoneType"
  | bool _ => "bool"
  | num _ => "float"
  | str _ => "str"
  | token _ => "Token"
  | n => n.type?.elim "" NodeType.name

/-- Whether the node is of one of the eight kinds of expressions. -/
def isExpression (n : Node) : Bool := n.type?.any NodeType.isExpression

def isAbsent : Node → Bool
  | null => true
  | _ => false

def token? : Node → Option Token
  | token t => some t
  | _ => none

/-- The value of the literal of a numeral, a string or one of the words for values. A scanned token has
no other literal; integers, lists and objects, which a token put together by hand could have, count as
nothing at all. -/
def ofScalar : Json → Node
  | .bool b => bool b
  | .num x => num x
  | .str s => str s
  | _ => null

end Node

end LoxLang
