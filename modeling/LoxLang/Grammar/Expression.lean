import LoxLang.Grammar.Cursor
/-!
# The grammar of expressions

    expression -> assignment
    assignment -> IDENTIFIER "=" assignment | or
    or         -> and ("or" and)*
    and        -> equality ("and" equality)*
    equality   -> comparison (("!=" | "==") comparison)*
    comparison -> term ((">" | ">=" | "<" | "<=") term)*
    term       -> factor (("-" | "+") factor)*
    factor     -> unary (("/" | "*") unary)*
    unary      -> ("!" | "-") unary | call
    call       -> primary ("(" arguments? ")")*
    primary    -> NUMBER | STRING | "true" | "false" | "nil" | "(" expression ")" | IDENTIFIER

Every level is a parser that is given the parser of whole expressions for the places where one
stands inside parentheses, after an equals sign or as an argument. A level takes at least one token
before it uses that parser, so a bound on the number of tokens left is a bound on the depth of
`expression` too, and one bound serves for both.
-/

namespace LoxLang.Grammar

/-! ### Operators -/

def isSign (k : Kind) : Bool := k == .bang || k == .minus

def isFactorOperator (k : Kind) : Bool := k == .slash || k == .star

def isTermOperator (k : Kind) : Bool := k == .minus || k == .plus

def isComparisonOperator (k : Kind) : Bool :=
  k == .greater || k == .greaterEqual || k == .less || k == .lessEqual

def isEqualityOperator (k : Kind) : Bool := k == .bangEqual || k == .equalEqual

/-! ### Levels -/

def startsPrimary : Kind → Bool
  | .kwFalse | .kwTrue | .kwNil | .number | .string | .identifier | .leftParen => true
  | _ => false

/-- A name, a value or an expression in parentheses. -/
def primary (expression : Parser Node) : Parser Node := do
  match ← take? startsPrimary with
  | none => fail (.expected "expression")
  | some t =>
    match t.kind with
    | .kwFalse => return .literal (.bool false)
    | .kwTrue => return .literal (.bool true)
    | .kwNil => return .literal .null
    | .number | .string => return .literal (.ofScalar t.literal)
    | .identifier => return .reference (.token t)
    | _ =>
      let inner ← expression
      let _ ← expect .rightParen "')' after expression"
      return .grouping inner

def callsAfter (expression : Parser Node) : (bound : Nat) → Node → Parser Node
  | 0, callee => return callee
  | bound + 1, callee => do
    match ← take? (· == .leftParen) with
    | none => return callee
    | some _ =>
      let arguments ← commaList (bound + 1) "arguments" expression
      let paren ← expect .rightParen "')' after arguments"
      callsAfter expression bound (.call callee (.token paren) arguments)

def call (bound : Nat) (expression : Parser Node) : Parser Node := do
  let callee ← primary expression
  callsAfter expression bound callee

/-- Signs in front of a call; the last one binds first. -/
def unary (bound : Nat) (expression : Parser Node) : Parser Node := do
  let signs ← takeAll isSign
  let operand ← call bound expression
  return signs.foldr (fun sign right => .unary (.token sign) right) operand

/-- Further operators and operands behind a left operand, grouped from the left. -/
def operandsAfter (isOperator : Kind → Bool) (build : Node → Node → Node → Node)
    (operand : Parser Node) : (bound : Nat) → Node → Parser Node
  | 0, left => return left
  | bound + 1, left => do
    match ← take? isOperator with
    | none => return left
    | some operator =>
      let right ← operand
      operandsAfter isOperator build operand bound (build left (.token operator) right)

/-- Operands with operators of one level between them. -/
def leftLevel (bound : Nat) (isOperator : Kind → Bool) (build : Node → Node → Node → Node)
    (operand : Parser Node) : Parser Node := do
  let left ← operand
  operandsAfter isOperator build operand bound left

def factor (bound : Nat) (expression : Parser Node) : Parser Node :=
  leftLevel bound isFactorOperator .binary (unary bound expression)

def term (bound : Nat) (expression : Parser Node) : Parser Node :=
  leftLevel bound isTermOperator .binary (factor bound expression)

def comparison (bound : Nat) (expression : Parser Node) : Parser Node :=
  leftLevel bound isComparisonOperator .binary (term bound expression)

def equality (bound : Nat) (expression : Parser Node) : Parser Node :=
  leftLevel bound isEqualityOperator .binary (comparison bound expression)

def conjunction (bound : Nat) (expression : Parser Node) : Parser Node :=
  leftLevel bound (· == .kwAnd) .logical (equality bound expression)

def disjunction (bound : Nat) (expression : Parser Node) : Parser Node :=
  leftLevel bound (· == .kwOr) .logical (conjunction bound expression)

/-- An assignment, or what stands before an equals sign that does not follow a name: that is
reported at the sign, and the left side is kept. -/
def assignment (bound : Nat) (expression : Parser Node) : Parser Node := do
  let left ← disjunction bound expression
  match ← take? (· == .equal) with
  | none => return left
  | some equals =>
    let value ← expression
    match left with
    | .reference name => return .assign name value
    | _ => do
      report equals .invalidTarget
      return left

/-- An expression, if fewer tokens than the bound are left. -/
def expression : (bound : Nat) → Parser Node
  | 0 => throw .panic
  | bound + 1 => assignment bound (expression bound)

end LoxLang.Grammar
