import LoxLang.Grammar.Expression
/-!
# The grammar of statements

    program     -> declaration* EOF
    declaration -> "fun" function | "var" variable | statement
    statement   -> expression ";" | "print" expression ";" | "if" "(" expression ")" statement
                   ("else" statement)? | "while" "(" expression ")" statement | for
                 | "return" expression? ";" | block
    for         -> "for" "(" (";" | "var" variable | expression ";") expression? ";" expression? ")"
                   statement
    block       -> "{" declaration* "}"
    function    -> IDENTIFIER "(" parameters? ")" block
    variable    -> IDENTIFIER ("=" expression)? ";"

A `for` statement becomes a loop: the increment runs behind the body in a block of both, an absent
condition is `true`, and an initial statement goes in front of the loop in a block of its own.

Whether a `return` stands inside a function body is an argument of the parsers, so leaving a body by
whatever way restores it. The parsers take a bound on the number of tokens left, as those of
expressions do.
-/

namespace LoxLang.Grammar

/-! ### Simple statements -/

def expressionStatement (bound : Nat) : Parser Node := do
  let value ← expression bound
  let _ ← expect .semicolon "';' after value"
  return .expression value

def printStatement (bound : Nat) : Parser Node := do
  let value ← expression bound
  let _ ← expect .semicolon "';' after value"
  return .print value

/-- An expression, unless a token of the given kind is next. -/
def optionalUnless (bound : Nat) (kind : Kind) : Parser (Option Node) := do
  if ← isAt kind then return none else return some (← expression bound)

def returnStatement (bound : Nat) (inFunction : Bool) (keyword : Token) : Parser Node := do
  if !inFunction then report keyword .topLevelReturn
  let value ← optionalUnless bound .semicolon
  let _ ← expect .semicolon "';' after return value"
  return .ret (.token keyword) (value.getD .null)

def variableDeclaration (bound : Nat) : Parser Node := do
  let name ← expect .identifier "variable name"
  let initial ← match ← take? (· == .equal) with
    | some _ => expression bound
    | none => pure .null
  let _ ← expect .semicolon "';' after variable declaration"
  return .var (.token name) initial

/-! ### Statements with parts -/

def ifStatement (bound : Nat) (statement : Parser Node) : Parser Node := do
  let _ ← expect .leftParen "'(' after 'if'"
  let condition ← expression bound
  let _ ← expect .rightParen "')' after 'if' condition"
  let yes ← statement
  let no ← match ← take? (· == .kwElse) with
    | some _ => statement
    | none => pure .null
  return .branch condition yes no

def whileStatement (bound : Nat) (statement : Parser Node) : Parser Node := do
  let _ ← expect .leftParen "'(' after 'while'"
  let condition ← expression bound
  let _ ← expect .rightParen "')' after 'while' condition"
  let body ← statement
  return .loop condition body

/-- The loop that a `for` statement stands for. -/
def desugarFor (initial condition increment : Option Node) (body : Node) : Node :=
  let body := match increment with
    | some increment => .block [body, .expression increment]
    | none => body
  let loop := .loop (condition.getD (.literal (.bool true))) body
  match initial with
  | some initial => .block [initial, loop]
  | none => loop

/-- The first clause of a `for` statement. -/
def forInitial (bound : Nat) : Parser (Option Node) := do
  match ← take? (fun k => k == .semicolon || k == .kwVar) with
  | some t => if t.kind == .kwVar then return some (← variableDeclaration bound) else return none
  | none => return some (← expressionStatement bound)

def forStatement (bound : Nat) (statement : Parser Node) : Parser Node := do
  let _ ← expect .leftParen "'(' after 'for'"
  let initial ← forInitial bound
  let condition ← optionalUnless bound .semicolon
  let _ ← expect .semicolon "';' after loop condition"
  let increment ← optionalUnless bound .rightParen
  let _ ← expect .rightParen "')' after for clauses"
  let body ← statement
  return desugarFor initial condition increment body

def block (bound : Nat) (declaration : Parser (Option Node)) : Parser (List Node) := do
  let statements ← itemsUntil (Cursor.isAt .rightBrace) declaration bound
  let _ ← expect .rightBrace "'\x7d' after block"
  return statements

def functionDeclaration (bound : Nat) (declaration : Parser (Option Node)) : Parser Node := do
  let name ← expect .identifier "function name"
  let _ ← expect .leftParen "'(' after function name"
  let params ← commaList bound "parameters" (expect .identifier "parameter name")
  let _ ← expect .rightParen "')' after parameters"
  let _ ← expect .leftBrace "'\x7b' before function body"
  let body ← block bound declaration
  return .function (.token name) (params.map .token) body

/-! ### Tying the knot -/

/-- The words and the mark that start a statement other than an expression. -/
def startsPlainStatement : Kind → Bool
  | .kwIf | .kwPrint | .kwWhile | .kwFor | .kwReturn | .leftBrace => true
  | _ => false

mutual

/-- A statement, if the bound is larger than twice the number of tokens left. -/
def statement : (bound : Nat) → (inFunction : Bool) → Parser Node
  | 0, _ => throw .panic
  | bound + 1, inFunction => do
    match ← take? startsPlainStatement with
    | none => expressionStatement bound
    | some t =>
      match t.kind with
      | .kwIf => ifStatement bound (statement bound inFunction)
      | .kwPrint => printStatement bound
      | .kwWhile => whileStatement bound (statement bound inFunction)
      | .kwFor => forStatement bound (statement bound inFunction)
      | .kwReturn => returnStatement bound inFunction t
      | _ => return .block (← block bound (declaration bound inFunction))

/-- A declaration, or none if it is malformed. It may be a statement without taking a token before,
so its bound is one larger still. -/
def declaration : (bound : Nat) → (inFunction : Bool) → Parser (Option Node)
  | 0, _ => throw .panic
  | bound + 1, inFunction => recover do
    match ← take? (fun k => k == .kwFun || k == .kwVar) with
    | none => statement bound inFunction
    | some t =>
      if t.kind == .kwFun then functionDeclaration bound (declaration bound true)
      else variableDeclaration bound

end

end LoxLang.Grammar
