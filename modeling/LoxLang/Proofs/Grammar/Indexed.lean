import LoxLang.Grammar.Program
/-!
# Parsing with an index

The grammar once more, for a parser that keeps the whole list of tokens, the one that marks the end
included, and an index into it. It looks at the token with the index and at the one before, and moves
by counting the index up, unless the token that marks the end is reached. Nothing in it keeps the index
inside of the list: what is asked for at a place where there is no token is `outside`, a way to stop
that nothing catches. Neither is there a reason why its loops should end, so they run on fuel, and
running out of it is a way to stop of its own as well.

A panic is the third way to stop, and the only one that a declaration recovers from.
-/

namespace LoxLang.Grammar

/-- The index of the token that is next, and the reports so far. -/
structure Position where
  current : Nat
  reports : List Diagnostic

/-- Why a parser with an index stops. -/
inductive Halt where
  | panic
  /-- There is no token where one is asked for. -/
  | outside
  | outOfFuel

/-- A computation that moves along a list of tokens. -/
abbrev Walk := EStateM Halt Position

namespace Walk

variable {α : Type} (tokens : List Token)

/-! ### Tokens -/

def tokenAt (index : Nat) : Walk Token :=
  match tokens[index]? with
  | some t => pure t
  | none => throw .outside

def peek : Walk Token := do tokenAt tokens (← get).current

/-- The token before the next one. There is none before the first. -/
def previous : Walk Token := do
  match (← get).current with
  | 0 => throw .outside
  | index + 1 => tokenAt tokens index

def isAtEnd : Walk Bool := do return (← peek tokens).kind == .eof

def check (kind : Kind) : Walk Bool := do
  if ← isAtEnd tokens then return kind == .eof else return (← peek tokens).kind == kind

/-- Moves to an index, where there has to be a token. -/
def moveTo (index : Nat) : Walk Unit := do
  let _ ← tokenAt tokens index
  modify fun w => { w with current := index }

/-- Moves on, but not from the token that marks the end, and gives the token before. -/
def advance : Walk Token := do
  if !(← isAtEnd tokens) then moveTo tokens ((← get).current + 1)
  previous tokens

/-- Takes the next token if it is of one of the kinds. -/
def accept : List Kind → Walk (Option Token)
  | [] => return none
  | kind :: kinds => do
    if ← check tokens kind then return some (← advance tokens) else accept kinds

/-- Tries one kind after the other, and goes on as is said for the first one that the next token has. -/
def choose (otherwise : Walk α) : List (Kind × (Token → Walk α)) → Walk α
  | [] => otherwise
  | (kind, run) :: cases => do
    match ← accept tokens [kind] with
    | some t => run t
    | none => choose otherwise cases

def report (t : Token) (complaint : Complaint) : Walk Unit :=
  modify fun w => { w with reports := w.reports ++ [t.complain complaint] }

def fail (complaint : Complaint) : Walk α := do
  report (← peek tokens) complaint
  throw .panic

def expect (kind : Kind) (what : String) : Walk Token := do
  if ← check tokens kind then advance tokens else fail tokens (.expected what)

/-! ### Lists -/

def commaItems (what : String) (item : Walk α) : (fuel count : Nat) → Walk (List α)
  | 0, _ => throw .outOfFuel
  | fuel + 1, count => do
    if listLimit ≤ count then report (← peek tokens) (.tooMany listLimit what)
    let first ← item
    match ← accept tokens [.comma] with
    | some _ => return first :: (← commaItems what item fuel (count + 1))
    | none => return [first]

def commaList (fuel : Nat) (what : String) (item : Walk α) : Walk (List α) := do
  if ← check tokens .rightParen then return [] else commaItems tokens what item fuel 0

def itemsUntil (stop : Walk Bool) (item : Walk (Option α)) : (fuel : Nat) → Walk (List α)
  | 0 => throw .outOfFuel
  | fuel + 1 => do
    if ← stop then return []
    else if ← isAtEnd tokens then return []
    else
      let first ← item
      return first.toList ++ (← itemsUntil stop item fuel)

/-! ### Recovery -/

/-- Moves on until a semicolon is behind or a word that starts a statement is next. -/
def skip : (fuel : Nat) → Walk Unit
  | 0 => throw .outOfFuel
  | fuel + 1 => do
    if ← isAtEnd tokens then return ()
    else if (← previous tokens).kind == .semicolon then return ()
    else if startsStatement (← peek tokens).kind then return ()
    else
      let _ ← advance tokens
      skip fuel

def synchronize (fuel : Nat) : Walk Unit := do
  let _ ← advance tokens
  skip tokens fuel

/-- What is done about a panic; no other way to stop is caught. -/
def orElse (p : Walk α) (handler : Walk α) : Walk α := fun w =>
  match p w with
  | .error .panic w' => handler w'
  | result => result

def recover (fuel : Nat) (p : Walk α) : Walk (Option α) :=
  orElse (return some (← p)) do
    synchronize tokens fuel
    return none

/-! ### Expressions -/

def primary (expression : Walk Node) : Walk Node :=
  choose tokens (fail tokens (.expected "expression"))
    [(.kwFalse, fun _ => return .literal (.bool false)),
     (.kwTrue, fun _ => return .literal (.bool true)),
     (.kwNil, fun _ => return .literal .null),
     (.number, fun t => return .literal (.ofScalar t.literal)),
     (.string, fun t => return .literal (.ofScalar t.literal)),
     (.identifier, fun t => return .reference (.token t)),
     (.leftParen, fun _ => do
       let inner ← expression
       let _ ← expect tokens .rightParen "')' after expression"
       return .grouping inner)]

def callsAfter (expression : Walk Node) : (fuel : Nat) → Node → Walk Node
  | 0, _ => throw .outOfFuel
  | fuel + 1, callee => do
    match ← accept tokens [.leftParen] with
    | none => return callee
    | some _ =>
      let arguments ← commaList tokens (fuel + 1) "arguments" expression
      let paren ← expect tokens .rightParen "')' after arguments"
      callsAfter expression fuel (.call callee (.token paren) arguments)

def call (fuel : Nat) (expression : Walk Node) : Walk Node := do
  let callee ← primary tokens expression
  callsAfter tokens expression fuel callee

/-- A sign and what it stands before, which may begin with a sign again. -/
def unary (bound : Nat) (expression : Walk Node) : (fuel : Nat) → Walk Node
  | 0 => throw .outOfFuel
  | fuel + 1 => do
    match ← accept tokens [.bang, .minus] with
    | some operator =>
      let right ← unary bound expression fuel
      return .unary (.token operator) right
    | none => call tokens bound expression

def operandsAfter (operators : List Kind) (build : Node → Node → Node → Node) (operand : Walk Node) :
    (fuel : Nat) → Node → Walk Node
  | 0, _ => throw .outOfFuel
  | fuel + 1, left => do
    match ← accept tokens operators with
    | none => return left
    | some operator =>
      let right ← operand
      operandsAfter operators build operand fuel (build left (.token operator) right)

def leftLevel (fuel : Nat) (operators : List Kind) (build : Node → Node → Node → Node) (operand : Walk Node) :
    Walk Node := do
  let left ← operand
  operandsAfter tokens operators build operand fuel left

def factor (fuel : Nat) (expression : Walk Node) : Walk Node :=
  leftLevel tokens fuel [.slash, .star] .binary (unary tokens fuel expression fuel)

def term (fuel : Nat) (expression : Walk Node) : Walk Node :=
  leftLevel tokens fuel [.minus, .plus] .binary (factor tokens fuel expression)

def comparison (fuel : Nat) (expression : Walk Node) : Walk Node :=
  leftLevel tokens fuel [.greater, .greaterEqual, .less, .lessEqual] .binary (term tokens fuel expression)

def equality (fuel : Nat) (expression : Walk Node) : Walk Node :=
  leftLevel tokens fuel [.bangEqual, .equalEqual] .binary (comparison tokens fuel expression)

def conjunction (fuel : Nat) (expression : Walk Node) : Walk Node :=
  leftLevel tokens fuel [.kwAnd] .logical (equality tokens fuel expression)

def disjunction (fuel : Nat) (expression : Walk Node) : Walk Node :=
  leftLevel tokens fuel [.kwOr] .logical (conjunction tokens fuel expression)

def assignment (fuel : Nat) (expression : Walk Node) : Walk Node := do
  let left ← disjunction tokens fuel expression
  match ← accept tokens [.equal] with
  | none => return left
  | some equals =>
    let value ← expression
    match left with
    | .reference name => return .assign name value
    | _ => do
      report equals .invalidTarget
      return left

def expression : (fuel : Nat) → Walk Node
  | 0 => throw .outOfFuel
  | fuel + 1 => assignment tokens (fuel + 1) (expression fuel)

/-! ### Statements -/

def expressionStatement (fuel : Nat) : Walk Node := do
  let value ← expression tokens fuel
  let _ ← expect tokens .semicolon "';' after value"
  return .expression value

def printStatement (fuel : Nat) : Walk Node := do
  let value ← expression tokens fuel
  let _ ← expect tokens .semicolon "';' after value"
  return .print value

def optionalUnless (fuel : Nat) (kind : Kind) : Walk (Option Node) := do
  if ← check tokens kind then return none else return some (← expression tokens fuel)

def returnStatement (fuel : Nat) (inFunction : Bool) (keyword : Token) : Walk Node := do
  if !inFunction then report keyword .topLevelReturn
  let value ← optionalUnless tokens fuel .semicolon
  let _ ← expect tokens .semicolon "';' after return value"
  return .ret (.token keyword) (value.getD .null)

def variableDeclaration (fuel : Nat) : Walk Node := do
  let name ← expect tokens .identifier "variable name"
  let initial ← match ← accept tokens [.equal] with
    | some _ => expression tokens fuel
    | none => pure .null
  let _ ← expect tokens .semicolon "';' after variable declaration"
  return .var (.token name) initial

def ifStatement (fuel : Nat) (statement : Walk Node) : Walk Node := do
  let _ ← expect tokens .leftParen "'(' after 'if'"
  let condition ← expression tokens fuel
  let _ ← expect tokens .rightParen "')' after 'if' condition"
  let yes ← statement
  let no ← match ← accept tokens [.kwElse] with
    | some _ => statement
    | none => pure .null
  return .branch condition yes no

def whileStatement (fuel : Nat) (statement : Walk Node) : Walk Node := do
  let _ ← expect tokens .leftParen "'(' after 'while'"
  let condition ← expression tokens fuel
  let _ ← expect tokens .rightParen "')' after 'while' condition"
  let body ← statement
  return .loop condition body

def forInitial (fuel : Nat) : Walk (Option Node) :=
  choose tokens (return some (← expressionStatement tokens fuel))
    [(.semicolon, fun _ => return none),
     (.kwVar, fun _ => return some (← variableDeclaration tokens fuel))]

def forStatement (fuel : Nat) (statement : Walk Node) : Walk Node := do
  let _ ← expect tokens .leftParen "'(' after 'for'"
  let initial ← forInitial tokens fuel
  let condition ← optionalUnless tokens fuel .semicolon
  let _ ← expect tokens .semicolon "';' after loop condition"
  let increment ← optionalUnless tokens fuel .rightParen
  let _ ← expect tokens .rightParen "')' after for clauses"
  let body ← statement
  return desugarFor initial condition increment body

def block (fuel : Nat) (declaration : Walk (Option Node)) : Walk (List Node) := do
  let statements ← itemsUntil tokens (check tokens .rightBrace) declaration fuel
  let _ ← expect tokens .rightBrace "'\x7d' after block"
  return statements

def functionDeclaration (fuel : Nat) (declaration : Walk (Option Node)) : Walk Node := do
  let name ← expect tokens .identifier "function name"
  let _ ← expect tokens .leftParen "'(' after function name"
  let params ← commaList tokens fuel "parameters" (expect tokens .identifier "parameter name")
  let _ ← expect tokens .rightParen "')' after parameters"
  let _ ← expect tokens .leftBrace "'\x7b' before function body"
  let body ← block tokens fuel declaration
  return .function (.token name) (params.map .token) body

mutual

def statement : (fuel : Nat) → (inFunction : Bool) → Walk Node
  | 0, _ => throw .outOfFuel
  | fuel + 1, inFunction =>
    choose tokens (expressionStatement tokens fuel)
      [(.kwIf, fun _ => ifStatement tokens fuel (statement fuel inFunction)),
       (.kwPrint, fun _ => printStatement tokens fuel),
       (.kwWhile, fun _ => whileStatement tokens fuel (statement fuel inFunction)),
       (.kwFor, fun _ => forStatement tokens fuel (statement fuel inFunction)),
       (.kwReturn, fun t => returnStatement tokens fuel inFunction t),
       (.leftBrace, fun _ => return .block (← block tokens fuel (declaration fuel inFunction)))]

def declaration : (fuel : Nat) → (inFunction : Bool) → Walk (Option Node)
  | 0, _ => throw .outOfFuel
  | fuel + 1, inFunction => recover tokens fuel <|
    choose tokens (statement fuel inFunction)
      [(.kwFun, fun _ => functionDeclaration tokens fuel (declaration fuel true)),
       (.kwVar, fun _ => variableDeclaration tokens fuel)]

end

/-! ### Whole lists -/

/-- All declarations up to the end. -/
def program (fuel : Nat) : Walk (List Node) :=
  itemsUntil tokens (pure false) (declaration tokens fuel false) fuel

/-- An expression that takes all tokens up to the one that marks the end, or none if it is malformed. -/
def wholeExpression (fuel : Nat) : Walk (Option Node) :=
  orElse (do
    let value ← expression tokens fuel
    let _ ← expect tokens .eof "end of expression"
    return some value) (return none)

end Walk

end LoxLang.Grammar
