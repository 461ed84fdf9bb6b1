import LoxLang.Node.Basic
/-!
# Reading tokens

A parser takes tokens from the front of a list and may report diagnostics as it goes. A parser that
cannot go on reports why and panics; the tokens it has taken by then stay taken. `recover` stops a
panic and moves on to where the next statement may start.
-/

namespace LoxLang.Grammar

structure Cursor where
  /-- The tokens not yet taken, without the one that marks the end. -/
  rest : List Token
  eof : Token
  reports : List Diagnostic

/-- The signal of a parser that cannot go on. -/
inductive Panic where
  | panic

/-- A computation that takes tokens. -/
abbrev Parser := EStateM Panic Cursor

namespace Cursor

def peek (c : Cursor) : Token := c.rest.headD c.eof

def atEnd (c : Cursor) : Bool := c.rest.isEmpty

def isAt (kind : Kind) (c : Cursor) : Bool :=
  match c.rest with
  | t :: _ => t.kind == kind
  | [] => false

end Cursor

/-! ### Steps -/

def isAt (kind : Kind) : Parser Bool := do return (← get).isAt kind

/-- Takes the next token if its kind is wanted. -/
def take? (wanted : Kind → Bool) : Parser (Option Token) := fun c =>
  match c.rest with
  | t :: rest => if wanted t.kind then .ok (some t) { c with rest := rest } else .ok none c
  | [] => .ok none c

/-- Takes the longest run of tokens of wanted kinds. -/
def takeAll (wanted : Kind → Bool) : Parser (List Token) := fun c =>
  .ok (c.rest.takeWhile fun t => wanted t.kind)
    { c with rest := c.rest.dropWhile fun t => wanted t.kind }

def report (t : Token) (complaint : Complaint) : Parser Unit :=
  modify fun c => { c with reports := c.reports ++ [t.complain complaint] }

/-- Reports a complaint about the next token and panics. -/
def fail {α : Type} (complaint : Complaint) : Parser α := do
  report (← get).peek complaint
  throw .panic

/-- Takes a token of the given kind, which the grammar asks for as `what`. -/
def expect (kind : Kind) (what : String) : Parser Token := do
  match ← take? (· == kind) with
  | some t => return t
  | none => fail (.expected what)

/-! ### Lists

Repetition takes a bound on the number of rounds. Every round takes a token, so the number of tokens
left is bound enough. -/

/-- The most arguments of a call and parameters of a function. -/
def listLimit : Nat := 255

/-- The items of a list after `count` others, with a comma before each further one. Every item past
the limit is reported and kept. -/
def commaItems {α : Type} (what : String) (item : Parser α) :
    (bound count : Nat) → Parser (List α)
  | 0, _ => throw .panic
  | bound + 1, count => do
    if listLimit ≤ count then report (← get).peek (.tooMany listLimit what)
    let first ← item
    match ← take? (· == .comma) with
    | some _ => return first :: (← commaItems what item bound (count + 1))
    | none => return [first]

/-- Items with commas between them, none at all if the closing parenthesis is next. -/
def commaList {α : Type} (bound : Nat) (what : String) (item : Parser α) : Parser (List α) := do
  if ← isAt .rightParen then return [] else commaItems what item bound 0

/-- Items up to where `stop` holds or the tokens end. -/
def itemsUntil {α : Type} (stop : Cursor → Bool) (item : Parser (Option α)) :
    (bound : Nat) → Parser (List α)
  | 0 => return []
  | bound + 1 => do
    if stop (← get) || (← get).atEnd then return []
    else
      let first ← item
      return first.toList ++ (← itemsUntil stop item bound)

/-! ### Recovery -/

def startsStatement : Kind → Bool
  | .kwClass | .kwFun | .kwVar | .kwFor | .kwIf | .kwWhile | .kwPrint | .kwReturn => true
  | _ => false

/-- Skips tokens after `last` up to behind a semicolon or before a word that starts a statement. -/
def skipAfter (last : Token) : List Token → List Token
  | [] => []
  | t :: rest =>
    if last.kind == .semicolon || startsStatement t.kind then t :: rest else skipAfter t rest

/-- Skips one token and then on to where the next statement may start. -/
def synchronize : List Token → List Token
  | [] => []
  | t :: rest => skipAfter t rest

/-- Turns a panic into a missing item. -/
def recover {α : Type} (parser : Parser α) : Parser (Option α) := fun c =>
  match parser c with
  | .ok a c => .ok (some a) c
  | .error _ c => .ok none { c with rest := synchronize c.rest }

end LoxLang.Grammar
