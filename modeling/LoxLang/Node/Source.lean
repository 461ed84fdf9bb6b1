import LoxLang.Fault
import LoxLang.Node.Basic
/-!
# Expressions as source text

Every operation and assignment is put in parentheses, so the text of an expression does not depend
on precedence, and reading it again gives the same expression but for parentheses.
-/

namespace LoxLang.Node

def needToken (n : Node) : Except Fault Token :=
  match n.token? with
  | some t => .ok t
  | none => .error .notToken

/-- The lexeme of the token at a place that asks for one. -/
def lexemeText (n : Node) : Except Fault String := do return (← n.needToken).text

def literalSource : Node → Except Fault String
  | null => .ok "nil"
  | bool b => .ok (if b then "true" else "false")
  | num x => .ok x.source
  | str s => .ok ("\"" ++ s ++ "\"")
  | _ => .error .notLiteral

/-- Whether the source text of an expression is a text even if it stands alone: that of a name is its
lexeme. -/
def hasTextSource : Node → Bool
  | reference (token t) =>
    match t.lexeme with
    | .str _ => true
    | _ => false
  | _ => true

/-- The texts of arguments with commas between them, if all of them are texts by themselves. -/
def joinArguments (arguments : List Node) (texts : List String) : Except Fault String :=
  if arguments.all hasTextSource then .ok (", ".intercalate texts) else .error .notText

mutual

def source : Node → Except Fault String
  | literal value => value.literalSource
  | grouping inner => do return "(" ++ (← source inner) ++ ")"
  | unary operator right => do
    let operator ← operator.lexemeText
    let right ← source right
    return "(" ++ operator ++ right ++ ")"
  | binary left operator right | logical left operator right => do
    let left ← source left
    let operator ← operator.lexemeText
    let right ← source right
    return "(" ++ left ++ " " ++ operator ++ " " ++ right ++ ")"
  | reference name => name.lexemeText
  | assign name value => do
    let name ← name.lexemeText
    let value ← source value
    return "(" ++ name ++ " = " ++ value ++ ")"
  | call callee _ arguments => do
    let arguments ← joinArguments arguments (← sources arguments)
    let callee ← source callee
    return callee ++ "(" ++ arguments ++ ")"
  | other => .error (.notPrintable other.typeName)

def sources : List Node → Except Fault (List String)
  | [] => .ok []
  | n :: rest => do
    let first ← source n
    let rest ← sources rest
    return first :: rest

end

/-- What stands for an expression in source text: its text, but for a name alone the lexeme as it is
stored. -/
def sourceValue : Node → Except Fault Json
  | reference name => do return (← name.needToken).lexeme
  | other => do return .str (← source other)

end LoxLang.Node
