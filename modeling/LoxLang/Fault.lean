/-!
# Faults of stored trees

A tree that a parser built can always be printed and run. A stored tree may fail to be a program:
what is found at some place cannot stand there. That is a fault. It is not an error of the running
program, and nothing reports it as one.
-/

namespace LoxLang

/-- Why a tree is not a program at the place that was reached. -/
inductive Fault where
  /-- A token was needed and something else stands there. -/
  | notToken
  /-- The lexeme of a token is a list or an object, which names nothing. -/
  | notName
  /-- A node stands where a value was needed. -/
  | notValue
  /-- The lexeme of a name among the arguments of a call is no text. -/
  | notText
  /-- A node or a function stands where a literal was needed. -/
  | notLiteral
  /-- Only expressions have source text. -/
  | notPrintable (typeName : String)
  | notStatement (typeName : String)
  | notExpression (typeName : String)
deriving DecidableEq, Repr

/-- The message of a fault; some have none. -/
def Fault.message? : Fault → Option String
  | .notToken => none
  | .notName => none
  | .notText => none
  | .notValue => some "not a Lox value:"
  | .notLiteral => some "Unsupported literal:"
  | .notPrintable typeName => some ("Unsupported node for printing: " ++ typeName)
  | .notStatement typeName => some ("execute: unexpected node type " ++ typeName)
  | .notExpression typeName => some ("evaluate: unexpected node type " ++ typeName)

end LoxLang
