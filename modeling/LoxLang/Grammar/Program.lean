import LoxLang.Grammar.Statement
import LoxLang.Token.Scan
/-!
# Parsing whole texts

The statements of a program are those that parse; a malformed one is reported and left out. All that
is wrong with the characters of a text is reported before anything that is wrong with its tokens.
-/

namespace LoxLang

/-- A parse result with the diagnostics about its text. -/
structure Parsed (α : Type) where
  result : α
  diagnostics : List Diagnostic

namespace Grammar

/-- All declarations up to the end. -/
def program (bound : Nat) : Parser (List Node) :=
  itemsUntil (fun _ => false) (declaration bound false) bound

/-- An expression that takes all tokens. -/
def wholeExpression (bound : Nat) : Parser Node := do
  let value ← expression bound
  if (← get).atEnd then return value else fail (.expected "end of expression")

/-- A bound for every parser on a list of tokens: every step inwards but one takes a token. -/
def boundFor (tokens : List Token) : Nat := 2 * tokens.length + 3

/-- Runs a parser on a list of tokens and the token that marks their end. -/
def parseTokens {α : Type} (parser : Nat → Parser α) (tokens : List Token) (eof : Token) :
    Parsed (Option α) :=
  match parser (boundFor tokens) ⟨tokens, eof, []⟩ with
  | .ok a c => ⟨some a, c.reports⟩
  | .error _ c => ⟨none, c.reports⟩

end Grammar

def parseProgramTokens (tokens : List Token) (eof : Token) : Parsed (List Node) :=
  let parsed := Grammar.parseTokens Grammar.program tokens eof
  ⟨parsed.result.getD [], parsed.diagnostics⟩

def parseExpressionTokens (tokens : List Token) (eof : Token) : Parsed (Option Node) :=
  Grammar.parseTokens Grammar.wholeExpression tokens eof

def parseProgram (source : String) : Parsed (List Node) :=
  let scan := scan source
  let parsed := parseProgramTokens scan.tokens scan.eof
  ⟨parsed.result, scan.diagnostics ++ parsed.diagnostics⟩

def parseExpression (source : String) : Parsed (Option Node) :=
  let scan := scan source
  let parsed := parseExpressionTokens scan.tokens scan.eof
  ⟨parsed.result, scan.diagnostics ++ parsed.diagnostics⟩

end LoxLang
