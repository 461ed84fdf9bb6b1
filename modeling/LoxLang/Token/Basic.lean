import LoxLang.Diagnostic
import LoxLang.Json.Describe
/-!
# Tokens

A token has a kind, a lexeme, a literal value for numerals and strings, and a line. Tokens are also
stored in documents, and a document may hold any value as the lexeme or the literal of a token, so
both are JSON values. Tokens of a source text always have a text as their lexeme.
-/

namespace LoxLang

inductive Kind where
  | leftParen | rightParen | leftBrace | rightBrace | comma | dot | minus | plus | semicolon
  | slash | star
  | bang | bangEqual | equal | equalEqual | greater | greaterEqual | less | lessEqual
  | identifier | string | number
  | kwAnd | kwClass | kwElse | kwFalse | kwFun | kwFor | kwIf | kwNil | kwOr | kwPrint | kwReturn
  | kwSuper | kwThis | kwTrue | kwVar | kwWhile
  | eof
deriving DecidableEq, Repr

namespace Kind

def name : Kind → String
  | leftParen => "LEFT_PAREN" | rightParen => "RIGHT_PAREN"
  | leftBrace => "LEFT_BRACE" | rightBrace => "RIGHT_BRACE"
  | comma => "COMMA" | dot => "DOT" | minus => "MINUS" | plus => "PLUS"
  | semicolon => "SEMICOLON" | slash => "SLASH" | star => "STAR"
  | bang => "BANG" | bangEqual => "BANG_EQUAL" | equal => "EQUAL" | equalEqual => "EQUAL_EQUAL"
  | greater => "GREATER" | greaterEqual => "GREATER_EQUAL"
  | less => "LESS" | lessEqual => "LESS_EQUAL"
  | identifier => "IDENTIFIER" | string => "STRING" | number => "NUMBER"
  | kwAnd => "AND" | kwClass => "CLASS" | kwElse => "ELSE" | kwFalse => "FALSE" | kwFun => "FUN"
  | kwFor => "FOR" | kwIf => "IF" | kwNil => "NIL" | kwOr => "OR" | kwPrint => "PRINT"
  | kwReturn => "RETURN" | kwSuper => "SUPER" | kwThis => "THIS" | kwTrue => "TRUE"
  | kwVar => "VAR" | kwWhile => "WHILE"
  | eof => "EOF"

def all : List Kind :=
  [leftParen, rightParen, leftBrace, rightBrace, comma, dot, minus, plus, semicolon, slash, star,
   bang, bangEqual, equal, equalEqual, greater, greaterEqual, less, lessEqual, identifier, string,
   number, kwAnd, kwClass, kwElse, kwFalse, kwFun, kwFor, kwIf, kwNil, kwOr, kwPrint, kwReturn,
   kwSuper, kwThis, kwTrue, kwVar, kwWhile, eof]

def ofName? (name : String) : Option Kind := all.find? fun k => k.name == name

end Kind

structure Token where
  kind : Kind
  lexeme : Json
  literal : Json
  line : Int

namespace Token

def text (t : Token) : String := t.lexeme.describe

/-- The token that ends every list of tokens. -/
def atEnd (line : Int) : Token := ⟨.eof, .str "", .null, line⟩

/-- A diagnostic that points at a token. -/
def complain (t : Token) (complaint : Complaint) : Diagnostic :=
  ⟨t.line, if t.kind = .eof then .atEnd else .at t.text, complaint⟩

end Token

end LoxLang
