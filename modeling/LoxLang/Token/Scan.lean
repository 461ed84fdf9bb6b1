import LoxLang.Token.Segment
/-!
# Scanning

The tokens of a source text are its lexemes in order, each with the line its last character stands
on, and after them the token that marks the end. Stray characters and strings that never end are
reported in order and give no token.
-/

namespace LoxLang

namespace Number

/-- The number a numeral of the source denotes. -/
def ofNumeral (cs : List Char) : Number :=
  let whole := cs.takeWhile Char.isDigit
  let fraction := (cs.dropWhile Char.isDigit).drop 1
  ofDecimal (Nat.ofDigitChars 10 (whole ++ fraction) 0) (-(fraction.length : Int))

end Number

structure Scan where
  tokens : List Token
  eof : Token
  diagnostics : List Diagnostic

namespace Token

/-- The value of a lexeme: the number of a numeral, the text between the quotes of a string. -/
def literalOf (kind : Kind) (text : List Char) : Json :=
  match kind with
  | .number => .num (Number.ofNumeral text)
  | .string => .str (String.ofList (text.drop 1).dropLast)
  | _ => .null

def ofLexeme (kind : Kind) (text : List Char) (line : Int) : Token :=
  ⟨kind, .str (String.ofList text), literalOf kind text, line⟩

end Token

namespace Scan

/-- How many lines a text ends. -/
def lineBreaks (text : List Char) : Nat := text.count '\n'

/-- Reads segments that start on the given line. -/
def ofSegments (line : Int) : List Segment → Scan
  | [] => ⟨[], Token.atEnd line, []⟩
  | segment :: rest =>
    let line := line + lineBreaks segment.text
    let scan := ofSegments line rest
    match segment with
    | .lexeme kind text => { scan with tokens := Token.ofLexeme kind text line :: scan.tokens }
    | .stray _ =>
      { scan with diagnostics := ⟨line, .nowhere, .unexpectedCharacter⟩ :: scan.diagnostics }
    | .unterminated _ =>
      { scan with diagnostics := ⟨line, .nowhere, .unterminatedString⟩ :: scan.diagnostics }
    | .blanks _ | .comment _ => scan

end Scan

def scan (source : String) : Scan := Scan.ofSegments 1 (Segment.split source.toList)

end LoxLang
