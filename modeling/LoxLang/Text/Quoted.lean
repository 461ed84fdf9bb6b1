import LoxLang.Text.Hidden
/-!
# Quoted text in messages

A message that names a piece of text puts it between quotes: single ones, or double ones when only
those keep the text readable. Characters that would not show are written by their code.
-/

namespace LoxLang.Text

/-- The lowest `width` hexadecimal digits of a code, in lower case. -/
def hexDigits : (width code : Nat) → List Char
  | 0, _ => []
  | width + 1, code => hexDigits width (code / 16) ++ [Nat.digitChar (code % 16)]

/-- A character by its code, in as few digits as its size allows. -/
def codeEscape (c : Char) : List Char :=
  if c.toNat < 0x100 then '\\' :: 'x' :: hexDigits 2 c.toNat
  else if c.toNat < 0x10000 then '\\' :: 'u' :: hexDigits 4 c.toNat
  else '\\' :: 'U' :: hexDigits 8 c.toNat

/-- One character between the given quotes. -/
def quotedChar (quote c : Char) : List Char :=
  if c == quote || c == '\\' then ['\\', c]
  else if c == '\n' then ['\\', 'n']
  else if c == '\r' then ['\\', 'r']
  else if c == '\t' then ['\\', 't']
  else if isHidden c then codeEscape c
  else [c]

/-- The quote that a text is put between. -/
def quoteFor (cs : List Char) : Char := if cs.contains '\'' && !cs.contains '"' then '"' else '\''

def quoted (s : String) : String :=
  let quote := quoteFor s.toList
  String.ofList ([quote] ++ s.toList.flatMap (quotedChar quote) ++ [quote])

/-- A text between quotes, broken off after the given number of characters. -/
def quotedWithin (limit : Nat) (s : String) : String := String.ofList ((quoted s).toList.take limit)

end LoxLang.Text
