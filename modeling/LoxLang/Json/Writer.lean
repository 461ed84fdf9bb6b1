import LoxLang.Json.Basic
import LoxLang.Text.Quoted
/-!
# Writing JSON

Documents are written one item a line, two blanks deeper for every list or object around it. Text
stays as it is but for quotes, backslashes and control characters; numbers keep a point or a power
of ten, so that they are read as numbers again and not as integers.
-/

namespace LoxLang.Json

def numberFormat : NumberFormat where
  places := some (-4, 16)
  whole := ".0".toList
  infinity := "Infinity".toList
  nan := "NaN".toList

/-- One character inside a written string. -/
def escapeChar (c : Char) : List Char :=
  if c = '"' then ['\\', '"']
  else if c = '\\' then ['\\', '\\']
  else if c = '\n' then ['\\', 'n']
  else if c = '\r' then ['\\', 'r']
  else if c = '\t' then ['\\', 't']
  else if c = '\x0c' then ['\\', 'f']
  else if c = '\x08' then ['\\', 'b']
  else if c.toNat < 0x20 then '\\' :: 'u' :: Text.hexDigits 4 c.toNat
  else [c]

def writeString (s : String) : List Char := '"' :: s.toList.flatMap escapeChar ++ ['"']

/-- The start of a line inside `depth` lists and objects. -/
def newline (depth : Nat) : List Char := '\n' :: List.replicate (2 * depth) ' '

mutual

/-- A value that stands inside `depth` lists and objects. -/
def writeAt (depth : Nat) : Json → List Char
  | .null => "null".toList
  | .bool b => if b then "true".toList else "false".toList
  | .int i => (toString i).toList
  | .num x => (numberFormat.text x).toList
  | .str s => writeString s
  | .arr [] => ['[', ']']
  | .arr (j :: rest) =>
    '[' :: newline (depth + 1) ++ writeAt (depth + 1) j ++ writeItems (depth + 1) rest ++
      newline depth ++ [']']
  | .obj [] => ['\x7b', '\x7d']
  | .obj ((k, v) :: rest) =>
    '\x7b' :: newline (depth + 1) ++ writeString k ++ [':', ' '] ++ writeAt (depth + 1) v ++
      writeFields (depth + 1) rest ++ newline depth ++ ['\x7d']

/-- The items after the first one. -/
def writeItems (depth : Nat) : List Json → List Char
  | [] => []
  | j :: rest => ',' :: newline depth ++ writeAt depth j ++ writeItems depth rest

/-- The fields after the first one. -/
def writeFields (depth : Nat) : List (String × Json) → List Char
  | [] => []
  | (k, v) :: rest =>
    ',' :: newline depth ++ writeString k ++ [':', ' '] ++ writeAt depth v ++ writeFields depth rest

end

def write (j : Json) : String := String.ofList (writeAt 0 j)

end LoxLang.Json
