/-!
# Lines of text

A line ends at a line feed; the last one may go without. Text that is read from a file has every
carriage return, alone or before a line feed, turned into a line feed first.
-/

namespace LoxLang.Text

/-- The lines of a text, the characters of the first one so far in reverse. -/
def linesFrom (line : List Char) : List Char → List (List Char)
  | [] => if line.isEmpty then [] else [line.reverse]
  | c :: rest => if c = '\n' then line.reverse :: linesFrom [] rest else linesFrom (c :: line) rest

def lines (text : String) : List String := (linesFrom [] text.toList).map String.ofList

/-- Ends every line with a line feed. -/
def unifyNewlines : List Char → List Char
  | '\r' :: '\n' :: rest => '\n' :: unifyNewlines rest
  | '\r' :: rest => '\n' :: unifyNewlines rest
  | c :: rest => c :: unifyNewlines rest
  | [] => []

end LoxLang.Text
