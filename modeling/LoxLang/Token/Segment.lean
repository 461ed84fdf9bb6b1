import LoxLang.Token.Basic
/-!
# Segments of a source text

A source text is cut into segments from left to right. Each is the longest piece that the lexicon
knows at its place: a run of blanks, a comment, the lexeme of a token, or a string that never ends.
Where the lexicon knows nothing, one character stands alone as a stray. Nothing is lost: the texts of
the segments, one after the other, are the source.
-/

namespace LoxLang

/-- One piece of a source text. -/
inductive Segment where
  | blanks (text : List Char)
  | comment (text : List Char)
  | lexeme (kind : Kind) (text : List Char)
  | stray (c : Char)
  | unterminated (text : List Char)
deriving DecidableEq, Repr

namespace Segment

def text : Segment → List Char
  | blanks text => text
  | comment text => text
  | lexeme _ text => text
  | stray c => [c]
  | unterminated text => text

/-! ### Character classes -/

def isBlank (c : Char) : Bool := c == ' ' || c == '\t' || c == '\x0c' || c == '\r' || c == '\n'

/-- Names are made of ASCII letters, digits and underscores, and do not start with a digit. -/
def isNameStart (c : Char) : Bool := c.isAlpha || c == '_'

def isNamePart (c : Char) : Bool := isNameStart c || c.isDigit

/-! ### The lexicon -/

def reserved : List (List Char × Kind) :=
  [("and".toList, .kwAnd), ("class".toList, .kwClass), ("else".toList, .kwElse),
   ("false".toList, .kwFalse), ("fun".toList, .kwFun), ("for".toList, .kwFor),
   ("if".toList, .kwIf), ("nil".toList, .kwNil), ("or".toList, .kwOr), ("print".toList, .kwPrint),
   ("return".toList, .kwReturn), ("super".toList, .kwSuper), ("this".toList, .kwThis),
   ("true".toList, .kwTrue), ("var".toList, .kwVar), ("while".toList, .kwWhile)]

/-- A word is reserved as a whole or not at all. -/
def wordKind (word : List Char) : Kind := (reserved.lookup word).getD .identifier

def markKind? (c : Char) : Option Kind :=
  if c = '(' then some .leftParen
  else if c = ')' then some .rightParen
  else if c = '\x7b' then some .leftBrace
  else if c = '\x7d' then some .rightBrace
  else if c = ',' then some .comma
  else if c = '.' then some .dot
  else if c = '-' then some .minus
  else if c = '+' then some .plus
  else if c = ';' then some .semicolon
  else if c = '/' then some .slash
  else if c = '*' then some .star
  else if c = '!' then some .bang
  else if c = '=' then some .equal
  else if c = '>' then some .greater
  else if c = '<' then some .less
  else none

/-- The marks that an equals sign makes longer. -/
def equalKind? (c : Char) : Option Kind :=
  if c = '!' then some .bangEqual
  else if c = '=' then some .equalEqual
  else if c = '>' then some .greaterEqual
  else if c = '<' then some .lessEqual
  else none

/-! ### Cutting -/

/-- A mark of one character, or the character as a stray. -/
def single (c : Char) : Segment :=
  match markKind? c with
  | some kind => lexeme kind [c]
  | none => stray c

/-- A mark that starts with `c`, the longer one if an equals sign follows, or `c` as a stray. -/
def cutMark (c : Char) (rest : List Char) : Segment × List Char :=
  match equalKind? c, rest with
  | some kind, '=' :: after => (lexeme kind [c, '='], after)
  | _, rest => (single c, rest)

/-- Digits, and a point with digits after it if both follow. -/
def cutNumeral (c : Char) (rest : List Char) : Segment × List Char :=
  let whole := c :: rest.takeWhile Char.isDigit
  let after := rest.dropWhile Char.isDigit
  match after with
  | '.' :: d :: more =>
    if d.isDigit then
      (lexeme .number (whole ++ '.' :: d :: more.takeWhile Char.isDigit), more.dropWhile Char.isDigit)
    else (lexeme .number whole, after)
  | _ => (lexeme .number whole, after)

/-- A string up to its closing quote, or to the end of the source if there is none. -/
def cutString (rest : List Char) : Segment × List Char :=
  let inside := rest.takeWhile (· != '"')
  match rest.dropWhile (· != '"') with
  | quote :: after => (lexeme .string ('"' :: inside ++ [quote]), after)
  | [] => (unterminated ('"' :: inside), [])

/-- The segment at the start of a text that begins with `c`, and what follows it. -/
def cut (c : Char) (rest : List Char) : Segment × List Char :=
  if isBlank c then (blanks (c :: rest.takeWhile isBlank), rest.dropWhile isBlank)
  else if isNameStart c then
    let word := c :: rest.takeWhile isNamePart
    (lexeme (wordKind word) word, rest.dropWhile isNamePart)
  else if c.isDigit then cutNumeral c rest
  else if c = '"' then cutString rest
  else if c = '/' && rest.head? == some '/' then
    (comment (c :: rest.takeWhile (· != '\n')), rest.dropWhile (· != '\n'))
  else cutMark c rest

/-! ### Progress -/

theorem length_dropWhile_le (p : Char → Bool) (cs : List Char) :
    (cs.dropWhile p).length ≤ cs.length :=
  (List.dropWhile_sublist p).length_le

theorem cutMark_length (c : Char) (rest : List Char) : (cutMark c rest).2.length ≤ rest.length := by
  unfold cutMark
  split <;> simp

theorem cutNumeral_length (c : Char) (rest : List Char) :
    (cutNumeral c rest).2.length ≤ rest.length := by
  unfold cutNumeral
  have h := length_dropWhile_le Char.isDigit rest
  dsimp only
  split
  next d more heq =>
    have h2 := length_dropWhile_le Char.isDigit more
    have h3 : more.length + 2 ≤ rest.length := by rw [heq] at h; exact h
    split
    · dsimp only; omega
    · exact h
  next => exact h

theorem cutString_length (rest : List Char) : (cutString rest).2.length ≤ rest.length := by
  unfold cutString
  have h := length_dropWhile_le (· != '"') rest
  dsimp only
  split
  next after heq =>
    have h2 : after.length + 1 ≤ rest.length := by rw [heq] at h; exact h
    dsimp only
    omega
  next => simp

/-- Cutting a segment leaves no more than what followed its first character. -/
theorem cut_length (c : Char) (rest : List Char) : (cut c rest).2.length ≤ rest.length := by
  unfold cut
  split
  · exact length_dropWhile_le _ _
  split
  · exact length_dropWhile_le _ _
  split
  · exact cutNumeral_length c rest
  split
  · exact cutString_length rest
  split
  · exact length_dropWhile_le _ _
  · exact cutMark_length c rest

def split : List Char → List Segment
  | [] => []
  | c :: rest => (cut c rest).1 :: split (cut c rest).2
termination_by cs => cs.length
decreasing_by
  have := cut_length c rest
  simp only [List.length_cons]
  omega

end Segment

end LoxLang
