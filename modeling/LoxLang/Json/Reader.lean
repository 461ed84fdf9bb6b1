import LoxLang.Json.Basic
/-!
# Reading JSON

The reader takes standard JSON and the three words `NaN`, `Infinity` and `-Infinity`. A numeral
without point and exponent is an integer; every other numeral is rounded to the nearest number. Of
two fields with one key the later value wins.

Strings are texts here. A half of a surrogate pair that stands alone is no character, and U+FFFD takes
its place, also where a reader of code units would keep it.

Reading follows the text with an explicit bound on the number of calls. `read` gives two calls for
every character, and no call leaves the text untouched twice, so the bound is never met.
-/

namespace LoxLang.Json

inductive ReadError where
  | malformed
  /-- An integer has more digits than the reader takes. -/
  | longInteger
deriving DecidableEq, Repr

def isBlank (c : Char) : Bool := c == ' ' || c == '\t' || c == '\n' || c == '\r'

def skipBlanks (cs : List Char) : List Char := cs.dropWhile isBlank

/-! ### Strings -/

/-- The value of four hexadecimal digits. -/
def hexCode? (cs : List Char) : Option Nat :=
  cs.foldlM (fun code c =>
    if c.isDigit then some (16 * code + (c.toNat - '0'.toNat))
    else if 'a' ≤ c && c ≤ 'f' then some (16 * code + (c.toNat - 'a'.toNat + 10))
    else if 'A' ≤ c && c ≤ 'F' then some (16 * code + (c.toNat - 'A'.toNat + 10))
    else none) 0

/-- The character that a backslash and a letter stand for. -/
def simpleEscape? (c : Char) : Option Char :=
  if c = '"' || c = '\\' || c = '/' then some c
  else if c = 'n' then some '\n'
  else if c = 'r' then some '\r'
  else if c = 't' then some '\t'
  else if c = 'f' then some '\x0c'
  else if c = 'b' then some '\x08'
  else none

def isHighSurrogate (code : Nat) : Bool := 0xd800 ≤ code && code < 0xdc00

def isLowSurrogate (code : Nat) : Bool := 0xdc00 ≤ code && code < 0xe000

/-- The characters of a list of codes: two halves in a row make up one character beyond the first
plane, and a half that stands alone becomes U+FFFD. -/
def charsOfCodes : List Nat → List Char
  | [] => []
  | [code] => [if isHighSurrogate code || isLowSurrogate code then '\ufffd' else Char.ofNat code]
  | high :: low :: rest =>
    if isHighSurrogate high && isLowSurrogate low then
      Char.ofNat (0x10000 + (high - 0xd800) * 0x400 + (low - 0xdc00)) :: charsOfCodes rest
    else if isHighSurrogate high || isLowSurrogate high then '\ufffd' :: charsOfCodes (low :: rest)
    else Char.ofNat high :: charsOfCodes (low :: rest)

/-- The codes up to the closing quote, after those in `done`, which stand in reverse. -/
def readCodes (done : List Nat) : List Char → Except ReadError (List Nat × List Char)
  | '"' :: rest => .ok (done.reverse, rest)
  | '\\' :: 'u' :: a :: b :: c :: d :: rest =>
    match hexCode? [a, b, c, d] with
    | some code => readCodes (code :: done) rest
    | none => .error .malformed
  | '\\' :: c :: rest =>
    match simpleEscape? c with
    | some c => readCodes (c.toNat :: done) rest
    | none => .error .malformed
  | c :: rest => if c.toNat < 0x20 then .error .malformed else readCodes (c.toNat :: done) rest
  | [] => .error .malformed

def readString (cs : List Char) : Except ReadError (String × List Char) := do
  let (codes, rest) ← readCodes [] cs
  return (String.ofList (charsOfCodes codes), rest)

/-! ### Numerals -/

/-- The digits before the point: a lone zero, or digits that start with another one. -/
def readWhole : List Char → Option (List Char × List Char)
  | '0' :: rest => some (['0'], rest)
  | c :: rest => if c.isDigit then some ((c :: rest).span Char.isDigit) else none
  | [] => none

/-- The digits after a point, if a point and a digit follow. -/
def readFraction (cs : List Char) : Option (List Char × List Char) :=
  match cs with
  | '.' :: rest =>
    let (digits, rest) := rest.span Char.isDigit
    if digits.isEmpty then none else some (digits, rest)
  | _ => none

/-- The power of ten, if its mark and a digit follow. -/
def readPower (cs : List Char) : Option (Int × List Char) :=
  match cs with
  | mark :: rest =>
    if mark = 'e' || mark = 'E' then
      let (negative, rest) := match rest with
        | '-' :: rest => (true, rest)
        | '+' :: rest => (false, rest)
        | rest => (false, rest)
      let (digits, rest) := rest.span Char.isDigit
      let power : Int := Nat.ofDigitChars 10 digits 0
      if digits.isEmpty then none else some (if negative then -power else power, rest)
    else none
  | [] => none

/-- A numeral without its sign. -/
def readNumeral (negative : Bool) (cs : List Char) : Except ReadError (Json × List Char) :=
  match readWhole cs with
  | none => .error .malformed
  | some (whole, rest) =>
    let decimal (fraction : List Char) (power : Int) : Json :=
      .num (Number.signed negative
        (Number.ofScientific (Nat.ofDigitChars 10 (whole ++ fraction) 0) (power - fraction.length)))
    match readFraction rest with
    | some (fraction, rest) =>
      match readPower rest with
      | some (power, rest) => .ok (decimal fraction power, rest)
      | none => .ok (decimal fraction 0, rest)
    | none =>
      match readPower rest with
      | some (power, rest) => .ok (decimal [] power, rest)
      | none =>
        if integerDigits < whole.length then .error .longInteger
        else
          let value : Int := Nat.ofDigitChars 10 whole 0
          .ok (.int (if negative then -value else value), rest)

/-! ### Values -/

def words : List (List Char × Json) :=
  [("null".toList, .null), ("true".toList, .bool true), ("false".toList, .bool false),
   ("NaN".toList, .num Number.nan), ("Infinity".toList, .num Number.infinity),
   ("-Infinity".toList, .num Number.infinity.neg)]

def readScalar (cs : List Char) : Except ReadError (Json × List Char) :=
  match words.find? fun (word, _) => word.isPrefixOf cs with
  | some (word, value) => .ok (value, cs.drop word.length)
  | none =>
    match cs with
    | '-' :: rest => readNumeral true rest
    | cs => readNumeral false cs

mutual

/-- The value at the start of the text. -/
def readValue : Nat → List Char → Except ReadError (Json × List Char)
  | 0, _ => .error .malformed
  | fuel + 1, cs =>
    match cs with
    | '"' :: rest => do
      let (s, rest) ← readString rest
      return (.str s, rest)
    | '[' :: rest =>
      match skipBlanks rest with
      | ']' :: rest => .ok (.arr [], rest)
      | rest => readItems fuel [] rest
    | '\x7b' :: rest =>
      match skipBlanks rest with
      | '\x7d' :: rest => .ok (.obj [], rest)
      | rest => readFields fuel [] rest
    | cs => readScalar cs

/-- The items of a list up to its closing bracket, after those in `done`, which stand in reverse. -/
def readItems : Nat → List Json → List Char → Except ReadError (Json × List Char)
  | 0, _, _ => .error .malformed
  | fuel + 1, done, cs => do
    let (item, rest) ← readValue fuel cs
    match skipBlanks rest with
    | ',' :: rest => readItems fuel (item :: done) (skipBlanks rest)
    | ']' :: rest => return (.arr (item :: done).reverse, rest)
    | _ => throw .malformed

/-- The fields of an object up to its closing brace, added to those before. -/
def readFields : Nat → List (String × Json) → List Char → Except ReadError (Json × List Char)
  | 0, _, _ => .error .malformed
  | fuel + 1, fields, cs =>
    match cs with
    | '"' :: rest => do
      let (key, rest) ← readString rest
      match skipBlanks rest with
      | ':' :: rest =>
        let (value, rest) ← readValue fuel (skipBlanks rest)
        let fields := putField key value fields
        match skipBlanks rest with
        | ',' :: rest => readFields fuel fields (skipBlanks rest)
        | '\x7d' :: rest => return (.obj fields, rest)
        | _ => throw .malformed
      | _ => throw .malformed
    | _ => .error .malformed

end

def read (text : String) : Except ReadError Json := do
  let cs := skipBlanks text.toList
  let (value, rest) ← readValue (2 * cs.length + 2) cs
  if (skipBlanks rest).isEmpty then return value else throw .malformed

end LoxLang.Json
