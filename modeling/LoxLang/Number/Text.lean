import LoxLang.Number.Shortest
/-!
# The texts of a number

One printer writes the shortest digits of a number; what differs between its uses is a
`NumberFormat`: how far positional notation reaches, whether a whole number keeps its point, and the
words for the numbers without digits.
-/

namespace LoxLang

namespace Decimal

def digits (d : Decimal) : List Char := Nat.toDigits 10 d.coefficient

def leading (d : Decimal) : Int := d.exponent + d.digits.length - 1

/-- The digits before and after the point, the former never empty. -/
def positional (d : Decimal) : List Char × List Char :=
  match d.exponent with
  | .ofNat e => (d.digits ++ List.replicate e '0', [])
  | .negSucc e =>
    let places := e + 1
    let n := d.digits.length
    if places < n then (d.digits.take (n - places), d.digits.drop (n - places))
    else (['0'], List.replicate (places - n) '0' ++ d.digits)

/-- The leading digit, the digits after it, and the leading place as a power of ten with a sign and
at least two digits. -/
def scientific (d : Decimal) : List Char :=
  let power := Nat.toDigits 10 d.leading.natAbs
  let point := if d.digits.length = 1 then [] else ['.']
  let sign := if d.leading < 0 then '-' else '+'
  d.digits.take 1 ++ point ++ d.digits.drop 1 ++ ['e', sign] ++
    List.replicate (2 - power.length) '0' ++ power

end Decimal

/-- The decisions of one way to write numbers. -/
structure NumberFormat where
  /-- Leading places that are written positionally; `none` stands for all of them. -/
  places : Option (Int × Int)
  /-- What follows a positional number without a fraction. -/
  whole : List Char
  infinity : List Char
  nan : List Char

namespace NumberFormat

def isPositional (f : NumberFormat) (d : Decimal) : Bool :=
  match f.places with
  | none => true
  | some (low, high) => low ≤ d.leading && d.leading < high

def decimal (f : NumberFormat) (d : Decimal) : List Char :=
  if f.isPositional d then
    let (whole, fraction) := d.positional
    whole ++ if fraction.isEmpty then f.whole else '.' :: fraction
  else d.scientific

def unsigned (f : NumberFormat) (x : Number) : List Char :=
  if x.isFinite then f.decimal x.shortest else f.infinity

/-- A number in this format, a minus sign before it if its sign bit is set. -/
def text (f : NumberFormat) (x : Number) : String :=
  String.ofList <|
    if x.isNaN then f.nan
    else if x.negative then '-' :: f.unsigned x
    else f.unsigned x

end NumberFormat

namespace Number

/-- Leading places from `10 ^ -4` up to below `10 ^ 16` are positional, and a whole number keeps a
zero after its point. -/
def exactFormat : NumberFormat where
  places := some (-4, 16)
  whole := ".0".toList
  infinity := "inf".toList
  nan := "nan".toList

/-- What a program prints: the exact format without the zero of whole numbers. -/
def displayFormat : NumberFormat where
  places := some (-4, 16)
  whole := []
  infinity := "Infinity".toList
  nan := "NaN".toList

/-- What stands in source text, which has no powers of ten. -/
def sourceFormat : NumberFormat where
  places := none
  whole := []
  infinity := "Infinity".toList
  nan := "NaN".toList

/-- The text that reads back, with a point or a power of ten in it. -/
def exact (x : Number) : String := exactFormat.text x

def display (x : Number) : String := displayFormat.text x

/-- The numeral in source text: a negative number is a negation in parentheses, while a negative
zero keeps its bare sign. -/
def source (x : Number) : String :=
  if x.lt zero then "(-" ++ sourceFormat.text x.neg ++ ")" else sourceFormat.text x

end Number

end LoxLang
