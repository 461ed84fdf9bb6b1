import LoxLang.Number.Rounding
/-!
# The shortest decimal that reads back

A finite number is written with the fewest digits that are read as that number again, and of those
decimals with the nearest. On the grid of `n` significant digits only the two neighbours of the
number can be read back if any point can, so the search looks at the nearer neighbour and then at
the other one, grid by grid. Every accepted decimal has passed the reading test, and the exact
expansion stands behind the search, so the answer always reads back.
-/

namespace LoxLang

/-- The decimal `coefficient * 10 ^ exponent`. -/
structure Decimal where
  coefficient : Nat
  exponent : Int
deriving DecidableEq, Repr

namespace Decimal

def toNumber (d : Decimal) : Number := Number.ofDecimal d.coefficient d.exponent

/-- The same decimal without zeros at the end of its coefficient. -/
def trim (d : Decimal) : Decimal :=
  let zeros := ((Nat.toDigits 10 d.coefficient).reverse.takeWhile (· == '0')).length
  ⟨d.coefficient / Nat.pow 10 zeros, d.exponent + zeros⟩

end Decimal

/-- The place of the leading digit of a positive rational: the greatest `e` with
`10 ^ e ≤ n / d`. -/
def leadingPlace (n d : Nat) : Int :=
  if d ≤ n then (Nat.toDigits 10 (n / d)).length - 1
  else -((Nat.toDigits 10 ((d + n - 1) / n - 1)).length : Int)

namespace Number

def abs (x : Number) : Number := ofMagnitude x.magnitude

/-- The decimal `coefficient * 10 ^ place`, if it reads as the magnitude of the number. A neighbour
that is a power of ten has a zero at its end, which does not count as a digit. -/
def readsBack? (x : Number) (coefficient : Nat) (place : Int) : Option Decimal :=
  let d := Decimal.trim ⟨coefficient, place⟩
  if d.toNumber = x.abs then some d else none

/-- The neighbour of the number on the grid of multiples of `10 ^ place` that reads back, the nearer
one if both do. -/
def onGrid? (x : Number) (place : Int) : Option Decimal :=
  let (n, d) := match place with
    | .ofNat e => (x.units, unitsPerOne * Nat.pow 10 e)
    | .negSucc e => (x.units * Nat.pow 10 (e + 1), unitsPerOne)
  let nearer := roundDiv n d
  let other := if nearer = n / d then nearer + 1 else nearer - 1
  x.readsBack? nearer place <|> x.readsBack? other place

/-- The number itself, digit by digit. -/
def expansion (x : Number) : Decimal := ⟨x.units * Nat.pow 5 1074, -1074⟩

/-- The shortest decimal that reads as the magnitude of a finite number. -/
def shortest (x : Number) : Decimal :=
  if x.units = 0 then ⟨0, 0⟩
  else
    let leading := leadingPlace x.units unitsPerOne
    ((List.range 17).findSome? fun (n : Nat) => x.onGrid? (leading - n)).getD x.expansion

end Number

end LoxLang
