import LoxLang.Number.Basic
/-!
# The nearest number

Reading a numeral is one exact division: the rational it denotes is measured in the steps of its
binade and rounded to the nearest step, a tie to the even one. The bit pattern of a finite number is
its count of steps plus `perBinade` for every binade below it, so a carry out of a binade needs no case
of its own, and everything past the largest number is infinity.
-/

namespace LoxLang

/-- The integer nearest to `n / d`, a tie going to the even one. -/
def roundDiv (n d : Nat) : Nat :=
  let q := n / d
  let r := n % d
  if 2 * r < d then q else if d < 2 * r then q + 1 else q + q % 2

namespace Number

/-- Binades between the lowest one and the one that holds `n` steps divided by `d`. -/
def binade (n d : Nat) : Nat := Nat.log2 (n / d) - 52

/-- The pattern of `n` steps divided by `d`, counted in the coarser steps of its binade. -/
def nearestPattern (n d : Nat) : Nat :=
  binade n d * perBinade + roundDiv n (d * Nat.pow 2 (binade n d))

/-- The number nearest to the rational `n / d`. -/
def ofRatio (n d : Nat) : Number :=
  ofMagnitude (min (nearestPattern (n * unitsPerOne) d) infinityBits)

/-- The number nearest to `coefficient * 10 ^ exponent`. -/
def ofDecimal (coefficient : Nat) (exponent : Int) : Number :=
  match exponent with
  | .ofNat e => ofRatio (coefficient * Nat.pow 10 e) 1
  | .negSucc e => ofRatio coefficient (Nat.pow 10 (e + 1))

/-- As `ofDecimal`, without working out powers of ten that are far outside the range of numbers:
beyond five thousand places every numeral is infinity or zero. -/
def ofScientific (coefficient : Nat) (exponent : Int) : Number :=
  let leading := (Nat.toDigits 10 coefficient).length + exponent
  if coefficient = 0 then zero
  else if 5000 < leading then infinity
  else if leading < -5000 then zero
  else ofDecimal coefficient exponent

/-- The number nearest to an integer. -/
def ofInt (i : Int) : Number := signed (i < 0) (ofRatio i.natAbs 1)

end Number

end LoxLang
