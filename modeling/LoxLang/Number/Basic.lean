/-!
# Numbers

A Lox number is an IEEE binary64 number. It is held as its bit pattern, so two numbers are the same
Lean value exactly when no operation can tell them apart: positive and negative zero differ, and
equality is decidable. Sign, order and equality are read off the bits in integer arithmetic; only
the four rounded operations go through the machine's floats.

The rest of the project may rely on `Number.units`: a finite number is `units` times `2 ^ (-1074)`,
with the sign bit apart.
-/

namespace LoxLang

/-- A binary64 number, given by its bit pattern. -/
structure Number where
  bits : UInt64
deriving DecidableEq, Repr

namespace Number

/-! ### Sign and size -/

/-- The value of the sign bit in a pattern. -/
def signBit : Nat := Nat.pow 2 63

/-- How many patterns a binade has. -/
def perBinade : Nat := Nat.pow 2 52

/-- The pattern of positive infinity; larger magnitudes are not numbers. -/
def infinityBits : Nat := 0x7ff0000000000000

def magnitude (x : Number) : Nat := x.bits.toNat % signBit

def negative (x : Number) : Bool := signBit ≤ x.bits.toNat

/-- The number with a clear sign bit and the given magnitude pattern. -/
def ofMagnitude (m : Nat) : Number := ⟨UInt64.ofNat m⟩

def zero : Number := ⟨0⟩

def infinity : Number := ofMagnitude infinityBits

/-- One pattern among those that are not numbers. -/
def nan : Number := ofMagnitude 0x7ff8000000000000

def isFinite (x : Number) : Bool := x.magnitude < infinityBits

def isNaN (x : Number) : Bool := infinityBits < x.magnitude

/-- Flips the sign bit, also of zeros. -/
def neg (x : Number) : Number := ⟨x.bits ^^^ 0x8000000000000000⟩

/-- The sign bit set as told, on a number that has it clear. -/
def signed (negative : Bool) (x : Number) : Number := if negative then x.neg else x

/-- Steps of `2 ^ (-1074)` in the magnitude of a finite number: from the second binade on, the
exponent field shifts the significand. -/
def units (x : Number) : Nat :=
  let m := x.magnitude
  if m < 2 * perBinade then m else (m % perBinade + perBinade) * Nat.pow 2 (m / perBinade - 1)

def unitsPerOne : Nat := Nat.pow 2 1074

/-! ### Order

A sign and a magnitude compare as one integer, so both zeros are one point of the order. -/

/-- The place of a number in the order, meaningless for what is not a number. -/
def rank (x : Number) : Int := if x.negative then -(x.magnitude : Int) else x.magnitude

/-- Whether both are numbers. -/
def comparable (x y : Number) : Bool := !x.isNaN && !y.isNaN

def eq (x y : Number) : Bool := comparable x y && x.rank == y.rank

def lt (x y : Number) : Bool := comparable x y && x.rank < y.rank

def le (x y : Number) : Bool := comparable x y && x.rank ≤ y.rank

/-! ### Rounded operations -/

private def toFloat (x : Number) : Float := Float.ofBits x.bits

private def ofFloat (x : Float) : Number := ⟨x.toBits⟩

def add (x y : Number) : Number := ofFloat (x.toFloat + y.toFloat)

def sub (x y : Number) : Number := ofFloat (x.toFloat - y.toFloat)

def mul (x y : Number) : Number := ofFloat (x.toFloat * y.toFloat)

/-- Division never fails: a zero divisor gives an infinity, or no number when the dividend is zero
too. -/
def div (x y : Number) : Number := ofFloat (x.toFloat / y.toFloat)

end Number

end LoxLang
