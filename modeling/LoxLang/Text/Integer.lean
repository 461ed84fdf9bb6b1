/-!
# Integers in text

The integer a text denotes: decimal digits, single underscores between them, a sign before them and
blanks around them.
-/

namespace LoxLang.Text

/-- The blanks that may stand around an integer. -/
def isSpace (c : Char) : Bool :=
  let n := c.toNat
  (0x09 ≤ n && n ≤ 0x0d) || n == 0x20 || n == 0x85 || n == 0xa0 || n == 0x1680 ||
    (0x2000 ≤ n && n ≤ 0x200a) || n == 0x2028 || n == 0x2029 || n == 0x202f || n == 0x205f ||
    n == 0x3000

/-- The zeros of all decimal digits; the other nine follow each of them. -/
def digitZeros : List Nat :=
  [0x30, 0x660, 0x6f0, 0x7c0, 0x966, 0x9e6, 0xa66, 0xae6, 0xb66, 0xbe6, 0xc66, 0xce6, 0xd66, 0xde6,
   0xe50, 0xed0, 0xf20, 0x1040, 0x1090, 0x17e0, 0x1810, 0x1946, 0x19d0, 0x1a80, 0x1a90, 0x1b50,
   0x1bb0, 0x1c40, 0x1c50, 0xa620, 0xa8d0, 0xa900, 0xa9d0, 0xa9f0, 0xaa50, 0xabf0, 0xff10, 0x104a0,
   0x10d30, 0x11066, 0x110f0, 0x11136, 0x111d0, 0x112f0, 0x11450, 0x114d0, 0x11650, 0x116c0,
   0x11730, 0x118e0, 0x11950, 0x11c50, 0x11d50, 0x11da0, 0x16a60, 0x16ac0, 0x16b50, 0x1d7ce,
   0x1d7d8, 0x1d7e2, 0x1d7ec, 0x1d7f6, 0x1e140, 0x1e2f0, 0x1e950, 0x1fbf0]

/-- The value of a decimal digit of any script. -/
def digitValue? (c : Char) : Option Nat :=
  (digitZeros.find? fun first => first ≤ c.toNat && c.toNat < first + 10).map fun first =>
    c.toNat - first

def isDecimal (c : Char) : Bool := (digitValue? c).isSome

/-- The value of digits that may have single underscores between them, behind others of the given
value. -/
def digitsValue? (value : Nat) : List Char → Option Nat
  | [] => none
  | [c] => (digitValue? c).map fun digit => 10 * value + digit
  | c :: '_' :: rest => do digitsValue? (10 * value + (← digitValue? c)) rest
  | c :: rest => do digitsValue? (10 * value + (← digitValue? c)) rest

/-- The sign before an integer, whether it is a minus, and what follows it. -/
def takeSign : List Char → Bool × List Char
  | '-' :: rest => (true, rest)
  | '+' :: rest => (false, rest)
  | rest => (false, rest)

/-- Why a text denotes no integer. -/
inductive IntegerError where
  | malformed
  /-- The digits are more than are read, whatever follows them. -/
  | long (digits : Nat)
deriving DecidableEq, Repr

/-- The integer of at most `limit` digits that a text denotes. -/
def readInteger (limit : Nat) (cs : List Char) : Except IntegerError Int :=
  let (negative, body) := takeSign (cs.dropWhile isSpace)
  let digits := body.takeWhile fun c => isDecimal c || c == '_'
  match digitsValue? 0 digits with
  | none => .error .malformed
  | some n =>
    if limit < digits.countP isDecimal then .error (.long (digits.countP isDecimal))
    else if (body.drop digits.length).all isSpace then .ok (if negative then -(n : Int) else n)
    else .error .malformed

end LoxLang.Text
