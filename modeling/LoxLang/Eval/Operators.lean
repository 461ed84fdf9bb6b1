import LoxLang.Eval.State
/-!
# Operators

What operators do with values. Equality takes all values; addition takes two numbers or two texts;
everything else takes numbers, and that is checked before the operator is looked at further.
-/

namespace LoxLang

namespace Eval

def applyUnary (operator : Token) (right : Value) : Eval Value :=
  match operator.kind with
  | .bang => pure (.bool !right.truthy)
  | .minus =>
    match right with
    | .num x => pure (.num x.neg)
    | _ => raise operator .operandNotNumber
  | _ => raise operator (.unknownUnary operator.text)

def applyNumeric (operator : Token) (x y : Number) : Eval Value :=
  match operator.kind with
  | .minus => pure (.num (x.sub y))
  | .star => pure (.num (x.mul y))
  | .slash => pure (.num (x.div y))
  | .greater => pure (.bool (y.lt x))
  | .greaterEqual => pure (.bool (y.le x))
  | .less => pure (.bool (x.lt y))
  | .lessEqual => pure (.bool (x.le y))
  | _ => raise operator (.unknownBinary operator.text)

def applyBinary (operator : Token) (left right : Value) : Eval Value :=
  match operator.kind with
  | .equalEqual => pure (.bool (left.equal right))
  | .bangEqual => pure (.bool !left.equal right)
  | .plus =>
    match left, right with
    | .num x, .num y => pure (.num (x.add y))
    | .str s, .str t => pure (.str (s ++ t))
    | _, _ => raise operator .operandsNotAddable
  | _ =>
    match left, right with
    | .num x, .num y => applyNumeric operator x y
    | _, _ => raise operator .operandsNotNumbers

end Eval

end LoxLang
