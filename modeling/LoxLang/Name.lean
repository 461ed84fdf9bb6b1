import LoxLang.Json.Basic
/-!
# Names

Scopes bind names. A token of a source text has a text for its name; a stored token may have any bare
value there. Bare values make the same name when nothing tells them apart: numbers, integers and
truth values count by their size alone, a truth value as one or zero.
-/

namespace LoxLang

/-- What a bare value is told apart by. -/
inductive Name where
  | text (s : String)
  | null
  /-- A size in steps of `2 ^ (-1074)`. -/
  | size (steps : Int)
  /-- A number that is not finite. -/
  | special (x : Number)
deriving DecidableEq, Repr

instance : Coe String Name := ⟨Name.text⟩

/-- The name as a text, if it is one. -/
def Name.text? : Name → Option String
  | .text s => some s
  | _ => none

namespace Number

/-- The steps of a finite number with their sign. -/
def steps (x : Number) : Int := if x.negative then -(x.units : Int) else x.units

end Number

namespace Json

/-- The name that a bare value makes; lists and objects make none. -/
def name? : Json → Option Name
  | .null => some .null
  | .bool b => some (.size (if b then Number.unitsPerOne else 0))
  | .int i => some (.size (i * Number.unitsPerOne))
  | .num x => some (if x.isFinite then .size x.steps else .special x)
  | .str s => some (.text s)
  | .arr _ | .obj _ => none

/-- Whether two bare values make the same name. -/
def sameScalar (a b : Json) : Bool :=
  match a.name?, b.name? with
  | some m, some n => m == n
  | _, _ => false

end Json

end LoxLang
