import LoxLang.Number.Text
/-!
# JSON values

Programs are stored as JSON documents. Integers and decimals are different values, as a document
may hold an integer that is too large for a number. The fields of an object stand in the order of
their first appearance, and `putField` keeps one field per key.
-/

namespace LoxLang

/-- The most digits an integer may be written with. -/
def integerDigits : Nat := 4300

inductive Json where
  | null
  | bool (b : Bool)
  | int (i : Int)
  | num (x : Number)
  | str (s : String)
  | arr (items : List Json)
  | obj (fields : List (String × Json))

namespace Json

def getField? (fields : List (String × Json)) (key : String) : Option Json := fields.lookup key

/-- Whether a given text is stored under a key. -/
def holdsText (fields : List (String × Json)) (key text : String) : Bool :=
  match getField? fields key with
  | some (.str s) => s == text
  | _ => false

/-- Sets a key: a new one goes to the end, a known one keeps its place. -/
def putField (key : String) (value : Json) : List (String × Json) → List (String × Json)
  | [] => [(key, value)]
  | (k, v) :: rest => if k = key then (key, value) :: rest else (k, v) :: putField key value rest

end Json

end LoxLang
