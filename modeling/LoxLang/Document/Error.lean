import LoxLang.Json.Describe
/-!
# Errors of documents

Why a stored document does not hold a program. An error is a cause; its wording inside a longer
message is in `DocumentError.pieces` alone.
-/

namespace LoxLang

inductive DocumentError where
  | notProgram
  | missing (key : String)
  /-- The type of a token is not the name of a kind. -/
  | unknownKind (name : Json)
  /-- The type of a token is a list or an object. -/
  | kindNotName (typeName : String)
  | unknownType (name : Json)
  /-- A list stands where a node was expected. -/
  | notNode
  /-- Something without items stands where a list was expected. -/
  | notList (typeName : String)
  /-- An integer is too large for a number. -/
  | largeInteger
  | lineText (text : String)
  /-- The line of a token is a text of more digits than are read. -/
  | lineDigits (count : Nat)
  | lineType (typeName : String)
  | lineNaN
  | lineInfinite

namespace Json

def typeName : Json → String
  | .null => "NoneType"
  | .bool _ => "bool"
  | .int _ => "int"
  | .num _ => "float"
  | .str _ => "str"
  | .arr _ => "list"
  | .obj _ => "dict"

end Json

namespace DocumentError

/-- How much of a quoted text an error about a line shows. -/
def quoteLimit : Nat := 200

def pieces : DocumentError → List String
  | notProgram => ["Expected a Program object"]
  | missing key => [Text.quoted key]
  | unknownKind name => [name.describeInner]
  | kindNotName typeName => ["unhashable type: '", typeName, "'"]
  | unknownType name => ["Unknown AST node type: ", name.describe]
  | notNode => ["Invalid AST object"]
  | notList typeName => ["'", typeName, "' object is not iterable"]
  | largeInteger => ["int too large to convert to float"]
  | lineText text => ["invalid literal for int() with base 10: ", Text.quotedWithin quoteLimit text]
  | lineDigits count =>
    ["Exceeds the limit (", toString integerDigits,
      " digits) for integer string conversion: value has ", toString count,
      " digits; use sys.set_int_max_str_digits() to increase the limit"]
  | lineType typeName =>
    ["int() argument must be a string, a bytes-like object or a real number, not '", typeName, "'"]
  | lineNaN => ["cannot convert float NaN to integer"]
  | lineInfinite => ["cannot convert float infinity to integer"]

def message (e : DocumentError) : String := String.join e.pieces

end DocumentError

end LoxLang
