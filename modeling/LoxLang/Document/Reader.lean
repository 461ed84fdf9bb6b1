import LoxLang.Document.Error
import LoxLang.Node.Basic
import LoxLang.Text.Integer
/-!
# Reading stored trees

Reading a document back is strict about the fields that a kind of node needs and about nothing else:
any value may stand in any field, fields that a kind does not know are passed over, and where a list
is asked for, a text stands for the list of its characters and an object for the list of its keys.
The parts of a node are read in the order they are written, so of two mistakes the first one is
reported.

Every field of an object is read before the kind of the object is looked at. That keeps the recursion
on the document itself; a field that the kind does not ask for has no influence on the result.
-/

namespace LoxLang

namespace Number

/-- The integer part of a finite number. -/
def truncate (x : Number) : Int :=
  let whole : Int := x.units / unitsPerOne
  if x.negative then -whole else whole

end Number

/-! ### Tokens -/

namespace Token

def lineOfJson : Json → Except DocumentError Int
  | .int i => .ok i
  | .bool b => .ok (if b then 1 else 0)
  | .num x =>
    if x.isNaN then .error .lineNaN
    else if x.isFinite then .ok x.truncate
    else .error .lineInfinite
  | .str s =>
    match Text.readInteger integerDigits s.toList with
    | .ok i => .ok i
    | .error .malformed => .error (.lineText s)
    | .error (.long digits) => .error (.lineDigits digits)
  | j => .error (.lineType j.typeName)

def kindOfJson : Json → Except DocumentError Kind
  | .str s =>
    match Kind.ofName? s with
    | some kind => .ok kind
    | none => .error (.unknownKind (.str s))
  | .arr items => .error (.kindNotName (Json.arr items).typeName)
  | .obj fields => .error (.kindNotName (Json.obj fields).typeName)
  | j => .error (.unknownKind j)

def needField (fields : List (String × Json)) (key : String) : Except DocumentError Json :=
  match Json.getField? fields key with
  | some j => .ok j
  | none => .error (.missing key)

def ofFields (fields : List (String × Json)) : Except DocumentError Token := do
  let kind ← kindOfJson (← needField fields "type")
  let lexeme ← needField fields "lexeme"
  let line ← lineOfJson (← needField fields "line")
  return ⟨kind, lexeme, (Json.getField? fields "literal").getD .null, line⟩

end Token

/-! ### Nodes -/

namespace Node

/-- What a field holds, read as a node and as a list of nodes. -/
structure Part where
  node : Except DocumentError Node
  items : Except DocumentError (List Node)

def needPart (parts : List (String × Part)) (key : String) : Except DocumentError Part :=
  match parts.lookup key with
  | some part => .ok part
  | none => .error (.missing key)

def needNode (parts : List (String × Part)) (key : String) : Except DocumentError Node := do
  (← needPart parts key).node

def needItems (parts : List (String × Part)) (key : String) : Except DocumentError (List Node) := do
  (← needPart parts key).items

def optionalNode (parts : List (String × Part)) (key : String) : Except DocumentError Node :=
  match parts.lookup key with
  | some part => part.node
  | none => .ok null

def ofParts (type : NodeType) (parts : List (String × Part)) : Except DocumentError Node :=
  match type with
  | .literal => do return literal (← optionalNode parts "value")
  | .grouping => do return grouping (← needNode parts "expression")
  | .unary => do return unary (← needNode parts "operator") (← needNode parts "right")
  | .binary => do
    return binary (← needNode parts "left") (← needNode parts "operator") (← needNode parts "right")
  | .logical => do
    return logical (← needNode parts "left") (← needNode parts "operator") (← needNode parts "right")
  | .reference => do return reference (← needNode parts "name")
  | .assign => do return assign (← needNode parts "name") (← needNode parts "value")
  | .call => do
    return call (← needNode parts "callee") (← needNode parts "paren") (← needItems parts "arguments")
  | .expression => do return expression (← needNode parts "expression")
  | .print => do return print (← needNode parts "expression")
  | .var => do return var (← needNode parts "name") (← optionalNode parts "initializer")
  | .block => do return block (← needItems parts "statements")
  | .branch => do
    return branch (← needNode parts "condition") (← needNode parts "then_branch")
      (← optionalNode parts "else_branch")
  | .loop => do return loop (← needNode parts "condition") (← needNode parts "body")
  | .function => do
    return function (← needNode parts "name") (← needItems parts "params") (← needItems parts "body")
  | .ret => do return ret (← needNode parts "keyword") (← optionalNode parts "value")

def typeOfJson : Json → Except DocumentError NodeType
  | .str s =>
    match NodeType.ofName? s with
    | some type => .ok type
    | none => .error (.unknownType (.str s))
  | j => .error (.unknownType j)

def ofFields (fields : List (String × Json)) (parts : List (String × Part)) :
    Except DocumentError Node :=
  if Json.holdsText fields "__type__" "Token" then do return token (← Token.ofFields fields)
  else do ofParts (← typeOfJson ((Json.getField? fields "type").getD .null)) parts

/-- The number of an integer, if there is a finite one. -/
def ofInteger (i : Int) : Except DocumentError Node :=
  if (Number.ofInt i).isFinite then .ok (num (Number.ofInt i)) else .error .largeInteger

mutual

def ofJson : Json → Except DocumentError Node
  | .null => .ok null
  | .bool b => .ok (bool b)
  | .int i => ofInteger i
  | .num x => .ok (num x)
  | .str s => .ok (str s)
  | .arr _ => .error .notNode
  | .obj fields => ofFields fields (partsOfJson fields)

/-- The trees that a document holds where a list is asked for. -/
def itemsOfJson : Json → Except DocumentError (List Node)
  | .arr items => listOfJson items
  | .str s => .ok (s.toList.map fun c => str (String.singleton c))
  | .obj fields => .ok (fields.map fun field => str field.1)
  | .null => .error (.notList Json.null.typeName)
  | .bool b => .error (.notList (Json.bool b).typeName)
  | .int i => .error (.notList (Json.int i).typeName)
  | .num x => .error (.notList (Json.num x).typeName)

def listOfJson : List Json → Except DocumentError (List Node)
  | [] => .ok []
  | j :: rest => do
    let first ← ofJson j
    let rest ← listOfJson rest
    return first :: rest

def partsOfJson : List (String × Json) → List (String × Part)
  | [] => []
  | (key, j) :: rest => (key, ⟨ofJson j, itemsOfJson j⟩) :: partsOfJson rest

end

def programOfJson : Json → Except DocumentError (List Node)
  | .obj fields =>
    if Json.holdsText fields "type" "Program" then needItems (partsOfJson fields) "body"
    else .error .notProgram
  | _ => .error .notProgram

end Node

end LoxLang
