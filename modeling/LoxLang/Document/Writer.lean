import LoxLang.Node.Basic
/-!
# Storing trees

A node is stored as an object whose `type` names its kind, with one field for every part; a token is
an object whose `__type__` is `Token`. Bare values are stored as they are.
-/

namespace LoxLang

namespace Token

def toJson (t : Token) : Json :=
  .obj [("__type__", .str "Token"), ("type", .str t.kind.name), ("lexeme", t.lexeme),
    ("literal", t.literal), ("line", .int t.line)]

end Token

namespace Node

def object (type : NodeType) (fields : List (String × Json)) : Json :=
  .obj (("type", .str type.name) :: fields)

/-- A literal value as it is stored. A node in its place has no stored form of its own and leaves
the name of its kind. -/
def literalToJson : Node → Json
  | null => .null
  | bool b => .bool b
  | num x => .num x
  | str s => .str s
  | other => .obj [("node", .str other.typeName)]

mutual

def toJson : Node → Json
  | null => .null
  | bool b => .bool b
  | num x => .num x
  | str s => .str s
  | token t => t.toJson
  | literal value => object .literal [("value", value.literalToJson)]
  | grouping inner => object .grouping [("expression", inner.toJson)]
  | unary operator right =>
    object .unary [("operator", operator.toJson), ("right", right.toJson)]
  | binary left operator right =>
    object .binary [("left", left.toJson), ("operator", operator.toJson),
      ("right", right.toJson)]
  | logical left operator right =>
    object .logical [("left", left.toJson), ("operator", operator.toJson),
      ("right", right.toJson)]
  | reference name => object .reference [("name", name.toJson)]
  | assign name value =>
    object .assign [("name", name.toJson), ("value", value.toJson)]
  | call callee paren arguments =>
    object .call [("callee", callee.toJson), ("paren", paren.toJson),
      ("arguments", .arr (toJsonList arguments))]
  | expression value => object .expression [("expression", value.toJson)]
  | print value => object .print [("expression", value.toJson)]
  | var name initial =>
    object .var [("name", name.toJson), ("initializer", initial.toJson)]
  | block statements => object .block [("statements", .arr (toJsonList statements))]
  | branch condition yes no =>
    object .branch [("condition", condition.toJson), ("then_branch", yes.toJson),
      ("else_branch", no.toJson)]
  | loop condition body =>
    object .loop [("condition", condition.toJson), ("body", body.toJson)]
  | function name params body =>
    object .function [("name", name.toJson), ("params", .arr (toJsonList params)),
      ("body", .arr (toJsonList body))]
  | ret keyword value =>
    object .ret [("keyword", keyword.toJson), ("value", value.toJson)]

def toJsonList : List Node → List Json
  | [] => []
  | n :: rest => n.toJson :: toJsonList rest

end

def programToJson (statements : List Node) : Json :=
  .obj [("type", .str "Program"), ("body", .arr (toJsonList statements))]

end Node

end LoxLang
