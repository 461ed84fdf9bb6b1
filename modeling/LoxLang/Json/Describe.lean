import LoxLang.Json.Basic
import LoxLang.Text.Quoted
/-!
# JSON values in messages

A message may quote a value that stands where a name was expected. A text stands there bare, while
texts inside a list or an object are quoted.
-/

namespace LoxLang.Json

mutual

/-- A value inside a list or an object. -/
def describeInner : Json → String
  | .null => "None"
  | .bool b => if b then "True" else "False"
  | .int i => toString i
  | .num x => x.exact
  | .str s => Text.quoted s
  | .arr items => "[" ++ ", ".intercalate (describeItems items) ++ "]"
  | .obj fields => "\x7b" ++ ", ".intercalate (describeFields fields) ++ "\x7d"

def describeItems : List Json → List String
  | [] => []
  | j :: rest => describeInner j :: describeItems rest

def describeFields : List (String × Json) → List String
  | [] => []
  | (k, v) :: rest => (Text.quoted k ++ ": " ++ describeInner v) :: describeFields rest

end

def describe : Json → String
  | .str s => s
  | j => describeInner j

end LoxLang.Json
