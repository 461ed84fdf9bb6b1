/-!
# Paths

A path is written without empty steps and without steps that stay in place; steps upwards are kept.
-/

namespace LoxLang.Cli

/-- A path: what stands in front of its steps, and the steps. -/
structure Path where
  root : String
  steps : List String
deriving DecidableEq, Repr

namespace Path

/-- The pieces of a text between slashes. -/
def pieces (piece : List Char) : List Char → List (List Char)
  | [] => [piece.reverse]
  | c :: rest => if c = '/' then piece.reverse :: pieces [] rest else pieces (c :: piece) rest

/-- What a path starts with: two slashes are kept, more are as one. -/
def rootOf : List Char → String
  | '/' :: '/' :: '/' :: _ => "/"
  | '/' :: '/' :: _ => "//"
  | '/' :: _ => "/"
  | _ => ""

def ofString (text : String) : Path where
  root := rootOf text.toList
  steps := (pieces [] text.toList).map String.ofList |>.filter fun step => step ≠ "" ∧ step ≠ "."

def toString (p : Path) : String :=
  if p.root = "" ∧ p.steps = [] then "." else p.root ++ "/".intercalate p.steps

/-- The path with a text added to its last step. -/
def extend (p : Path) (suffix : String) : Path :=
  { p with steps := p.steps.dropLast ++ [p.steps.getLastD "" ++ suffix] }

end Path

end LoxLang.Cli
