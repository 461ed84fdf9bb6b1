/-!
# Diagnostics

What is wrong with a source text, and where. A complaint is a cause; its wording is in
`Complaint.pieces` alone.
-/

namespace LoxLang

/-- What a diagnostic complains about. -/
inductive Complaint where
  | unexpectedCharacter
  | unterminatedString
  /-- Something the grammar asks for does not follow. -/
  | expected (what : String)
  | invalidTarget
  | topLevelReturn
  /-- A list of arguments or parameters is longer than the language allows. -/
  | tooMany (limit : Nat) (what : String)
deriving DecidableEq, Repr

def Complaint.pieces : Complaint → List String
  | .unexpectedCharacter => ["Unexpected character."]
  | .unterminatedString => ["Unterminated string."]
  | .expected what => ["Expect ", what, "."]
  | .invalidTarget => ["Invalid assignment target."]
  | .topLevelReturn => ["Can't return from top-level code."]
  | .tooMany limit what => ["Can't have more than ", toString limit, " ", what, "."]

def Complaint.message (c : Complaint) : String := String.join c.pieces

/-- Where in its line a diagnostic points. -/
inductive Place where
  | nowhere
  | atEnd
  | at (lexeme : String)
deriving DecidableEq, Repr

def Place.text : Place → String
  | .nowhere => ""
  | .atEnd => " at end"
  | .at lexeme => " at '" ++ lexeme ++ "'"

structure Diagnostic where
  line : Int
  place : Place
  complaint : Complaint
deriving DecidableEq, Repr

/-- The report of a diagnostic, without the end of its line. -/
def Diagnostic.text (d : Diagnostic) : String :=
  "[line " ++ toString d.line ++ "] Error" ++ d.place.text ++ ": " ++ d.complaint.message

end LoxLang
