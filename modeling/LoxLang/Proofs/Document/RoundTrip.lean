import LoxLang.Document.Reader
import LoxLang.Document.Writer
import LoxLang.Proofs.Json.RoundTrip
import LoxLang.Value
/-!
# Stored trees read back

A tree is read from its stored form as it was, whatever stands in its places, as long as every
literal holds a bare value; a node in the place of that value is the one thing that storing forgets.
The stored form can be written and read as a text if what its tokens and literals hold can be.
-/

namespace LoxLang

theorem Kind.ofName?_name (kind : Kind) : Kind.ofName? kind.name = some kind := by
  cases kind <;> decide +kernel

theorem NodeType.ofName?_name (type : NodeType) : NodeType.ofName? type.name = some type := by
  cases type <;> decide +kernel

namespace DocumentError

variable {α β : Type}

@[simp] theorem ok_bind (a : α) (f : α → Except DocumentError β) : (Except.ok a >>= f) = f a := rfl

@[simp] theorem pure_eq_ok (a : α) : (pure a : Except DocumentError α) = .ok a := rfl

end DocumentError

namespace Token

@[simp] theorem kindOfJson_name (kind : Kind) : kindOfJson (.str kind.name) = .ok kind := by
  rw [kindOfJson, Kind.ofName?_name]

@[simp] theorem lineOfJson_int (line : Int) : lineOfJson (.int line) = .ok line := rfl

/-- A token is read back with any lexeme and literal. -/
theorem ofJson_toJson (t : Token) : Node.ofJson t.toJson = .ok (.token t) := by
  simp [Token.toJson, Node.ofJson, Node.ofFields, Json.holdsText, Json.getField?, Token.ofFields, needField,
    List.lookup_cons]

/-- The stored form of the token can be written. -/
abbrev Storable (t : Token) : Prop := t.toJson.Storable

end Token

namespace Node

/-! ### Trees by their tokens and values -/

/-- A bare value, as a literal holds it. -/
abbrev IsScalar (value : Node) : Prop := value.scalar?.isSome = true

mutual

/-- Every token satisfies `P`, and every bare value, those of literals included, satisfies `Q`. -/
def All (P : Token → Prop) (Q : Node → Prop) : Node → Prop
  | null => Q null
  | bool b => Q (bool b)
  | num x => Q (num x)
  | str s => Q (str s)
  | token t => P t
  | literal value => Q value
  | grouping inner => inner.All P Q
  | unary operator right => operator.All P Q ∧ right.All P Q
  | binary left operator right => left.All P Q ∧ operator.All P Q ∧ right.All P Q
  | logical left operator right => left.All P Q ∧ operator.All P Q ∧ right.All P Q
  | reference name => name.All P Q
  | assign name value => name.All P Q ∧ value.All P Q
  | call callee paren arguments => callee.All P Q ∧ paren.All P Q ∧ AllOf P Q arguments
  | expression value => value.All P Q
  | print value => value.All P Q
  | var name initial => name.All P Q ∧ initial.All P Q
  | block statements => AllOf P Q statements
  | branch condition yes no => condition.All P Q ∧ yes.All P Q ∧ no.All P Q
  | loop condition body => condition.All P Q ∧ body.All P Q
  | function name params body => name.All P Q ∧ AllOf P Q params ∧ AllOf P Q body
  | ret keyword value => keyword.All P Q ∧ value.All P Q

def AllOf (P : Token → Prop) (Q : Node → Prop) : List Node → Prop
  | [] => True
  | n :: rest => n.All P Q ∧ AllOf P Q rest

end

variable {P : Token → Prop} {Q : Node → Prop}

theorem allOf_iff {ns : List Node} : AllOf P Q ns ↔ ∀ n ∈ ns, n.All P Q := by
  induction ns with
  | nil => simp [AllOf]
  | cons n rest ih => simp [AllOf, ih]

/-! ### The fields of a stored node -/

section

variable (k key : String) (part : Part) (rest : List (String × Part))

theorem lookup_part : ((k, part) :: rest).lookup key = if key = k then some part else rest.lookup key := by
  by_cases h : key = k
  · rw [if_pos h, h, List.lookup_cons_self]
  · rw [if_neg h, List.lookup_cons, beq_false_of_ne h]

@[simp] theorem needNode_cons :
    needNode ((k, part) :: rest) key = if key = k then part.node else needNode rest key := by
  unfold needNode needPart
  rw [lookup_part]
  by_cases h : key = k
  · rw [if_pos h, if_pos h]
    rfl
  · rw [if_neg h, if_neg h]

@[simp] theorem needItems_cons :
    needItems ((k, part) :: rest) key = if key = k then part.items else needItems rest key := by
  unfold needItems needPart
  rw [lookup_part]
  by_cases h : key = k
  · rw [if_pos h, if_pos h]
    rfl
  · rw [if_neg h, if_neg h]

@[simp] theorem optionalNode_cons :
    optionalNode ((k, part) :: rest) key = if key = k then part.node else optionalNode rest key := by
  unfold optionalNode
  rw [lookup_part]
  by_cases h : key = k
  · rw [if_pos h, if_pos h]
  · rw [if_neg h, if_neg h]

end

@[simp] theorem partsOfJson_cons (key : String) (j : Json) (rest : List (String × Json)) :
    partsOfJson ((key, j) :: rest) = (key, ⟨ofJson j, itemsOfJson j⟩) :: partsOfJson rest := rfl

@[simp] theorem itemsOfJson_arr (items : List Json) : itemsOfJson (.arr items) = listOfJson items := rfl

/-- An object without the mark of tokens is read as its type tells. -/
theorem ofJson_object (type : NodeType) {fields : List (String × Json)}
    (h : Json.getField? fields "__type__" = none) :
    ofJson (object type fields) = ofParts type (partsOfJson (("type", .str type.name) :: fields)) := by
  have hmark : Json.getField? (("type", .str type.name) :: fields) "__type__" = none := by
    simpa [Json.getField?, List.lookup_cons] using h
  have htoken : Json.holdsText (("type", .str type.name) :: fields) "__type__" "Token" = false := by
    rw [Json.holdsText, hmark]
  have htype : typeOfJson (.str type.name) = .ok type := by rw [typeOfJson, NodeType.ofName?_name]
  rw [object, ofJson, ofFields, htoken]
  simp [Json.getField?, htype]

/-! ### Reading what was stored -/

theorem ofJson_literalToJson {value : Node} (h : value.IsScalar) :
    ofJson value.literalToJson = .ok value := by
  cases value with
  | null => rfl
  | bool b => rfl
  | num x => rfl
  | str s => rfl
  | _ => cases h

mutual

/-- A tree whose literals hold bare values is read from its stored form as it was. -/
theorem ofJson_toJson : ∀ {n : Node}, n.All P IsScalar → ofJson n.toJson = .ok n
  | null, _ | bool _, _ | num _, _ | str _, _ => rfl
  | token t, _ => t.ofJson_toJson
  | literal value, h => by
    rw [toJson, ofJson_object _ rfl]
    simp [ofParts, ofJson_literalToJson h]
  | grouping inner, h => by
    have hinner := ofJson_toJson (n := inner) h
    rw [toJson, ofJson_object _ rfl]
    simp [ofParts, hinner]
  | unary operator right, ⟨hoperator, hright⟩ => by
    rw [toJson, ofJson_object _ rfl]
    simp [ofParts, ofJson_toJson hoperator, ofJson_toJson hright]
  | binary left operator right, ⟨hleft, hoperator, hright⟩ => by
    rw [toJson, ofJson_object _ rfl]
    simp [ofParts, ofJson_toJson hleft, ofJson_toJson hoperator, ofJson_toJson hright]
  | logical left operator right, ⟨hleft, hoperator, hright⟩ => by
    rw [toJson, ofJson_object _ rfl]
    simp [ofParts, ofJson_toJson hleft, ofJson_toJson hoperator, ofJson_toJson hright]
  | reference name, h => by
    have hname := ofJson_toJson (n := name) h
    rw [toJson, ofJson_object _ rfl]
    simp [ofParts, hname]
  | assign name value, ⟨hname, hvalue⟩ => by
    rw [toJson, ofJson_object _ rfl]
    simp [ofParts, ofJson_toJson hname, ofJson_toJson hvalue]
  | call callee paren arguments, ⟨hcallee, hparen, harguments⟩ => by
    rw [toJson, ofJson_object _ rfl]
    simp [ofParts, ofJson_toJson hcallee, ofJson_toJson hparen, listOfJson_toJsonList harguments]
  | expression value, h => by
    have hvalue := ofJson_toJson (n := value) h
    rw [toJson, ofJson_object _ rfl]
    simp [ofParts, hvalue]
  | print value, h => by
    have hvalue := ofJson_toJson (n := value) h
    rw [toJson, ofJson_object _ rfl]
    simp [ofParts, hvalue]
  | var name initial, ⟨hname, hinitial⟩ => by
    rw [toJson, ofJson_object _ rfl]
    simp [ofParts, ofJson_toJson hname, ofJson_toJson hinitial]
  | block statements, h => by
    have hstatements : listOfJson (toJsonList statements) = .ok statements := listOfJson_toJsonList h
    rw [toJson, ofJson_object _ rfl]
    simp [ofParts, hstatements]
  | branch condition yes no, ⟨hcondition, hyes, hno⟩ => by
    rw [toJson, ofJson_object _ rfl]
    simp [ofParts, ofJson_toJson hcondition, ofJson_toJson hyes, ofJson_toJson hno]
  | loop condition body, ⟨hcondition, hbody⟩ => by
    rw [toJson, ofJson_object _ rfl]
    simp [ofParts, ofJson_toJson hcondition, ofJson_toJson hbody]
  | function name params body, ⟨hname, hparams, hbody⟩ => by
    rw [toJson, ofJson_object _ rfl]
    simp [ofParts, ofJson_toJson hname, listOfJson_toJsonList hparams, listOfJson_toJsonList hbody]
  | ret keyword value, ⟨hkeyword, hvalue⟩ => by
    rw [toJson, ofJson_object _ rfl]
    simp [ofParts, ofJson_toJson hkeyword, ofJson_toJson hvalue]

theorem listOfJson_toJsonList : ∀ {ns : List Node}, AllOf P IsScalar ns → listOfJson (toJsonList ns) = .ok ns
  | [], _ => rfl
  | n :: rest, ⟨hn, hrest⟩ => by
    simp [toJsonList, listOfJson, ofJson_toJson hn, listOfJson_toJsonList hrest]

end

/-- The statements of a program are read back one by one. -/
theorem programOfJson_programToJson {statements : List Node} (h : AllOf P IsScalar statements) :
    programOfJson (programToJson statements) = .ok statements := by
  simp [programToJson, programOfJson, Json.holdsText, Json.getField?, listOfJson_toJsonList h]

/-! ### Stored forms that can be written -/

theorem storable_object (type : NodeType) {fields : List (String × Json)}
    (hkeys : ("type" :: fields.map Prod.fst).Nodup) (h : ∀ field ∈ fields, Json.Storable field.2) :
    Json.Storable (object type fields) :=
  .obj hkeys (List.forall_mem_cons.mpr ⟨.str _, h⟩)

/-- The stored form of a literal's value can be written. -/
abbrev StorableValue (value : Node) : Prop := value.literalToJson.Storable

mutual

theorem storable_toJson : ∀ {n : Node}, n.All Token.Storable StorableValue → n.toJson.Storable
  | null, h | bool _, h | num _, h | str _, h => h
  | token _, h => h
  | literal value, h => by
    have hvalue : value.StorableValue := h
    exact storable_object _ (by simp) (by simp [hvalue])
  | grouping inner, h => by
    have hinner := storable_toJson (n := inner) h
    exact storable_object _ (by simp) (by simp [hinner])
  | unary operator right, ⟨hoperator, hright⟩ =>
    storable_object _ (by simp) (by simp [storable_toJson hoperator, storable_toJson hright])
  | binary left operator right, ⟨hleft, hoperator, hright⟩ =>
    storable_object _ (by simp)
      (by simp [storable_toJson hleft, storable_toJson hoperator, storable_toJson hright])
  | logical left operator right, ⟨hleft, hoperator, hright⟩ =>
    storable_object _ (by simp)
      (by simp [storable_toJson hleft, storable_toJson hoperator, storable_toJson hright])
  | reference name, h => by
    have hname := storable_toJson (n := name) h
    exact storable_object _ (by simp) (by simp [hname])
  | assign name value, ⟨hname, hvalue⟩ =>
    storable_object _ (by simp) (by simp [storable_toJson hname, storable_toJson hvalue])
  | call callee paren arguments, ⟨hcallee, hparen, harguments⟩ =>
    storable_object _ (by simp) (by
      simp [storable_toJson hcallee, storable_toJson hparen, storable_toJsonList harguments])
  | expression value, h => by
    have hvalue := storable_toJson (n := value) h
    exact storable_object _ (by simp) (by simp [hvalue])
  | print value, h => by
    have hvalue := storable_toJson (n := value) h
    exact storable_object _ (by simp) (by simp [hvalue])
  | var name initial, ⟨hname, hinitial⟩ =>
    storable_object _ (by simp) (by simp [storable_toJson hname, storable_toJson hinitial])
  | block statements, h => by
    have hstatements : Json.Storable (.arr (toJsonList statements)) := storable_toJsonList h
    exact storable_object _ (by simp) (by simp [hstatements])
  | branch condition yes no, ⟨hcondition, hyes, hno⟩ =>
    storable_object _ (by simp)
      (by simp [storable_toJson hcondition, storable_toJson hyes, storable_toJson hno])
  | loop condition body, ⟨hcondition, hbody⟩ =>
    storable_object _ (by simp) (by simp [storable_toJson hcondition, storable_toJson hbody])
  | function name params body, ⟨hname, hparams, hbody⟩ =>
    storable_object _ (by simp) (by
      simp [storable_toJson hname, storable_toJsonList hparams, storable_toJsonList hbody])
  | ret keyword value, ⟨hkeyword, hvalue⟩ =>
    storable_object _ (by simp) (by simp [storable_toJson hkeyword, storable_toJson hvalue])

/-- A list can be written if its trees can. -/
theorem storable_toJsonList : ∀ {ns : List Node}, AllOf Token.Storable StorableValue ns →
    Json.Storable (.arr (toJsonList ns))
  | [], _ => .arr nofun
  | n :: rest, ⟨hn, hrest⟩ => by
    have hitems : ∀ j ∈ toJsonList rest, j.Storable := by
      cases storable_toJsonList hrest with
      | arr h => exact h
    exact .arr (List.forall_mem_cons.mpr ⟨storable_toJson hn, hitems⟩)

end

theorem storable_programToJson {statements : List Node} (h : AllOf Token.Storable StorableValue statements) :
    (programToJson statements).Storable := by
  have hbody := storable_toJsonList h
  exact .obj (by simp) (by simp [hbody, Json.Storable.str])

end Node

end LoxLang
