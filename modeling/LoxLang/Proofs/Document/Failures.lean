import LoxLang.Document.Reader
import LoxLang.Proofs.Json.RoundTrip
/-!
# Why a document is not read

Every error of reading has its cause in the document. Where a number does not fit, the document holds one that is too
large, in a place where it is read as a node or as the line of a token. And every error can be told in one line: whatever it
quotes is written with escapes, but for the name of an unknown type, which is shown as it stands.
-/

namespace LoxLang

/-! ### Texts of one line -/

/-- A text without a line break. -/
def OneLine (text : String) : Prop := '\n' ∉ text.toList

instance (text : String) : Decidable (OneLine text) := inferInstanceAs (Decidable ('\n' ∉ text.toList))

namespace OneLine

theorem join {texts : List String} (h : ∀ text ∈ texts, OneLine text) : OneLine (String.join texts) := by
  rw [OneLine, String.toList_join, List.mem_flatMap]
  rintro ⟨text, htext, hmem⟩
  exact h text htext hmem

theorem append {s t : String} (hs : OneLine s) (ht : OneLine t) : OneLine (s ++ t) := by
  rw [OneLine, String.toList_append, List.mem_append]
  exact not_or.mpr ⟨hs, ht⟩

theorem intercalate {separator : String} (hseparator : OneLine separator) :
    ∀ {texts : List String}, (∀ text ∈ texts, OneLine text) → OneLine (separator.intercalate texts)
  | [], _ => by
    rw [String.intercalate_nil]
    decide
  | [text], h => by
    rw [String.intercalate_singleton]
    exact h text (.head _)
  | text :: next :: rest, h => by
    obtain ⟨htext, hrest⟩ := List.forall_mem_cons.mp h
    rw [String.intercalate_cons_cons]
    exact (htext.append hseparator).append (intercalate hseparator hrest)

theorem natural (n : Nat) : OneLine (toString n) :=
  Json.control_not_mem_integer (by decide) (n : Int)

end OneLine

namespace Text

theorem newline_not_mem_hexDigits (width code : Nat) : '\n' ∉ hexDigits width code := by
  have hdigit : ∀ n < 16, '\n' ≠ Nat.digitChar n := by decide
  induction width generalizing code with
  | zero => simp [hexDigits]
  | succ width ih => simp [hexDigits, ih, hdigit _ (Nat.mod_lt code (by decide))]

theorem newline_not_mem_quotedChar {quote : Char} (hquote : quote ≠ '\n') (c : Char) : '\n' ∉ quotedChar quote c := by
  unfold quotedChar
  split
  next h =>
    have hc : c ≠ '\n' := by
      rintro rfl
      simp [hquote.symm] at h
    simp [hc.symm]
  next =>
    split
    · decide
    next hc =>
      iterate 2
        split
        · decide
      split
      · unfold codeEscape
        split
        · simp [newline_not_mem_hexDigits]
        split <;> simp [newline_not_mem_hexDigits]
      · rw [List.mem_singleton]
        rintro rfl
        exact hc rfl

theorem oneLine_quoted (s : String) : OneLine (quoted s) := by
  have hquote : quoteFor s.toList ≠ '\n' := by
    unfold quoteFor
    split <;> decide
  simp only [OneLine, quoted, String.toList_ofList, List.mem_append, List.mem_flatMap, List.mem_singleton]
  rintro ((h | ⟨c, -, h⟩) | h)
  · exact hquote h.symm
  · exact newline_not_mem_quotedChar hquote c h
  · exact hquote h.symm

theorem oneLine_quotedWithin (limit : Nat) (s : String) : OneLine (quotedWithin limit s) := by
  rw [OneLine, quotedWithin, String.toList_ofList]
  exact fun h => oneLine_quoted s (List.mem_of_mem_take h)

end Text

namespace Json

mutual

theorem oneLine_describeInner : ∀ j : Json, OneLine j.describeInner
  | .null => by decide
  | .bool b => by cases b <;> decide
  | .int i => control_not_mem_integer (by decide) i
  | .num x => control_not_mem_number (by decide) (by decide +kernel) (by decide +kernel) (by decide +kernel) x
  | .str s => Text.oneLine_quoted s
  | .arr items => by
    have hitems : OneLine (", ".intercalate (describeItems items)) := .intercalate (by decide) (oneLine_describeItems items)
    exact OneLine.append (.append (by decide) hitems) (by decide)
  | .obj fields => by
    have hfields : OneLine (", ".intercalate (describeFields fields)) :=
      .intercalate (by decide) (oneLine_describeFields fields)
    exact OneLine.append (.append (by decide) hfields) (by decide)

theorem oneLine_describeItems : ∀ (items : List Json), ∀ text ∈ describeItems items, OneLine text
  | [] => nofun
  | j :: rest => List.forall_mem_cons.mpr ⟨oneLine_describeInner j, oneLine_describeItems rest⟩

theorem oneLine_describeFields : ∀ (fields : List (String × Json)), ∀ text ∈ describeFields fields, OneLine text
  | [] => nofun
  | (k, v) :: rest =>
    List.forall_mem_cons.mpr
      ⟨((Text.oneLine_quoted k).append (by decide)).append (oneLine_describeInner v), oneLine_describeFields rest⟩

end

theorem oneLine_typeName (j : Json) : OneLine j.typeName := by
  cases j <;> simp only [typeName] <;> decide

end Json

/-! ### Causes -/

namespace DocumentError

variable {α β : Type}

/-- The errors about numbers that do not fit where they are read. -/
def isOverflow : DocumentError → Bool
  | .largeInteger | .lineInfinite => true
  | _ => false

theorem bind_eq_error {r : Except DocumentError α} {f : α → Except DocumentError β} {e : DocumentError} :
    (r >>= f) = .error e ↔ r = .error e ∨ ∃ a, r = .ok a ∧ f a = .error e := by
  cases r with
  | ok a =>
    constructor
    · exact fun h => .inr ⟨a, rfl, h⟩
    · rintro (⟨⟨⟩⟩ | ⟨b, hb, h⟩)
      cases hb
      exact h
  | error e' =>
    constructor
    · intro h
      cases h
      exact .inl rfl
    · rintro (h | ⟨b, ⟨⟩, -⟩)
      cases h
      rfl

end DocumentError

open DocumentError (bind_eq_error)

namespace Json

/-- A number that is too large for its place: an integer where a node is read, or an infinite line of a token. The fields of
a token are not read as nodes. -/
inductive Oversized : Json → Prop
  | integer {i : Int} (h : (Number.ofInt i).isFinite = false) : Oversized (.int i)
  | line {fields : List (String × Json)} {x : Number} (htoken : holdsText fields "__type__" "Token" = true)
      (hline : getField? fields "line" = some (.num x)) (hnan : x.isNaN = false) (hinfinite : x.isFinite = false) :
      Oversized (.obj fields)
  | item {items : List Json} {j : Json} (hmem : j ∈ items) (h : Oversized j) : Oversized (.arr items)
  | field {fields : List (String × Json)} {key : String} {j : Json} (hmem : (key, j) ∈ fields)
      (htoken : holdsText fields "__type__" "Token" = false) (h : Oversized j) : Oversized (.obj fields)

/-- What is known of an error from the document that it is about. -/
structure Explains (j : Json) (e : DocumentError) : Prop where
  oversized : e.isOverflow = true → j.Oversized
  oneLine : OneLine e.message ∨ ∃ text, e = .unknownType (.str text)

theorem Explains.ofPieces {j : Json} {e : DocumentError} (hfits : e.isOverflow = false)
    (h : ∀ piece ∈ e.pieces, OneLine piece) : j.Explains e :=
  ⟨fun hoverflow => absurd hoverflow (by simp [hfits]), .inl (.join h)⟩

theorem Explains.item {items : List Json} {j : Json} {e : DocumentError} (h : j.Explains e) (hmem : j ∈ items) :
    (Json.arr items).Explains e := ⟨fun hoverflow => .item hmem (h.oversized hoverflow), h.oneLine⟩

theorem Explains.field {fields : List (String × Json)} {key : String} {j : Json} {e : DocumentError} (h : j.Explains e)
    (hmem : (key, j) ∈ fields) (htoken : holdsText fields "__type__" "Token" = false) : (Json.obj fields).Explains e :=
  ⟨fun hoverflow => .field hmem htoken (h.oversized hoverflow), h.oneLine⟩

theorem explains_missing (j : Json) (key : String) : j.Explains (.missing key) :=
  .ofPieces rfl (by simpa [DocumentError.pieces] using Text.oneLine_quoted key)

end Json

open Json (Explains)

/-! ### Tokens -/

namespace Token

variable {fields : List (String × Json)} {e : DocumentError}

theorem needField_error {key : String} (h : needField fields key = .error e) : e = .missing key := by
  unfold needField at h
  split at h
  · cases h
  · cases h
    rfl

theorem explains_of_kindOfJson {j kind : Json} (h : kindOfJson kind = .error e) : j.Explains e := by
  have hdescribed : ∀ name : Json, j.Explains (.unknownKind name) := fun name =>
    .ofPieces rfl (by simpa [DocumentError.pieces] using name.oneLine_describeInner)
  have hunhashable : ∀ other : Json, j.Explains (.kindNotName other.typeName) := fun other =>
    .ofPieces rfl (by simpa [DocumentError.pieces] using ⟨by decide, other.oneLine_typeName, by decide⟩)
  unfold kindOfJson at h
  split at h
  · split at h
    · cases h
    · cases h
      exact hdescribed _
  · cases h
    exact hunhashable _
  · cases h
    exact hunhashable _
  · cases h
    exact hdescribed _

theorem explains_of_lineOfJson {line : Json} (htoken : Json.holdsText fields "__type__" "Token" = true)
    (hline : Json.getField? fields "line" = some line) (h : lineOfJson line = .error e) : (Json.obj fields).Explains e := by
  unfold lineOfJson at h
  split at h
  · cases h
  · cases h
  next x =>
    split at h
    · cases h
      exact .ofPieces rfl (by decide)
    next hnan =>
      split at h
      · cases h
      next hinfinite =>
        cases h
        exact ⟨fun _ => .line htoken hline (by simpa using hnan) (by simpa using hinfinite), .inl (by decide)⟩
  next s =>
    split at h
    · cases h
    · cases h
      exact .ofPieces rfl (by simpa [DocumentError.pieces] using ⟨by decide, Text.oneLine_quotedWithin _ s⟩)
    next digits =>
      cases h
      exact .ofPieces rfl
        (by simpa [DocumentError.pieces] using ⟨by decide, .natural _, by decide, .natural _, by decide⟩)
  · cases h
    exact .ofPieces rfl (by simpa [DocumentError.pieces] using ⟨by decide, line.oneLine_typeName, by decide⟩)

theorem explains_of_ofFields (htoken : Json.holdsText fields "__type__" "Token" = true) (h : ofFields fields = .error e) :
    (Json.obj fields).Explains e := by
  have hmissing {key : String} (h : needField fields key = .error e) : (Json.obj fields).Explains e :=
    needField_error h ▸ Json.explains_missing _ key
  obtain h | ⟨type, -, h⟩ := bind_eq_error.mp h
  · exact hmissing h
  obtain h | ⟨kind, -, h⟩ := bind_eq_error.mp h
  · exact explains_of_kindOfJson h
  obtain h | ⟨lexeme, -, h⟩ := bind_eq_error.mp h
  · exact hmissing h
  obtain h | ⟨line, hline, h⟩ := bind_eq_error.mp h
  · exact hmissing h
  obtain h | ⟨number, -, ⟨⟩⟩ := bind_eq_error.mp h
  refine explains_of_lineOfJson htoken ?_ h
  unfold needField at hline
  split at hline
  next hget =>
    cases hline
    exact hget
  · cases hline

end Token

/-! ### Nodes -/

namespace Node

theorem mem_of_lookup {α : Type} {key : String} {a : α} {fields : List (String × α)} (h : fields.lookup key = some a) :
    (key, a) ∈ fields := by
  obtain ⟨before, after, rfl, -⟩ := List.lookup_eq_some_iff.mp h
  simp

variable {α β : Type} {parts : List (String × Part)} {e : DocumentError}

/-- An error about the parts of a node: one is missing, or is not read itself. -/
def Blames (parts : List (String × Part)) (e : DocumentError) : Prop :=
  (∃ key, e = .missing key) ∨ ∃ field ∈ parts, field.2.node = .error e ∨ field.2.items = .error e

/-- Reading parts fails because of one of them. -/
def OnlyBlames (parts : List (String × Part)) (r : Except DocumentError α) : Prop := ∀ e, r = .error e → Blames parts e

namespace OnlyBlames

theorem bind {r : Except DocumentError α} {f : α → Except DocumentError β} (h : OnlyBlames parts r)
    (hf : ∀ a, OnlyBlames parts (f a)) : OnlyBlames parts (r >>= f) := by
  intro e he
  obtain he | ⟨a, -, he⟩ := bind_eq_error.mp he
  · exact h e he
  · exact hf a e he

theorem pure {a : α} : OnlyBlames parts (Pure.pure a) := nofun

theorem needPart {key : String} {f : Part → Except DocumentError α}
    (hf : ∀ part, (key, part) ∈ parts → OnlyBlames parts (f part)) : OnlyBlames parts (needPart parts key >>= f) := by
  intro e he
  unfold Node.needPart at he
  split at he
  next part hpart => exact hf part (mem_of_lookup hpart) e he
  next =>
    cases he
    exact .inl ⟨key, rfl⟩

theorem needNode (key : String) : OnlyBlames parts (needNode parts key) :=
  needPart fun part hmem _ he => .inr ⟨(key, part), hmem, .inl he⟩

theorem needItems (key : String) : OnlyBlames parts (needItems parts key) :=
  needPart fun part hmem _ he => .inr ⟨(key, part), hmem, .inr he⟩

theorem optionalNode (key : String) : OnlyBlames parts (optionalNode parts key) := by
  intro e he
  unfold Node.optionalNode at he
  split at he
  next part hpart => exact .inr ⟨(key, part), mem_of_lookup hpart, .inl he⟩
  next => cases he

theorem ofParts (type : NodeType) : OnlyBlames parts (ofParts type parts) := by
  cases type with
  | literal => exact (optionalNode _).bind fun _ => pure
  | grouping | reference | expression | print => exact (needNode _).bind fun _ => pure
  | unary | assign | loop => exact (needNode _).bind fun _ => (needNode _).bind fun _ => pure
  | binary | logical => exact (needNode _).bind fun _ => (needNode _).bind fun _ => (needNode _).bind fun _ => pure
  | call => exact (needNode _).bind fun _ => (needNode _).bind fun _ => (needItems _).bind fun _ => pure
  | var | ret => exact (needNode _).bind fun _ => (optionalNode _).bind fun _ => pure
  | block => exact (needItems _).bind fun _ => pure
  | branch => exact (needNode _).bind fun _ => (needNode _).bind fun _ => (optionalNode _).bind fun _ => pure
  | function => exact (needNode _).bind fun _ => (needItems _).bind fun _ => (needItems _).bind fun _ => pure

end OnlyBlames

theorem explains_of_typeOfJson {j type : Json} (h : typeOfJson type = .error e) : j.Explains e := by
  unfold typeOfJson at h
  split at h
  next s =>
    split at h
    · cases h
    · cases h
      exact ⟨nofun, .inr ⟨s, rfl⟩⟩
  next hstr =>
    cases h
    have hdescribe : type.describe = type.describeInner := by
      cases type with
      | str s => exact absurd rfl (hstr s)
      | _ => rfl
    exact .ofPieces rfl (by simpa [DocumentError.pieces, hdescribe] using ⟨by decide, type.oneLine_describeInner⟩)

mutual

theorem explains_of_ofJson {e : DocumentError} : ∀ {j : Json}, ofJson j = .error e → j.Explains e
  | .null, h | .bool _, h | .num _, h | .str _, h => by
    rw [ofJson] at h
    cases h
  | .int i, h => by
    rw [ofJson, ofInteger] at h
    split at h
    · cases h
    next hinfinite =>
      cases h
      exact ⟨fun _ => .integer (by simpa using hinfinite), .inl (by decide)⟩
  | .arr _, h => by
    cases h
    exact .ofPieces rfl (by decide)
  | .obj fields, h => by
    rw [ofJson, ofFields] at h
    split at h
    next htoken =>
      obtain h | ⟨token, -, ⟨⟩⟩ := bind_eq_error.mp h
      exact Token.explains_of_ofFields htoken h
    next htoken =>
      obtain h | ⟨type, -, h⟩ := bind_eq_error.mp h
      · exact explains_of_typeOfJson h
      · obtain ⟨key, rfl⟩ | ⟨part, hpart, h⟩ := OnlyBlames.ofParts type e h
        · exact Json.explains_missing _ key
        · obtain ⟨j, hmem, hj⟩ := explains_of_partsOfJson hpart h
          exact hj.field hmem (by simpa using htoken)

theorem explains_of_itemsOfJson {e : DocumentError} : ∀ {j : Json}, itemsOfJson j = .error e → j.Explains e
  | .arr items, h => by
    obtain ⟨j, hmem, hj⟩ := explains_of_listOfJson h
    exact hj.item hmem
  | .null, h | .bool _, h | .int _, h | .num _, h => by
    cases h
    exact .ofPieces rfl (by simpa [DocumentError.pieces] using ⟨by decide, Json.oneLine_typeName _, by decide⟩)
  | .str _, h | .obj _, h => by
    rw [itemsOfJson] at h
    cases h

theorem explains_of_listOfJson {e : DocumentError} :
    ∀ {items : List Json}, listOfJson items = .error e → ∃ j ∈ items, j.Explains e
  | [], h => by
    rw [listOfJson] at h
    cases h
  | j :: rest, h => by
    rw [listOfJson] at h
    obtain h | ⟨first, -, h⟩ := bind_eq_error.mp h
    · exact ⟨j, .head _, explains_of_ofJson h⟩
    obtain h | ⟨others, -, ⟨⟩⟩ := bind_eq_error.mp h
    obtain ⟨j, hmem, hj⟩ := explains_of_listOfJson h
    exact ⟨j, .tail _ hmem, hj⟩

theorem explains_of_partsOfJson {e : DocumentError} : ∀ {fields : List (String × Json)} {part : String × Part},
    part ∈ partsOfJson fields → part.2.node = .error e ∨ part.2.items = .error e → ∃ j, (part.1, j) ∈ fields ∧ j.Explains e
  | [], _, hpart, _ => by
    rw [partsOfJson] at hpart
    cases hpart
  | (key, j) :: rest, part, hpart, h => by
    rw [partsOfJson, List.mem_cons] at hpart
    rcases hpart with rfl | hpart
    · refine ⟨j, .head _, ?_⟩
      rcases h with h | h
      · exact explains_of_ofJson h
      · exact explains_of_itemsOfJson h
    · obtain ⟨j, hmem, hj⟩ := explains_of_partsOfJson hpart h
      exact ⟨j, .tail _ hmem, hj⟩

end

theorem lookup_partsOfJson (fields : List (String × Json)) (key : String) :
    (partsOfJson fields).lookup key = (Json.getField? fields key).map fun j => ⟨ofJson j, itemsOfJson j⟩ := by
  induction fields with
  | nil => simp [partsOfJson, Json.getField?]
  | cons field fields ih =>
    obtain ⟨k, j⟩ := field
    rw [Json.getField?] at ih ⊢
    rw [partsOfJson, List.lookup_cons, List.lookup_cons, ih]
    split <;> rfl

/-- A document that is not read as a program is none, or lacks a body, or its body explains why. -/
theorem explains_of_programOfJson {v : Json} {e : DocumentError} (h : programOfJson v = .error e) :
    (e.isOverflow = true → ∃ fields body, v = .obj fields ∧ Json.getField? fields "body" = some body ∧ body.Oversized) ∧
      (OneLine e.message ∨ ∃ text, e = .unknownType (.str text)) := by
  unfold programOfJson at h
  split at h
  next fields =>
    split at h
    · rw [needItems, needPart, lookup_partsOfJson] at h
      cases hbody : Json.getField? fields "body" with
      | none =>
        rw [hbody] at h
        cases h
        exact ⟨nofun, (Json.explains_missing .null "body").oneLine⟩
      | some body =>
        rw [hbody] at h
        have hexplains : body.Explains e := explains_of_itemsOfJson h
        exact ⟨fun hoverflow => ⟨fields, body, rfl, hbody, hexplains.oversized hoverflow⟩, hexplains.oneLine⟩
    · cases h
      exact ⟨nofun, .inl (by decide)⟩
  · cases h
    exact ⟨nofun, .inl (by decide)⟩

end Node

end LoxLang
