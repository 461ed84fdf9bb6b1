import LoxLang.Proofs.Document.RoundTrip
import LoxLang.Proofs.Grammar.Trees
/-!
# Which stored trees read back

The trees that are read from their stored form as they were are exactly those whose literals hold bare
values. Every other node may stand anywhere: storing and reading ask for nothing that would make sense
of it. Parsed programs are among these trees, and so is what is left of malformed ones. What was read
from a document is therefore stored in a form that reads back as the same, unless the document has a
node or a token inside a literal.
-/

namespace LoxLang

namespace DocumentError

variable {α β : Type}

theorem bind_eq_ok {r : Except DocumentError α} {f : α → Except DocumentError β} {b : β} :
    (r >>= f) = .ok b ↔ ∃ a, r = .ok a ∧ f a = .ok b := by
  cases r with
  | ok a => simp
  | error e =>
    constructor
    · exact nofun
    · rintro ⟨a, ha, -⟩
      cases ha

end DocumentError

namespace Node

open DocumentError (bind_eq_ok)

/-- Every literal of the tree holds a bare value. -/
abbrev LiteralsBare (n : Node) : Prop := n.All (fun _ => True) IsScalar

/-! ### Only bare literals are read back -/

/-- What stands for a node inside a literal is not read as anything. -/
theorem isScalar_of_ofJson {value read : Node} (h : ofJson value.literalToJson = .ok read) : value.IsScalar := by
  cases value with
  | null | bool _ | num _ | str _ => rfl
  | _ => cases h

mutual

theorem literalsBare_of_ofJson : ∀ {n : Node}, ofJson n.toJson = .ok n → n.LiteralsBare
  | null, _ | bool _, _ | num _, _ | str _, _ => rfl
  | token _, _ => trivial
  | literal value, h => by
    rw [toJson, ofJson_object _ rfl] at h
    obtain ⟨read, hread, -⟩ := bind_eq_ok.mp h
    exact isScalar_of_ofJson (by simpa using hread)
  | grouping inner, h => by
    rw [toJson, ofJson_object _ rfl] at h
    simp [ofParts, bind_eq_ok] at h
    exact literalsBare_of_ofJson (n := inner) h
  | unary operator right, h => by
    rw [toJson, ofJson_object _ rfl] at h
    simp [ofParts, bind_eq_ok] at h
    exact ⟨literalsBare_of_ofJson h.1, literalsBare_of_ofJson h.2⟩
  | binary left operator right, h => by
    rw [toJson, ofJson_object _ rfl] at h
    simp [ofParts, bind_eq_ok] at h
    exact ⟨literalsBare_of_ofJson h.1, literalsBare_of_ofJson h.2.1, literalsBare_of_ofJson h.2.2⟩
  | logical left operator right, h => by
    rw [toJson, ofJson_object _ rfl] at h
    simp [ofParts, bind_eq_ok] at h
    exact ⟨literalsBare_of_ofJson h.1, literalsBare_of_ofJson h.2.1, literalsBare_of_ofJson h.2.2⟩
  | reference name, h => by
    rw [toJson, ofJson_object _ rfl] at h
    simp [ofParts, bind_eq_ok] at h
    exact literalsBare_of_ofJson (n := name) h
  | assign name value, h => by
    rw [toJson, ofJson_object _ rfl] at h
    simp [ofParts, bind_eq_ok] at h
    exact ⟨literalsBare_of_ofJson h.1, literalsBare_of_ofJson h.2⟩
  | call callee paren arguments, h => by
    rw [toJson, ofJson_object _ rfl] at h
    simp [ofParts, bind_eq_ok] at h
    exact ⟨literalsBare_of_ofJson h.1, literalsBare_of_ofJson h.2.1, literalsBare_of_listOfJson h.2.2⟩
  | expression value, h => by
    rw [toJson, ofJson_object _ rfl] at h
    simp [ofParts, bind_eq_ok] at h
    exact literalsBare_of_ofJson (n := value) h
  | print value, h => by
    rw [toJson, ofJson_object _ rfl] at h
    simp [ofParts, bind_eq_ok] at h
    exact literalsBare_of_ofJson (n := value) h
  | var name initial, h => by
    rw [toJson, ofJson_object _ rfl] at h
    simp [ofParts, bind_eq_ok] at h
    exact ⟨literalsBare_of_ofJson h.1, literalsBare_of_ofJson h.2⟩
  | block statements, h => by
    rw [toJson, ofJson_object _ rfl] at h
    simp [ofParts, bind_eq_ok] at h
    exact @literalsBare_of_listOfJson statements h
  | branch condition yes no, h => by
    rw [toJson, ofJson_object _ rfl] at h
    simp [ofParts, bind_eq_ok] at h
    exact ⟨literalsBare_of_ofJson h.1, literalsBare_of_ofJson h.2.1, literalsBare_of_ofJson h.2.2⟩
  | loop condition body, h => by
    rw [toJson, ofJson_object _ rfl] at h
    simp [ofParts, bind_eq_ok] at h
    exact ⟨literalsBare_of_ofJson h.1, literalsBare_of_ofJson h.2⟩
  | function name params body, h => by
    rw [toJson, ofJson_object _ rfl] at h
    simp [ofParts, bind_eq_ok] at h
    exact ⟨literalsBare_of_ofJson h.1, literalsBare_of_listOfJson h.2.1, literalsBare_of_listOfJson h.2.2⟩
  | ret keyword value, h => by
    rw [toJson, ofJson_object _ rfl] at h
    simp [ofParts, bind_eq_ok] at h
    exact ⟨literalsBare_of_ofJson h.1, literalsBare_of_ofJson h.2⟩

theorem literalsBare_of_listOfJson : ∀ {ns : List Node}, listOfJson (toJsonList ns) = .ok ns →
    AllOf (fun _ => True) IsScalar ns
  | [], _ => trivial
  | n :: rest, h => by
    simp [toJsonList, listOfJson, bind_eq_ok] at h
    exact ⟨literalsBare_of_ofJson h.1, literalsBare_of_listOfJson h.2⟩

end

/-! ### Reading back -/

/-- A tree reads back as it was exactly if its literals hold bare values. -/
theorem ofJson_toJson_iff {n : Node} : ofJson n.toJson = .ok n ↔ n.LiteralsBare :=
  ⟨literalsBare_of_ofJson, ofJson_toJson⟩

theorem programOfJson_programToJson_iff {p : List Node} :
    programOfJson (programToJson p) = .ok p ↔ ∀ n ∈ p, n.LiteralsBare := by
  rw [← allOf_iff]
  constructor
  · intro h
    rw [programToJson, programOfJson] at h
    exact literalsBare_of_listOfJson (by simpa [Json.holdsText, Json.getField?] using h)
  · exact programOfJson_programToJson

/-- Storing what was read and reading it again changes nothing, or nothing is read at all. -/
theorem read_again_iff {α : Type} {r : Except DocumentError α} {again : α → Except DocumentError α} :
    r >>= again = r ↔ ∀ a, r = .ok a → again a = .ok a := by
  cases r with
  | ok a =>
    constructor
    · intro h b hb
      cases hb
      exact h
    · intro h
      exact h a rfl
  | error e => exact ⟨fun _ _ h => (by cases h), fun _ => rfl⟩

/-! ### Parsed trees -/

variable {P : Token → Prop}

theorem IsExpressionOf.literalsBare {e : Node} (h : e.IsExpressionOf P) : e.LiteralsBare := by
  induction h with
  | literal hvalue => exact hvalue
  | grouping _ ih => exact ih
  | unary _ _ _ ih => exact ⟨trivial, ih⟩
  | binary _ _ _ _ ihleft ihright => exact ⟨ihleft, trivial, ihright⟩
  | logical _ _ _ ihleft ihright => exact ⟨ihleft, trivial, ihright⟩
  | reference _ => exact trivial
  | assign _ _ ih => exact ⟨trivial, ih⟩
  | call _ _ _ ihcallee iharguments => exact ⟨ihcallee, trivial, allOf_iff.mpr iharguments⟩

theorem IsOptionalOf.literalsBare {e : Node} (h : e.IsOptionalOf P) : e.LiteralsBare := by
  rcases h with rfl | h
  · rfl
  · exact h.literalsBare

theorem IsStatementOf.literalsBare {s : Node} (h : s.IsStatementOf P) : s.LiteralsBare := by
  induction h with
  | expression hvalue => exact hvalue.literalsBare
  | print hvalue => exact hvalue.literalsBare
  | var _ hinitial => exact ⟨trivial, hinitial.literalsBare⟩
  | block _ ih => exact allOf_iff.mpr ih
  | branch hcondition _ ih => exact ⟨hcondition.literalsBare, ih, rfl⟩
  | branchElse hcondition _ _ ihyes ihno => exact ⟨hcondition.literalsBare, ihyes, ihno⟩
  | loop hcondition _ ih => exact ⟨hcondition.literalsBare, ih⟩
  | function _ _ _ ih =>
    refine ⟨trivial, allOf_iff.mpr fun n hn => ?_, allOf_iff.mpr ih⟩
    obtain ⟨p, -, rfl⟩ := List.mem_map.mp hn
    exact trivial
  | ret _ hvalue => exact ⟨trivial, hvalue.literalsBare⟩

end Node

/-- The statements that a parse gives, of any text, hold bare values in their literals. -/
theorem parseProgram_literalsBare (source : String) : ∀ s ∈ (parseProgram source).result, s.LiteralsBare :=
  fun s hs => (parseProgramTokens_statements _ _ s hs).literalsBare

/-- Trees, and lists of trees, read back as they were exactly if no literal holds a node or a token; the statements that a
parse gives always do, whatever was reported. And for every document, as a tree and as a program: what was read from it
reads back as the same, or nothing was read, exactly if it has no node or token inside a literal. -/
theorem stored_trees_read_back :
    (∀ n : Node, Node.ofJson n.toJson = .ok n ↔ n.LiteralsBare) ∧
      (∀ p : List Node, Node.programOfJson (Node.programToJson p) = .ok p ↔ ∀ n ∈ p, n.LiteralsBare) ∧
      (∀ source, Node.programOfJson (Node.programToJson (parseProgram source).result) =
        .ok (parseProgram source).result) ∧
      (∀ document, (Node.ofJson document >>= fun n => Node.ofJson n.toJson) = Node.ofJson document ↔
        ∀ n, Node.ofJson document = .ok n → n.LiteralsBare) ∧
      ∀ document, (Node.programOfJson document >>= fun p => Node.programOfJson (Node.programToJson p)) =
          Node.programOfJson document ↔
        ∀ p, Node.programOfJson document = .ok p → ∀ n ∈ p, n.LiteralsBare := by
  refine ⟨fun n => Node.ofJson_toJson_iff, fun p => Node.programOfJson_programToJson_iff, fun source => ?_,
    fun document => ?_, fun document => ?_⟩
  · exact Node.programOfJson_programToJson_iff.mpr (parseProgram_literalsBare source)
  · rw [Node.read_again_iff]
    exact forall₂_congr fun n _ => Node.ofJson_toJson_iff
  · rw [Node.read_again_iff]
    exact forall₂_congr fun p _ => Node.programOfJson_programToJson_iff

end LoxLang
