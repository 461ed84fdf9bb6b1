import LoxLang.Proofs.Document.RoundTrip
import LoxLang.Proofs.Grammar.Relabel
import LoxLang.Proofs.Grammar.Trees
import LoxLang.Proofs.Node.RoundTrip
import LoxLang.Proofs.Token.Lines
/-!
# The documents of source texts

The program of a text without diagnostics is written as a document that reads back as the same
program. A parsed tree holds tokens of the text and values of such tokens and nothing else; those can
be stored, since a scanned number is never NaN and the lines are no more than can be numbered.
-/

namespace LoxLang

namespace Grammar

open Node (All AllOf allOf_iff)

variable {P : Token → Prop} {Q : Node → Prop}

/-- The values of the tokens that satisfy `P`, and those that keywords and left out parts stand for,
satisfy `Q`. -/
structure ValuesOf (P : Token → Prop) (Q : Node → Prop) : Prop where
  literal : ∀ t, P t → Q (.ofScalar t.literal)
  bool : ∀ b, Q (.bool b)
  null : Q .null

/-! ### Expressions -/

theorem all_operations {l : Operation} {first : Node} {tail : List Operand} (hfirst : first.All P Q)
    (htail : ∀ x ∈ tail, P x.operator ∧ x.right.tree.All P Q) : (tail.foldl (Operand.onto l) first).All P Q := by
  induction tail generalizing first with
  | nil => exact hfirst
  | cons x tail ih =>
    obtain ⟨⟨hoperator, hright⟩, hrest⟩ := List.forall_mem_cons.mp htail
    apply ih _ hrest
    cases l <;> exact ⟨hfirst, hoperator, hright⟩

theorem all_calls {callee : Node} {tail : List Arguments} (hcallee : callee.All P Q)
    (htail : ∀ x ∈ tail, P x.closing ∧ ∀ item ∈ x.items, item.tree.All P Q) :
    (tail.foldl Arguments.onto callee).All P Q := by
  induction tail generalizing callee with
  | nil => exact hcallee
  | cons x tail ih =>
    obtain ⟨⟨hclosing, hitems⟩, hrest⟩ := List.forall_mem_cons.mp htail
    exact ih ⟨hcallee, hclosing, allOf_iff.mpr (List.forall_mem_map.mpr hitems)⟩ hrest

theorem Derives.all (hvalues : ValuesOf P Q) {l : Level} {ts : List Token} {e : Node} (h : Derives l ts e)
    (hts : ∀ t ∈ ts, P t) : e.All P Q := by
  induction h with
  | assign _ _ _ ih =>
    obtain ⟨hname, hrest⟩ := List.forall_mem_cons.mp hts
    exact ⟨hname, ih (List.forall_mem_cons.mp hrest).2⟩
  | noAssign _ ih => exact ih hts
  | operation tail _ _ _ ihfirst ihtail =>
    obtain ⟨hfirst, hrest⟩ := List.forall_mem_append.mp hts
    apply all_operations (ihfirst hfirst)
    intro x hx
    have htokens : ∀ t ∈ x.tokens, P t := fun t ht => hrest t (List.mem_flatMap.mpr ⟨x, hx, ht⟩)
    obtain ⟨hoperator, hright⟩ := List.forall_mem_cons.mp htokens
    exact ⟨hoperator, ihtail x hx hright⟩
  | sign _ _ ih =>
    obtain ⟨hsign, hrest⟩ := List.forall_mem_cons.mp hts
    exact ⟨hsign, ih hrest⟩
  | noSign _ ih => exact ih hts
  | call tail _ henclosed _ ihcallee ihitems =>
    obtain ⟨hfirst, hrest⟩ := List.forall_mem_append.mp hts
    apply all_calls (ihcallee hfirst)
    intro x hx
    have htokens : ∀ t ∈ x.tokens, P t := fun t ht => hrest t (List.mem_flatMap.mpr ⟨x, hx, ht⟩)
    obtain ⟨-, hinside⟩ := List.forall_mem_cons.mp htokens
    refine ⟨hinside _ (by simp), fun item hitem => ihitems x hx item hitem fun t ht => ?_⟩
    have hpiece := (henclosed x hx).separated.subset item.tokens (List.mem_map_of_mem hitem) ht
    exact hinside t (List.mem_append_left _ hpiece)
  | value _ => exact hvalues.literal _ (hts _ (by simp))
  | yes _ => exact hvalues.bool true
  | no _ => exact hvalues.bool false
  | nil _ => exact hvalues.null
  | name _ => exact hts _ (by simp)
  | grouping _ _ _ ih =>
    obtain ⟨-, hrest⟩ := List.forall_mem_cons.mp hts
    exact ih (List.forall_mem_append.mp hrest).1

/-! ### Statements -/

theorem DerivesOptional.all (hvalues : ValuesOf P Q) {ts : List Token} {value : Option Node}
    (h : DerivesOptional ts value) (hts : ∀ t ∈ ts, P t) : ∀ e ∈ value, e.All P Q := by
  cases h with
  | none => simp
  | some h => simpa using h.all hvalues hts

theorem DerivesVariable.all (hvalues : ValuesOf P Q) {ts : List Token} {s : Node} (h : DerivesVariable ts s)
    (hts : ∀ t ∈ ts, P t) : s.All P Q := by
  cases h with
  | bare => exact ⟨hts _ (by simp), hvalues.null⟩
  | initial _ _ h _ => exact ⟨hts _ (by simp), h.all hvalues fun t ht => hts t (by simp [ht])⟩

theorem DerivesInitial.all (hvalues : ValuesOf P Q) {ts : List Token} {initial : Option Node}
    (h : DerivesInitial ts initial) (hts : ∀ t ∈ ts, P t) : ∀ s ∈ initial, s.All P Q := by
  cases h with
  | none => simp
  | var _ h =>
    have hs := h.all hvalues fun t ht => hts t (by simp [ht])
    simpa using hs
  | expression h _ =>
    have he := h.all hvalues fun t ht => hts t (by simp [ht])
    simpa [All] using he

theorem all_forLoop (hvalues : ValuesOf P Q) {condition increment : Option Node} {body : Node}
    (hcondition : ∀ e ∈ condition, e.All P Q) (hincrement : ∀ e ∈ increment, e.All P Q) (hbody : body.All P Q) :
    (forLoop condition increment body).All P Q := by
  have hyes : Node.All P Q (.literal (.bool true)) := hvalues.bool true
  cases condition <;> cases increment <;> simp_all [forLoop, All, AllOf]

theorem all_forTree (hvalues : ValuesOf P Q) {initial condition increment : Option Node} {body : Node}
    (hinitial : ∀ s ∈ initial, s.All P Q) (hcondition : ∀ e ∈ condition, e.All P Q)
    (hincrement : ∀ e ∈ increment, e.All P Q) (hbody : body.All P Q) :
    (forTree initial condition increment body).All P Q := by
  have hloop := all_forLoop hvalues hcondition hincrement hbody
  cases initial with
  | none => exact hloop
  | some s => exact ⟨hinitial s rfl, hloop, trivial⟩

theorem allOf_phrases {items : List (Phrase Node)} (h : ∀ x ∈ items, (∀ t ∈ x.tokens, P t) → x.tree.All P Q)
    (hts : ∀ t ∈ items.flatMap Phrase.tokens, P t) : AllOf P Q (items.map Phrase.tree) := by
  rw [allOf_iff, List.forall_mem_map]
  intro x hx
  exact h x hx fun t ht => hts t (List.mem_flatMap.mpr ⟨x, hx, ht⟩)

theorem DerivesStatement.all (hvalues : ValuesOf P Q) {symbol : Symbol} {f : Bool} {ts : List Token} {s : Node}
    (h : DerivesStatement symbol f ts s) (hts : ∀ t ∈ ts, P t) : s.All P Q := by
  induction h with
  | statement _ ih => exact ih hts
  | var _ h => exact h.all hvalues (List.forall_mem_cons.mp hts).2
  | function params body _ _ _ _ hinside _ _ _ _ _ ih =>
    have hparams : ∀ p ∈ params, P p := by
      intro p hp
      have hpiece := hinside.subset [p] (List.mem_map_of_mem hp) (List.mem_singleton_self p)
      exact hts p (by simp [hpiece])
    have hbody := allOf_phrases ih fun t ht => hts t (by simp [ht])
    exact ⟨hts _ (by simp), allOf_iff.mpr (List.forall_mem_map.mpr hparams), hbody⟩
  | expression h _ => exact h.all hvalues (List.forall_mem_append.mp hts).1
  | print _ h _ => exact h.all hvalues fun t ht => hts t (by simp [ht])
  | @ret keyword _ _ value _ h _ =>
    have hvalue := h.all hvalues fun t ht => hts t (by simp [ht])
    refine ⟨hts _ (by simp), ?_⟩
    cases value with
    | none => exact hvalues.null
    | some e => exact hvalue e rfl
  | block body _ _ _ ih => exact allOf_phrases ih fun t ht => hts t (by simp [ht])
  | branch _ _ hcondition _ _ ih =>
    exact ⟨hcondition.all hvalues fun t ht => hts t (by simp [ht]), ih fun t ht => hts t (by simp [ht]), hvalues.null⟩
  | branchElse _ _ hcondition _ _ _ _ ihyes ihno =>
    exact ⟨hcondition.all hvalues fun t ht => hts t (by simp [ht]), ihyes fun t ht => hts t (by simp [ht]),
      ihno fun t ht => hts t (by simp [ht])⟩
  | loop _ _ hcondition _ _ ih =>
    exact ⟨hcondition.all hvalues fun t ht => hts t (by simp [ht]), ih fun t ht => hts t (by simp [ht])⟩
  | forLoop _ _ hinitial hcondition _ hincrement _ _ ih =>
    exact all_forTree hvalues (hinitial.all hvalues fun t ht => hts t (by simp [ht]))
      (hcondition.all hvalues fun t ht => hts t (by simp [ht]))
      (hincrement.all hvalues fun t ht => hts t (by simp [ht])) (ih fun t ht => hts t (by simp [ht]))

theorem DerivesProgram.all (hvalues : ValuesOf P Q) {ts : List Token} {program : List Node}
    (h : DerivesProgram ts program) (hts : ∀ t ∈ ts, P t) : AllOf P Q program := by
  obtain ⟨items, rfl, rfl, hitems⟩ := h
  exact allOf_phrases (fun x hx => (hitems x hx).all hvalues) hts

end Grammar

/-! ### What a scan finds can be stored -/

theorem Token.Storable.literal {t : Token} (h : t.Storable) : t.literal.Storable := by
  cases h with
  | obj _ hfields => exact hfields ("literal", t.literal) (by simp)

/-- What a token can store as its value, a literal can. -/
theorem Node.storableValue_ofScalar {value : Json} (h : value.Storable) : StorableValue (.ofScalar value) := by
  cases h with
  | bool b => exact .bool b
  | num hnan => exact .num hnan
  | str s => exact .str s
  | null | int _ | arr _ | obj _ _ => exact .null

/-- A token whose line number can be read is stored with all it holds. -/
theorem Token.IsScanned.storable {t : Token} (h : t.IsScanned) (hline : t.line.natAbs < 10 ^ integerDigits) :
    t.Storable := by
  have hint : Json.Storable (.int t.line) := .int ((Nat.length_toDigits_le_iff (by decide) (by decide)).mpr hline)
  obtain ⟨kind, text, -, htoken⟩ := h
  have hlexeme : t.lexeme.Storable := by
    rw [htoken]
    exact .str _
  have hliteral : t.literal.Storable := by
    rw [htoken]
    cases kind with
    | number => exact .num fun hnan => absurd hnan (by simp [Number.ofNumeral_isNaN])
    | string => exact .str _
    | _ => exact .null
  exact .obj (by simp) (by simp [hint, hlexeme, hliteral, Json.Storable.str])

theorem scan_storable {source : String} (hlines : source.toList.count '\n' + 1 < 10 ^ integerDigits) :
    ∀ t ∈ (scan source).tokens, t.Storable := by
  intro t ht
  obtain ⟨hlow, hhigh⟩ := scan_token_line ht
  exact (scan_isScanned ht).storable (by omega)

/-- The document of a text without diagnostics can be written, and holds the program of the text. -/
theorem parseProgram_stored {source : String} {program : List Node} (hparsed : parseProgram source = ⟨program, []⟩)
    (hlines : source.toList.count '\n' + 1 < 10 ^ integerDigits) :
    (Node.programToJson program).Storable ∧ Node.programOfJson (Node.programToJson program) = .ok program := by
  obtain ⟨-, hderives⟩ := (parseProgram_eq_iff source program).mp hparsed
  have hscalars : Grammar.ValuesOf (fun _ => True) Node.IsScalar :=
    ⟨fun t _ => Node.ofScalar_scalar t.literal, fun _ => rfl, rfl⟩
  have hvalues : Grammar.ValuesOf Token.Storable Node.StorableValue :=
    ⟨fun _ ht => Node.storableValue_ofScalar ht.literal, .bool, .null⟩
  constructor
  · exact Node.storable_programToJson (hderives.all hvalues (scan_storable hlines))
  · exact Node.programOfJson_programToJson (hderives.all hscalars fun _ _ => trivial)

end LoxLang
