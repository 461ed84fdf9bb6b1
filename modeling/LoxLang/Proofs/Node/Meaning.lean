import LoxLang.Proofs.Eval.Likeness
import LoxLang.Proofs.Eval.Steady
import LoxLang.Proofs.Node.RoundTrip
/-!
# What printed expressions mean

An expression that is printed and read back means what it meant before: from every state the two end
alike, with the same value and the same state after it, or with the same cause of failure. They have
one bare form, so it is enough to compare an expression with its bare form. There parentheses cost
nothing but fuel, and lines matter only for the place of an error.

Nothing is traced here, since the trace tells lines. An infinite number is the exception: it is
printed as a word, which is read back as a name.
-/

namespace LoxLang

/-- Tokens that differ at most in their lines. -/
def Token.SameBare (t t' : Token) : Prop := t.bare = t'.bare

theorem Token.sameBare_bare (t : Token) : t.SameBare t.bare := rfl

theorem Token.bare_sameBare (t : Token) : t.bare.SameBare t := rfl

/-- States that are alike to the last token are the same, if nothing is traced and the same calls are in progress. -/
theorem State.Like.eq {S : Token → Token → Prop} {st st' : State} (h : st.Like Eq S st') (hlevel : st.level = 0)
    (hcalls : st.calls = st'.calls) : st = st' := by
  have hstore : st.store = st'.store := h.store.eq fun _ _ hv => hv.eq
  have htrace : st.trace = st'.trace := h.quiet hlevel
  cases st
  cases st'
  rw [State.mk.injEq]
  exact ⟨hstore, h.nextId, h.output, h.level, htrace, hcalls, h.clock, h.readings⟩

namespace Eval

/-! ### How an evaluation ends -/

/-- The end of an evaluation, without the place of an error and the calls that were then in progress. -/
inductive Ending where
  | value (v : Value) (st : State)
  | failed (cause : Cause) (st : State)
  | exhausted (st : State)
  | fault (f : Fault) (st : State)

def ending? : EStateM.Result Stop State Value → Option Ending
  | .ok v st => some (.value v st)
  | .error (.error e) st => some (.failed e.cause { st with calls := [] })
  | .error .exhausted st => some (.exhausted { st with calls := [] })
  | .error (.fault f) st => some (.fault f { st with calls := [] })
  | .error .outOfFuel _ => none

/-- With fuel enough, the evaluation ends so. -/
def Evaluates (calls : Nat) (scope : ScopeId) (e : Node) (st : State) (ending : Ending) : Prop :=
  ∃ fuel, ending? (eval fuel calls scope e st) = some ending

/-- No evaluation that is not traced tells the expressions apart. -/
def SameMeaning (e e' : Node) : Prop :=
  ∀ calls scope st, st.level = 0 → ∀ ending, Evaluates calls scope e st ending ↔ Evaluates calls scope e' st ending

/-! ### Expressions with one bare form -/

/-- Whatever the first expression does, the second does too, with so much more fuel. -/
def Follows (more : Nat) (e e' : Node) : Prop :=
  ∀ calls scope fuel fuel', fuel + more ≤ fuel' → EvalLike False Eq Token.SameBare fuel fuel' calls scope e e'

namespace Follows

variable {more : Nat} {t t' : Token} {e e' left left' right right' callee callee' : Node}

theorem mono {more' : Nat} (h : Follows more e e') (hle : more ≤ more') : Follows more' e e' :=
  fun calls scope fuel fuel' hfuel => h calls scope fuel fuel' (by omega)

/-- The first evaluation has taken a step, so the second has the fuel to take one. -/
theorem of_succ (h : ∀ calls scope fuel fuel', fuel + more ≤ fuel' →
    EvalLike False Eq Token.SameBare (fuel + 1) (fuel' + 1) calls scope e e') : Follows more e e' := by
  intro calls scope fuel fuel' hfuel
  cases fuel with
  | zero => exact .outOfFuel fun h => h.elim
  | succ fuel =>
    obtain ⟨k, rfl⟩ : ∃ k, fuel' = k + 1 := ⟨fuel' - 1, by omega⟩
    exact h calls scope fuel k (by omega)

theorem literal (value : Node) : Follows more (.literal value) (.literal value) :=
  of_succ fun _ _ _ _ _ => evalLike_literal value

theorem ungroup (h : Follows more e e') : Follows more (.grouping e) e' := by
  intro calls scope fuel fuel' hfuel
  cases fuel with
  | zero => exact .outOfFuel fun h => h.elim
  | succ fuel => exact h calls scope fuel fuel' (by omega)

theorem group (h : Follows more e e') : Follows (more + 1) e (.grouping e') := by
  intro calls scope fuel fuel' hfuel
  obtain ⟨k, rfl⟩ : ∃ k, fuel' = k + 1 := ⟨fuel' - 1, by omega⟩
  exact h calls scope fuel k (by omega)

variable (ht : t.SameBare t')

include ht

theorem reference : Follows more (.reference (.token t)) (.reference (.token t')) :=
  of_succ fun _ _ _ _ _ => evalLike_reference (fun _ _ h => h) (.some ht)

theorem assign (h : Follows more e e') : Follows more (.assign (.token t) e) (.assign (.token t') e') :=
  of_succ fun _ _ _ _ hfuel => evalLike_assign (fun _ _ h => h) (.some ht) (h _ _ _ _ hfuel)

theorem unary (h : Follows more e e') : Follows more (.unary (.token t) e) (.unary (.token t') e') :=
  of_succ fun _ _ _ _ hfuel => evalLike_unary (fun _ _ h => h) (.some ht) (h _ _ _ _ hfuel)

theorem operation (hleft : Follows more left left') (hright : Follows more right right') (l : Grammar.Operation) :
    Follows more (l.node left (.token t) right) (l.node left' (.token t') right') := by
  apply of_succ
  intro calls scope fuel fuel' hfuel
  cases l with
  | disjunction | conjunction =>
    exact evalLike_logical (fun _ _ h => h) (hleft _ _ _ _ hfuel) (.some ht) (hright _ _ _ _ hfuel)
  | _ => exact evalLike_binary (fun _ _ h => h) (hleft _ _ _ _ hfuel) (.some ht) (hright _ _ _ _ hfuel)

theorem call {arguments arguments' : List Node} (hcallee : Follows more callee callee')
    (harguments : List.Forall₂ (Follows more) arguments arguments') :
    Follows more (.call callee (.token t) arguments) (.call callee' (.token t') arguments') := by
  apply of_succ
  intro calls scope fuel fuel' hfuel
  have hrest : LikeWithin False Eq Token.SameBare fuel fuel' :=
    likeWithin (fun _ _ h => congrArg Token.bare h) (fun _ _ h => h) (fun _ _ h => congrArg Token.bare h)
      (by omega) fun h => h.elim
  have hparen : Node.LikeToken Token.SameBare (.token t) (.token t') := .some ht
  apply evalLike_call (hcallee _ _ _ _ hfuel) hparen _ (hrest.invoke calls)
  exact harguments.imp fun _ _ h => h _ _ _ _ hfuel

end Follows

end Eval

open Eval

namespace Node

theorem bare_operation (l : Grammar.Operation) (left : Node) (t : Token) (right : Node) :
    (l.node left (.token t) right).bare = l.node left.bare (.token t.bare) right.bare := by
  cases l <;> simp only [Grammar.Operation.node, bare]

theorem bare_call (callee : Node) (t : Token) (arguments : List Node) :
    (call callee (.token t) arguments).bare = call callee.bare (.token t.bare) (arguments.map bare) := by
  rw [bare, bare, bareAll_eq]

theorem Readable.follows_bare {e : Node} (h : e.Readable) : Follows 0 e e.bare := by
  induction h with
  | nil | bool | number | string => exact .literal _
  | grouping _ ih => exact .ungroup ih
  | @sign t _ _ _ _ ih => exact .unary t.sameBare_bare ih
  | @operation l t _ _ _ _ _ _ ihleft ihright =>
    rw [bare_operation]
    exact .operation t.sameBare_bare ihleft ihright l
  | @reference t => exact .reference t.sameBare_bare
  | @assign t _ _ _ _ ih => exact .assign t.sameBare_bare ih
  | @call t _ _ _ _ _ _ _ ihcallee iharguments =>
    rw [bare_call]
    apply Follows.call t.sameBare_bare ihcallee
    rw [List.forall₂_map_right_iff, List.forall₂_same]
    exact iharguments

/-- The bare form is followed by the expression, with fuel for its parentheses. -/
theorem Readable.bare_follows {e : Node} (h : e.Readable) : Follows (sizeOf e) e.bare e := by
  induction h with
  | nil | bool | number | string => exact .literal _
  | grouping _ ih => exact ih.group.mono (by rw [grouping.sizeOf_spec]; omega)
  | @sign t _ _ _ _ ih => exact .unary t.bare_sameBare (ih.mono (by simp))
  | @operation l t left right _ _ _ _ ihleft ihright =>
    have hle : sizeOf left ≤ sizeOf (l.node left (.token t) right) ∧
        sizeOf right ≤ sizeOf (l.node left (.token t) right) := by
      cases l <;> simp [Grammar.Operation.node] <;> omega
    rw [bare_operation]
    exact .operation t.bare_sameBare (ihleft.mono hle.1) (ihright.mono hle.2) l
  | @reference t => exact .reference t.bare_sameBare
  | @assign t _ _ _ _ ih => exact .assign t.bare_sameBare (ih.mono (by simp))
  | @call t callee arguments _ _ _ _ _ ihcallee iharguments =>
    have hle : sizeOf callee + sizeOf arguments ≤ sizeOf (Node.call callee (.token t) arguments) := by
      simp
      omega
    rw [bare_call]
    apply Follows.call t.bare_sameBare (ihcallee.mono (by omega))
    rw [List.forall₂_map_left_iff, List.forall₂_same]
    intro a ha
    have hsize : sizeOf a < sizeOf arguments := List.sizeOf_lt_of_mem ha
    exact (iharguments a ha).mono (by omega)

end Node

/-! ### The meaning -/

namespace Eval

/-- States that evaluations have ended in alike give the same ending. -/
theorem ending?_eq_of_endsLike {st : State} {r r' : EStateM.Result Stop State Value}
    (h : EndsLike False Eq Token.SameBare (Value.Like Eq) r r') (hlevel : st.level = 0)
    (hkept : Kept st r) (hkept' : Kept st r') {ending : Ending} (hending : ending? r = some ending) :
    ending? r' = some ending := by
  cases h with
  | ok hst hv =>
    have hsame := hst.eq (hkept.1.level.trans hlevel) (hkept.2.trans hkept'.2.symm)
    rw [← hending, hv.eq, hsame]
  | @stopped stop stop' st₁ st₁' hst hstop =>
    have hcleared : State.Like Eq Token.SameBare { st₁ with calls := [] } { st₁' with calls := [] } :=
      { hst with calls := .nil }
    have hsame := hcleared.eq (hkept.level.trans hlevel) rfl
    cases hstop with
    | error hsite cause => exact (congrArg (fun st => some (Ending.failed cause st)) hsame.symm).trans hending
    | exhausted => exact (congrArg (fun st => some (Ending.exhausted st)) hsame.symm).trans hending
    | fault f => exact (congrArg (fun st => some (Ending.fault f st)) hsame.symm).trans hending
  | outOfFuel => cases hending

theorem Follows.evaluates {more : Nat} {e e' : Node} (h : Follows more e e') {calls : Nat} {scope : ScopeId}
    {st : State}
    (hlevel : st.level = 0) {ending : Ending} (he : Evaluates calls scope e st ending) :
    Evaluates calls scope e' st ending := by
  obtain ⟨fuel, hending⟩ := he
  have hsame : ∀ t, Token.SameBare t t := fun _ => rfl
  have hends := h calls scope fuel (fuel + more) le_rfl st st (.refl (fun _ => rfl) hsame st)
  have hkept := (steadyWithin fuel).eval calls scope e st
  have hkept' := (steadyWithin (fuel + more)).eval calls scope e' st
  exact ⟨fuel + more, ending?_eq_of_endsLike hends hlevel hkept hkept' hending⟩

theorem sameMeaning_of_bare {e e' : Node} (he : e.Readable) (he' : e'.Readable) (h : e'.bare = e.bare) :
    SameMeaning e e' := by
  intro calls scope st hlevel ending
  constructor
  · intro hends
    have hbare := he.follows_bare.evaluates hlevel hends
    rw [← h] at hbare
    exact he'.bare_follows.evaluates hlevel hbare
  · intro hends
    have hbare := he'.follows_bare.evaluates hlevel hends
    rw [h] at hbare
    exact he.bare_follows.evaluates hlevel hbare

end Eval

/-- An expression that was parsed without diagnostics, and whose numbers are finite, is printed as a text that is parsed
without diagnostics to an expression of the same meaning. -/
theorem sameMeaning_of_source (source : String) (e : Node) (hparsed : parseExpression source = ⟨some e, []⟩)
    (hfinite : ∀ x ∈ e.numbers, x.isFinite = true) :
    ∃ text e', e.source = .ok text ∧ parseExpression text = ⟨some e', []⟩ ∧ SameMeaning e e' := by
  obtain ⟨-, hderives⟩ := (parseExpression_eq_iff source e).mp hparsed
  have hreadable := hderives.readable fun t ht => scan_isScanned ht
  obtain ⟨text, segments, hsource, -, hprints⟩ := hreadable.printed hfinite
  obtain ⟨hbare, hclean⟩ := hprints.scan
  obtain ⟨e', he', hsame⟩ := hprints.derives _ hbare
  have hreadable' := he'.readable fun t ht => scan_isScanned ht
  have hparsed' := (parseExpression_eq_iff text e').mpr ⟨hclean, he'.call_toExpression⟩
  exact ⟨text, e', hsource, hparsed', sameMeaning_of_bare hreadable hreadable' hsame⟩

theorem sameMeaning_of_source_negatedTwo :
    ∃ text e', negatedTwo.source = .ok text ∧ parseExpression text = ⟨some e', []⟩ ∧ SameMeaning negatedTwo e' := by
  apply sameMeaning_of_source "-(2)" negatedTwo parseExpression_negatedTwo
  have hfinite : (Number.ofNumeral ['2']).isFinite = true := by decide +kernel
  simpa [negatedTwo, Node.numbers] using hfinite

/-! ### Infinite numbers -/

/-- A text that is one lexeme on one line. -/
theorem parseExpression_lexeme {kind : Kind} {text : List Char} {e : Node} (h : IsLexeme kind text)
    (hline : '\n' ∉ text)
    (he : Grammar.Derives .primary [.ofLexeme kind text 1] e) :
    parseExpression (String.ofList text) = ⟨some e, []⟩ := by
  have hsplit : Segment.split text = [.lexeme kind text] := by
    have hcut : Segment.split (text ++ []) = .lexeme kind text :: Segment.split [] := h.split (by simp [Delimits])
    simpa [Segment.split] using hcut
  have hbreaks : Scan.lineBreaks text = 0 := List.count_eq_zero.mpr hline
  have hscan : (scan (String.ofList text)).tokens = [.ofLexeme kind text 1] := by
    simp [scan, hsplit, Scan.ofSegments, Segment.text, hbreaks]
  have hclean : (scan (String.ofList text)).diagnostics = [] := by
    simp [scan, hsplit, Scan.ofSegments]
  rw [parseExpression_eq_iff, hscan]
  exact ⟨hclean, he.primary_toCall.call_toExpression⟩

/-- Ten to the power of four hundred, which is past the largest number. -/
def hugeNumeral : List Char := '1' :: List.replicate 400 '0'

def infinityName : Token := .ofLexeme .identifier "Infinity".toList 1

/-- An infinite number is printed as a word, and the word is read as a name that need not be bound. -/
theorem not_sameMeaning_of_infinite : ∃ e text e', parseExpression (String.ofList hugeNumeral) = ⟨some e, []⟩ ∧
    e.source = .ok text ∧ parseExpression text = ⟨some e', []⟩ ∧ ¬ SameMeaning e e' := by
  have hdigits : hugeNumeral.all Char.isDigit = true := by decide +kernel
  have hnumeral : IsLexeme .number hugeNumeral := .numeral (.whole (List.cons_ne_nil _ _) (List.all_eq_true.mp hdigits))
  have hinfinite : Number.ofNumeral hugeNumeral = .infinity := by decide +kernel
  have hvalue : Grammar.Derives .primary [.ofLexeme .number hugeNumeral 1] (.literal (.num .infinity)) := by
    rw [← hinfinite]
    exact .value (.inl rfl)
  have hword : IsLexeme .identifier "Infinity".toList := IsLexeme.keyword (by decide +kernel) (by decide) (by decide)
  have hname : Grammar.Derives .primary [infinityName] (.reference (.token infinityName)) := .name rfl
  refine ⟨.literal (.num .infinity), "Infinity", .reference (.token infinityName), ?_, ?_, ?_, ?_⟩
  · exact parseExpression_lexeme hnumeral (by decide +kernel) hvalue
  · rw [Node.source]
    decide +kernel
  · exact parseExpression_lexeme hword (by decide) hname
  · intro hsame
    let st := State.initial 0 true fun _ => .zero
    have hliteral : Evaluates callLimit State.globals (.literal (.num .infinity)) st (.value (.num .infinity) st) :=
      ⟨1, rfl⟩
    obtain ⟨fuel, hending⟩ := (hsame callLimit State.globals st rfl _).mp hliteral
    cases fuel with
    | zero => cases hending
    | succ fuel =>
      have hundefined : eval (fuel + 1) callLimit State.globals (.reference (.token infinityName)) st =
          .error (.error ⟨infinityName, .undefined infinityName.text⟩) st := by
        rfl
      rw [hundefined] at hending
      cases hending

end LoxLang
