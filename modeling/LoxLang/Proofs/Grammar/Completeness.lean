import LoxLang.Proofs.Grammar.Soundness
/-!
# What is derived is read

On tokens that the rules derive a parser takes all of them, gives the tree of the rules and reports
nothing, whatever stands behind them, as long as that does not go on with what was derived. For an
expression this excludes the operators of its own level and of tighter ones; for a dangling statement
it excludes an `else`.

The induction is over the derivation. Its invariant speaks of every bound that is large enough for all
tokens left, so the bounds of the loops inside a level need no account of their own.
-/

namespace LoxLang.Grammar

variable {α : Type}

theorem Unwanted.mono {wanted wanted' : Kind → Bool} {rest : List Token} (h : Unwanted wanted rest)
    (himp : ∀ k, wanted' k = true → wanted k = true) : Unwanted wanted' rest := by
  intro t ht
  by_contra hne
  have := himp t.kind (by simpa using hne)
  rw [h t ht] at this
  cases this

theorem Unwanted.cons {wanted : Kind → Bool} {t : Token} {rest : List Token} (h : wanted t.kind = false) :
    Unwanted wanted (t :: rest) := by
  simpa [Unwanted] using h

/-- Tokens that start in one of some ways do not start in another one. -/
theorem Unwanted.of_starts {wanted starts : Kind → Bool} {ts : List Token}
    (h : ∃ t after, ts = t :: after ∧ starts t.kind = true) (hother : ∀ k, starts k = true → wanted k = false)
    (more : List Token) : Unwanted wanted (ts ++ more) := by
  obtain ⟨t, after, rfl, ht⟩ := h
  exact .cons (hother t.kind ht)

/-! ### Lists -/

theorem Separated.length_le {pieces : List (List Token)} {ts : List Token} (h : Separated pieces ts) :
    pieces.length ≤ ts.length + 1 := by
  induction h with
  | none => exact Nat.zero_le _
  | one piece => exact Nat.le_add_left _ _
  | more _ _ ih =>
    simp only [List.length_cons, List.length_append] at ih ⊢
    omega

theorem Separated.starts {t : Token} {ts inside : List Token} {pieces : List (List Token)}
    (h : Separated ((t :: ts) :: pieces) inside) : ∃ more, inside = t :: more := by
  cases h with
  | one => exact ⟨ts, rfl⟩
  | more => exact ⟨_, List.cons_append⟩

/-- The tokens behind an item of a list: a comma, or what stands behind the list. -/
def BehindItem (rest r : List Token) : Prop := r = rest ∨ ∃ comma more, comma.kind = .comma ∧ r = comma :: more

theorem commaItems_accepts {item : Parser α} {what : String} {rest : List Token} {most : Nat}
    (hrest : Unwanted (· == .comma) rest) : ∀ {items : List (Phrase α)} {inside : List Token} {bound count : Nat},
    items ≠ [] → items.length ≤ bound → count + items.length ≤ mostItems → (inside ++ rest).length ≤ most →
    Separated (items.map Phrase.tokens) inside →
    (∀ x ∈ items, ∀ r, BehindItem rest r → (x.tokens ++ r).length ≤ most → Accepts item x.tokens x.tree r) →
    Accepts (commaItems what item bound count) inside (items.map Phrase.tree) rest := by
  intro items
  induction items with
  | nil => exact fun hne => absurd rfl hne
  | cons x items ih =>
    intro inside bound count _ hbound hcount hmost hseparated hitems
    obtain ⟨bound, rfl⟩ : ∃ b, bound = b + 1 := ⟨bound - 1, by simp only [List.length_cons] at hbound; omega⟩
    have hbelow : ¬ listLimit ≤ count := by
      simp only [List.length_cons, mostItems] at hcount
      simp only [listLimit]
      omega
    unfold commaItems
    dsimp only
    rw [if_neg hbelow]
    cases items with
    | nil =>
      cases hseparated
      have hx := hitems x (by simp) rest (.inl rfl) hmost
      exact hx.bind_nil (.take?_none hrest (.pure _ _))
    | cons y items =>
      obtain ⟨comma, ts, hcomma, hafter, rfl⟩ : ∃ comma ts, comma.kind = .comma ∧
          Separated ((y :: items).map Phrase.tokens) ts ∧ inside = x.tokens ++ comma :: ts := by
        cases hseparated with
        | more hcomma hafter => exact ⟨_, _, hcomma, hafter, rfl⟩
      simp only [List.length_append, List.length_cons] at hbound hcount hmost
      have hx := hitems x (by simp) (comma :: ts ++ rest) (.inr ⟨comma, ts ++ rest, hcomma, rfl⟩)
        (by simp only [List.length_append, List.length_cons]; omega)
      have hrounds := @ih ts bound (count + 1) (by simp)
        (by simp only [List.length_cons]; omega) (by simp only [List.length_cons]; omega)
        (by simp only [List.length_append]; omega) hafter
        (fun z hz r hr hlength => hitems z (by simp [hz]) r hr hlength)
      exact hx.bind (.take?_some (beq_iff_eq.mpr hcomma) hrounds.map)

theorem commaList_accepts {item : Parser α} {what : String} {items : List (Phrase α)} {inside rest : List Token}
    {closing : Token} {bound most : Nat} (hclosing : closing.kind = .rightParen)
    (hbound : (inside ++ closing :: rest).length ≤ bound) (hmost : (inside ++ closing :: rest).length ≤ most)
    (hwithin : items.length ≤ mostItems) (hseparated : Separated (items.map Phrase.tokens) inside)
    (hstarts : ∀ x ∈ items, ∃ t ts, x.tokens = t :: ts ∧ t.kind ≠ .rightParen)
    (hitems : ∀ x ∈ items, ∀ r, BehindItem (closing :: rest) r → (x.tokens ++ r).length ≤ most →
      Accepts item x.tokens x.tree r) :
    Accepts (commaList bound what item) inside (items.map Phrase.tree) (closing :: rest) := by
  cases items with
  | nil =>
    cases hseparated
    refine .isAt (List.nil_append _) ?_
    rw [hclosing]
    exact .pure _ _
  | cons x items =>
    obtain ⟨t, ts, hx, ht⟩ := hstarts x (by simp)
    have hlength := hseparated.length_le
    rw [List.length_map] at hlength
    have hrounds : (x :: items).length ≤ bound := by
      simp only [List.length_append, List.length_cons] at hbound hlength ⊢
      omega
    obtain ⟨more, rfl⟩ : ∃ more, inside = t :: more := by
      rw [List.map_cons, hx] at hseparated
      exact hseparated.starts
    refine .isAt List.cons_append ?_
    rw [beq_eq_false_iff_ne.mpr ht]
    exact commaItems_accepts (.cons (by simp [hclosing])) (by simp) hrounds (by omega) hmost hseparated hitems

theorem itemsUntil_stop {stop : Cursor → Bool} {item : Parser (Option α)} {bound : Nat} {c : Cursor}
    (h : (stop c || c.atEnd) = true) : itemsUntil stop item (bound + 1) c = .ok [] c := by
  change (if (stop c || c.atEnd) = true then pure [] else _ : Parser (List α)) c = _
  rw [if_pos h]
  rfl

theorem itemsUntil_step {stop : Cursor → Bool} {item : Parser (Option α)} {bound : Nat} {c : Cursor}
    (h : (stop c || c.atEnd) = false) : itemsUntil stop item (bound + 1) c = (do
      let first ← item
      return first.toList ++ (← itemsUntil stop item bound) : Parser (List α)) c := by
  change (if (stop c || c.atEnd) = true then pure [] else _ : Parser (List α)) c = _
  rw [if_neg (by simp [h])]

/-- Items one after the other, each read with the tokens of the others or the end behind it. -/
theorem itemsUntil_accepts {stop : Cursor → Bool} {item : Parser (Option α)} {rest : List Token} {most : Nat}
    (hend : ∀ eof reports, (stop ⟨rest, eof, reports⟩ || rest.isEmpty) = true) :
    ∀ {items : List (Phrase α)} {bound : Nat}, items.length < bound →
    (items.flatMap Phrase.tokens ++ rest).length ≤ most →
    (∀ x ∈ items, ∃ t ts, x.tokens = t :: ts ∧ ∀ more eof reports, stop ⟨t :: more, eof, reports⟩ = false) →
    (∀ x ∈ items, ∀ r, (r = rest ∨ ∃ y ∈ items, ∃ more, r = y.tokens ++ more) → (x.tokens ++ r).length ≤ most →
      Accepts item x.tokens (some x.tree) r) →
    Accepts (itemsUntil stop item bound) (items.flatMap Phrase.tokens) (items.map Phrase.tree) rest := by
  intro items
  induction items with
  | nil =>
    intro bound hbound _ _ _ eof reports
    obtain ⟨bound, rfl⟩ : ∃ b, bound = b + 1 := ⟨bound - 1, by omega⟩
    exact itemsUntil_stop (hend eof reports)
  | cons x items ih =>
    intro bound hbound hmost hstarts hitems eof reports
    obtain ⟨bound, rfl⟩ : ∃ b, bound = b + 1 := ⟨bound - 1, by omega⟩
    rw [List.length_cons] at hbound
    simp only [List.flatMap_cons, List.length_append] at hmost
    have hrest := @ih bound (by omega) (by simp only [List.length_append]; omega)
      (fun y hy => hstarts y (by simp [hy])) (fun y hy r hr => hitems y (by simp [hy]) r (by
        rcases hr with rfl | ⟨z, hz, more, rfl⟩
        · exact .inl rfl
        · exact .inr ⟨z, by simp [hz], more, rfl⟩))
    have hx := hitems x (by simp) (items.flatMap Phrase.tokens ++ rest) (by
      cases items with
      | nil => exact .inl rfl
      | cons y items => exact .inr ⟨y, by simp, _, by rw [List.flatMap_cons, List.append_assoc]⟩)
      (by simp only [List.length_append]; omega)
    obtain ⟨t, ts, htokens, hgo⟩ := hstarts x (by simp)
    have hstart : (x :: items).flatMap Phrase.tokens ++ rest = t :: (ts ++ items.flatMap Phrase.tokens ++ rest) := by
      simp [htokens]
    rw [itemsUntil_step (by rw [hstart, hgo]; rfl)]
    exact hx.bind hrest.map eof reports

/-! ### Where expressions start and go on -/

/-- The kinds that go on with an expression, those of the loosest level first. -/
def continuing : List Kind :=
  [.equal, .kwOr, .kwAnd, .bangEqual, .equalEqual, .greater, .greaterEqual, .less, .lessEqual, .minus, .plus,
   .slash, .star, .leftParen]

namespace Level

/-- The kinds that go on with an expression of a level. -/
def continues (l : Level) (k : Kind) : Bool :=
  match l with
  | assignment => continuing.contains k
  | operation .disjunction => (continuing.drop 1).contains k
  | operation .conjunction => (continuing.drop 2).contains k
  | operation .equality => (continuing.drop 3).contains k
  | operation .comparison => (continuing.drop 5).contains k
  | operation .term => (continuing.drop 9).contains k
  | operation .factor => (continuing.drop 11).contains k
  | unary | call => (continuing.drop 13).contains k
  | primary => false

/-- The kinds that an expression of a level starts with. -/
def starts (l : Level) (k : Kind) : Bool :=
  match l with
  | call | primary => startsPrimary k
  | _ => isSign k || startsPrimary k

def parser (bound : Nat) (whole : Parser Node) : Level → Parser Node
  | assignment => Grammar.assignment bound whole
  | operation .disjunction => disjunction bound whole
  | operation .conjunction => conjunction bound whole
  | operation .equality => equality bound whole
  | operation .comparison => comparison bound whole
  | operation .term => term bound whole
  | operation .factor => factor bound whole
  | unary => Grammar.unary bound whole
  | call => Grammar.call bound whole
  | primary => Grammar.primary whole

end Level

namespace Operation

/-- The operators that the parser of a level looks for. -/
def wanted : Operation → Kind → Bool
  | disjunction => (· == .kwOr)
  | conjunction => (· == .kwAnd)
  | equality => isEqualityOperator
  | comparison => isComparisonOperator
  | term => isTermOperator
  | factor => isFactorOperator

theorem wanted_of_mem {l : Operation} {k : Kind} (h : k ∈ l.operators) : l.wanted k = true := by
  revert h
  cases l <;> cases k <;> decide

/-- The operators of a level do not go on with its operands. -/
theorem not_continues_operand {l : Operation} {k : Kind} (h : k ∈ l.operators) : l.operand.continues k = false := by
  revert h
  cases l <;> cases k <;> decide

theorem continues_of_operand {l : Operation} {k : Kind} (h : l.operand.continues k = true) :
    (Level.operation l).continues k = true := by
  revert h
  cases l <;> cases k <;> decide

theorem continues_of_wanted {l : Operation} {k : Kind} (h : l.wanted k = true) :
    (Level.operation l).continues k = true := by
  revert h
  cases l <;> cases k <;> decide

theorem parser_eq (l : Operation) (bound : Nat) (whole : Parser Node) :
    (Level.operation l).parser bound whole = leftLevel bound l.wanted l.node (l.operand.parser bound whole) := by
  cases l <;> rfl

theorem starts_operand (l : Operation) (k : Kind) : l.operand.starts k = (Level.operation l).starts k := by
  cases l <;> rfl

end Operation

/-- A derived expression is not empty and starts as its level does. -/
theorem Derives.starts {l : Level} {ts : List Token} {e : Node} (h : Derives l ts e) :
    ∃ t more, ts = t :: more ∧ l.starts t.kind = true := by
  induction h with
  | @assign name equals ts value hname => exact ⟨name, equals :: ts, rfl, by simp [Level.starts, hname, startsPrimary]⟩
  | noAssign _ ih => exact ih
  | @operation l ts first tail _ _ _ ih _ =>
    obtain ⟨t, more, rfl, ht⟩ := ih
    exact ⟨t, _, List.cons_append, by rwa [← l.starts_operand]⟩
  | @sign t ts e ht => exact ⟨t, ts, rfl, by rcases ht with ht | ht <;> simp [Level.starts, ht, isSign]⟩
  | noSign _ ih =>
    obtain ⟨t, more, rfl, ht⟩ := ih
    exact ⟨t, more, rfl, by simpa [Level.starts] using Or.inr ht⟩
  | call _ _ _ _ ih _ =>
    obtain ⟨t, more, rfl, ht⟩ := ih
    exact ⟨t, _, List.cons_append, ht⟩
  | @value t ht => exact ⟨t, [], rfl, by rcases ht with ht | ht <;> simp [Level.starts, ht, startsPrimary]⟩
  | @yes t ht | @no t ht | @nil t ht | @name t ht => exact ⟨t, [], rfl, by simp [Level.starts, ht, startsPrimary]⟩
  | @grouping opening closing ts e hopening => exact ⟨opening, _, rfl, by simp [Level.starts, hopening, startsPrimary]⟩

/-! ### Expressions -/

theorem operandsAfter_accepts {l : Operation} {operand : Parser Node} {rest : List Token} {most : Nat}
    (hrest : Unwanted (Level.operation l).continues rest) : ∀ {tail : List Operand} {bound : Nat} {first : Node},
    (tail.flatMap Operand.tokens ++ rest).length ≤ bound → (tail.flatMap Operand.tokens ++ rest).length ≤ most →
    (∀ x ∈ tail, x.operator.kind ∈ l.operators) →
    (∀ x ∈ tail, ∀ r, Unwanted l.operand.continues r → (x.right.tokens ++ r).length ≤ most →
      Accepts operand x.right.tokens x.right.tree r) →
    Accepts (operandsAfter l.wanted l.node operand bound first) (tail.flatMap Operand.tokens)
      (tail.foldl (Operand.onto l) first) rest := by
  intro tail
  induction tail with
  | nil =>
    intro bound first _ _ _ _
    cases bound with
    | zero => exact .pure _ _
    | succ bound => exact .take?_none (hrest.mono fun _ => Operation.continues_of_wanted) (.pure _ _)
  | cons x tail ih =>
    intro bound first hbound hmost hoperators hoperands
    simp only [List.flatMap_cons, Operand.tokens, List.length_append, List.length_cons] at hbound hmost
    obtain ⟨bound, rfl⟩ : ∃ b, bound = b + 1 := ⟨bound - 1, by omega⟩
    have hbehind : Unwanted l.operand.continues (tail.flatMap Operand.tokens ++ rest) := by
      cases tail with
      | nil => exact hrest.mono fun _ => Operation.continues_of_operand
      | cons y tail => exact .cons (Operation.not_continues_operand (hoperators y (by simp)))
    have hright := hoperands x (by simp) _ hbehind (by simp only [List.length_append]; omega)
    have hloop := @ih bound (Operand.onto l first x) (by simp only [List.length_append]; omega)
      (by simp only [List.length_append]; omega) (fun y hy => hoperators y (by simp [hy]))
      (fun y hy => hoperands y (by simp [hy]))
    exact .take?_some (Operation.wanted_of_mem (hoperators x (by simp))) (hright.bind hloop)

/-- An operand alone is an operation without operators. -/
theorem leftLevel_accepts_operand {l : Operation} {operand : Parser Node} {bound : Nat} {ts rest : List Token} {e : Node}
    (h : Accepts operand ts e rest) (hrest : Unwanted l.wanted rest) :
    Accepts (leftLevel bound l.wanted l.node operand) ts e rest := by
  apply h.bind_nil
  cases bound with
  | zero => exact .pure _ _
  | succ bound => exact .take?_none hrest (.pure _ _)

theorem callsAfter_accepts {whole : Parser Node} {rest : List Token} {most : Nat}
    (hrest : Unwanted Level.call.continues rest) : ∀ {tail : List Arguments} {bound : Nat} {callee : Node},
    (tail.flatMap Arguments.tokens ++ rest).length ≤ bound → (tail.flatMap Arguments.tokens ++ rest).length ≤ most →
    (∀ x ∈ tail, x.Enclosed) →
    (∀ x ∈ tail, ∀ item ∈ x.items, Derives .assignment item.tokens item.tree) →
    (∀ x ∈ tail, ∀ item ∈ x.items, ∀ r, Unwanted Level.assignment.continues r → (item.tokens ++ r).length < most →
      Accepts whole item.tokens item.tree r) →
    Accepts (callsAfter whole bound callee) (tail.flatMap Arguments.tokens) (tail.foldl Arguments.onto callee) rest := by
  intro tail
  induction tail with
  | nil =>
    intro bound callee _ _ _ _ _
    cases bound with
    | zero => exact .pure _ _
    | succ bound => exact .take?_none (hrest.mono fun _ => by simp [Level.continues, continuing]) (.pure _ _)
  | cons x tail ih =>
    intro bound callee hbound hmost henclosed hderives hitems
    have hx := henclosed x (by simp)
    simp only [List.flatMap_cons, Arguments.tokens, List.length_append, List.length_cons, List.length_nil] at hbound hmost
    obtain ⟨bound, rfl⟩ : ∃ b, bound = b + 1 := ⟨bound - 1, by omega⟩
    have hstarts : ∀ item ∈ x.items, ∃ t ts, item.tokens = t :: ts ∧ t.kind ≠ .rightParen := by
      intro item hitem
      obtain ⟨t, ts, htokens, ht⟩ := (hderives x (by simp) item hitem).starts
      refine ⟨t, ts, htokens, fun hkind => ?_⟩
      rw [hkind] at ht
      cases ht
    have hinside : (x.inside ++ x.closing :: (tail.flatMap Arguments.tokens ++ rest)).length < most := by
      simp only [List.length_append, List.length_cons]
      omega
    have harguments : Accepts (commaList (bound + 1) "arguments" whole) x.inside (x.items.map Phrase.tree)
        (x.closing :: (tail.flatMap Arguments.tokens ++ rest)) := by
      refine commaList_accepts hx.closing ?_ (Nat.le_sub_one_of_lt hinside) hx.within hx.separated hstarts ?_
      · simp only [List.length_append, List.length_cons]
        omega
      · intro item hitem r hr hlength
        refine hitems x (by simp) item hitem r ?_ (by omega)
        rcases hr with rfl | ⟨comma, more, hcomma, rfl⟩
        · exact .cons (by rw [hx.closing]; rfl)
        · exact .cons (by rw [hcomma]; rfl)
    have hloop := @ih bound (Arguments.onto callee x) (by simp only [List.length_append]; omega)
      (by simp only [List.length_append]; omega) (fun y hy => henclosed y (by simp [hy]))
      (fun y hy => hderives y (by simp [hy])) (fun y hy => hitems y (by simp [hy]))
    have htokens : (x :: tail).flatMap Arguments.tokens
        = x.opening :: (x.inside ++ x.closing :: tail.flatMap Arguments.tokens) := by
      simp [Arguments.tokens]
    rw [htokens]
    exact .take?_some (beq_iff_eq.mpr hx.opening) (harguments.bind (.expect hx.closing hloop))

/-- The primary expressions of one token. -/
def IsAtom (t : Token) (e : Node) : Prop :=
  (t.kind = .number ∨ t.kind = .string) ∧ e = .literal (.ofScalar t.literal) ∨
    t.kind = .kwTrue ∧ e = .literal (.bool true) ∨ t.kind = .kwFalse ∧ e = .literal (.bool false) ∨
    t.kind = .kwNil ∧ e = .literal .null ∨ t.kind = .identifier ∧ e = .reference (.token t)

theorem primary_accepts_atom {whole : Parser Node} {t : Token} {e : Node} (h : IsAtom t e) (rest : List Token) :
    Accepts (primary whole) [t] e rest := by
  rcases h with ⟨ht | ht, rfl⟩ | ⟨ht, rfl⟩ | ⟨ht, rfl⟩ | ⟨ht, rfl⟩ | ⟨ht, rfl⟩
  all_goals
    refine .take?_some (by rw [ht]; rfl) ?_
    dsimp only
    rw [ht]
    exact .pure _ _

theorem unary_accepts_call {whole : Parser Node} {bound : Nat} {ts rest : List Token} {e : Node}
    (hstarts : ∃ t more, ts = t :: more ∧ startsPrimary t.kind = true) (h : Accepts (call bound whole) ts e rest) :
    Accepts (unary bound whole) ts e rest := by
  obtain ⟨t, more, rfl, ht⟩ := hstarts
  have hsign : isSign t.kind = false := by
    cases hkind : t.kind <;> simp_all [startsPrimary, isSign]
  intro eof reports
  have hsigns : takeAll isSign ⟨t :: more ++ rest, eof, reports⟩ = .ok [] ⟨t :: more ++ rest, eof, reports⟩ := by
    simp only [takeAll, List.cons_append, List.takeWhile_cons, List.dropWhile_cons, hsign, Bool.false_eq_true,
      if_false]
  rw [unary, bind_ok hsigns, bind_ok (h eof reports)]
  rfl

theorem unary_accepts_sign {whole : Parser Node} {bound : Nat} {t : Token} {ts rest : List Token} {e : Node}
    (ht : isSign t.kind = true) (h : Accepts (unary bound whole) ts e rest) :
    Accepts (unary bound whole) (t :: ts) (.unary (.token t) e) rest := by
  intro eof reports
  have hrun := h eof reports
  have hsigns : takeAll isSign ⟨t :: ts ++ rest, eof, reports⟩
      = .ok (t :: (ts ++ rest).takeWhile (isSign ·.kind)) ⟨(ts ++ rest).dropWhile (isSign ·.kind), eof, reports⟩ := by
    simp only [takeAll, List.cons_append, List.takeWhile_cons, List.dropWhile_cons, ht, if_true]
  have hless : takeAll isSign ⟨ts ++ rest, eof, reports⟩
      = .ok ((ts ++ rest).takeWhile (isSign ·.kind)) ⟨(ts ++ rest).dropWhile (isSign ·.kind), eof, reports⟩ := rfl
  rw [unary, bind_ok hless] at hrun
  rw [unary, bind_ok hsigns]
  cases hcall : call bound whole ⟨(ts ++ rest).dropWhile (isSign ·.kind), eof, reports⟩ with
  | error p c => rw [bind_error hcall] at hrun; cases hrun
  | ok operand c =>
    rw [bind_ok hcall] at hrun ⊢
    cases hrun
    rfl

/-- A name in front of an equals sign passes through all levels of operations. -/
theorem disjunction_accepts_name {whole : Parser Node} {bound : Nat} {t equals : Token} (ht : t.kind = .identifier)
    (hequals : equals.kind = .equal) (rest : List Token) :
    Accepts (disjunction bound whole) [t] (.reference (.token t)) (equals :: rest) := by
  have hcall : Accepts (call bound whole) [t] (.reference (.token t)) (equals :: rest) := by
    refine (primary_accepts_atom (.inr (.inr (.inr (.inr ⟨ht, rfl⟩)))) _).bind_nil ?_
    cases bound with
    | zero => exact .pure _ _
    | succ bound => exact .take?_none (.cons (by rw [hequals]; rfl)) (.pure _ _)
  have hunary := unary_accepts_call ⟨t, [], rfl, by rw [ht]; rfl⟩ hcall
  have hstop (l : Operation) : Unwanted l.wanted (equals :: rest) := .cons (by rw [hequals]; cases l <;> rfl)
  have hfactor : Accepts (factor bound whole) _ _ _ := leftLevel_accepts_operand hunary (hstop .factor)
  have hterm : Accepts (term bound whole) _ _ _ := leftLevel_accepts_operand hfactor (hstop .term)
  have hcomparison : Accepts (comparison bound whole) _ _ _ := leftLevel_accepts_operand hterm (hstop .comparison)
  have hequality : Accepts (equality bound whole) _ _ _ := leftLevel_accepts_operand hcomparison (hstop .equality)
  have hconjunction : Accepts (conjunction bound whole) _ _ _ := leftLevel_accepts_operand hequality (hstop .conjunction)
  exact leftLevel_accepts_operand hconjunction (hstop .disjunction)

/-- A derived expression is accepted at its level if the bound is at least the number of tokens left. -/
theorem Derives.accepts {l : Level} {ts : List Token} {e : Node} (h : Derives l ts e) : ∀ {bound : Nat} {rest : List Token},
    (ts ++ rest).length ≤ bound → Unwanted l.continues rest →
    Accepts (l.parser bound (expression bound)) ts e rest := by
  induction h with
  | @assign name equals ts value hname hequals _ ih =>
    intro bound rest hbound hrest
    simp only [List.cons_append, List.length_cons] at hbound
    obtain ⟨bound, rfl⟩ : ∃ b, bound = b + 1 := ⟨bound - 1, by omega⟩
    have hvalue : Accepts (expression (bound + 1)) ts value rest := ih (by omega) hrest
    have hname : Accepts (disjunction (bound + 1) (expression (bound + 1))) [name] (.reference (.token name))
        (equals :: ts ++ rest) := disjunction_accepts_name hname hequals (ts ++ rest)
    refine hname.bind (.take?_some (beq_iff_eq.mpr hequals) ?_)
    exact hvalue.map
  | noAssign _ ih =>
    intro bound rest hbound hrest
    refine (ih hbound (hrest.mono fun k => ?_)).bind_nil (.take?_none (hrest.mono fun k => ?_) (.pure _ _))
    · cases k <;> decide
    · cases k <;> decide
  | @operation l ts first tail _ hoperators _ ihfirst ihtail =>
    intro bound rest hbound hrest
    rw [Operation.parser_eq]
    have hbehind : Unwanted l.operand.continues (tail.flatMap Operand.tokens ++ rest) := by
      cases tail with
      | nil => exact hrest.mono fun _ => Operation.continues_of_operand
      | cons x tail => exact .cons (Operation.not_continues_operand (hoperators x (by simp)))
    rw [List.append_assoc] at hbound
    have hless : (tail.flatMap Operand.tokens ++ rest).length ≤ bound := by
      rw [List.length_append] at hbound
      omega
    refine (ihfirst hbound hbehind).bind (operandsAfter_accepts hrest hless hless hoperators ?_)
    exact fun x hx r hr hlength => ihtail x hx hlength hr
  | sign ht _ ih =>
    intro bound rest hbound hrest
    refine unary_accepts_sign ?_ (ih (by simp only [List.cons_append, List.length_cons] at hbound; omega) hrest)
    rcases ht with ht | ht <;> rw [ht] <;> rfl
  | noSign h ih =>
    intro bound rest hbound hrest
    exact unary_accepts_call h.starts (ih hbound hrest)
  | @call ts callee tail _ henclosed hderives ihcallee ihitems =>
    intro bound rest hbound hrest
    rw [List.append_assoc] at hbound
    have hless : (tail.flatMap Arguments.tokens ++ rest).length ≤ bound := by
      rw [List.length_append] at hbound
      omega
    refine (ihcallee hbound fun _ _ => rfl).bind (callsAfter_accepts hrest hless hless henclosed hderives ?_)
    intro x hx item hitem r hr hlength
    obtain ⟨bound, rfl⟩ : ∃ b, bound = b + 1 := ⟨bound - 1, by omega⟩
    exact ihitems x hx item hitem (by omega) hr
  | value ht => exact fun _ _ => primary_accepts_atom (.inl ⟨ht, rfl⟩) _
  | yes ht => exact fun _ _ => primary_accepts_atom (.inr (.inl ⟨ht, rfl⟩)) _
  | no ht => exact fun _ _ => primary_accepts_atom (.inr (.inr (.inl ⟨ht, rfl⟩))) _
  | nil ht => exact fun _ _ => primary_accepts_atom (.inr (.inr (.inr (.inl ⟨ht, rfl⟩)))) _
  | name ht => exact fun _ _ => primary_accepts_atom (.inr (.inr (.inr (.inr ⟨ht, rfl⟩)))) _
  | @grouping opening closing ts e hopening hclosing _ ih =>
    intro bound rest hbound hrest
    simp only [List.length_append, List.length_cons, List.length_nil] at hbound
    obtain ⟨bound, rfl⟩ : ∃ b, bound = b + 1 := ⟨bound - 1, by omega⟩
    have hinner : Accepts (expression (bound + 1)) ts e (closing :: rest) :=
      ih (by simp only [List.length_append, List.length_cons]; omega) (.cons (by rw [hclosing]; rfl))
    refine .take?_some (by rw [hopening]; rfl) ?_
    dsimp only
    rw [hopening]
    exact hinner.bind (.expect hclosing (.pure _ _))

theorem DerivesExpression.accepts {ts rest : List Token} {e : Node} {bound : Nat} (h : DerivesExpression ts e)
    (hbound : (ts ++ rest).length < bound) (hrest : Unwanted Level.assignment.continues rest) :
    Accepts (expression bound) ts e rest := by
  obtain ⟨bound, rfl⟩ : ∃ b, bound = b + 1 := ⟨bound - 1, by omega⟩
  exact Derives.accepts h (by omega) hrest

/-! ### Statements -/

/-- The kinds that a statement or a declaration starts with. -/
def Symbol.starts (symbol : Symbol) (k : Kind) : Bool :=
  match symbol with
  | .statement _ => startsPlainStatement k || Level.assignment.starts k
  | .declaration => k == .kwFun || k == .kwVar || startsPlainStatement k || Level.assignment.starts k

theorem DerivesStatement.starts {symbol : Symbol} {f : Bool} {ts : List Token} {s : Node}
    (h : DerivesStatement symbol f ts s) : ∃ t more, ts = t :: more ∧ symbol.starts t.kind = true := by
  induction h with
  | statement _ ih =>
    obtain ⟨t, more, rfl, ht⟩ := ih
    simp only [Symbol.starts] at ht
    exact ⟨t, more, rfl, by simp [Symbol.starts, Bool.or_assoc, ht]⟩
  | expression h =>
    obtain ⟨t, more, rfl, ht⟩ := Derives.starts h
    exact ⟨t, _, List.cons_append, by simp [Symbol.starts, ht]⟩
  | var hkeyword | function _ _ hkeyword | print hkeyword | ret hkeyword | block _ hkeyword
  | branch hkeyword | branchElse hkeyword | loop hkeyword | forLoop hkeyword =>
    exact ⟨_, _, rfl, by rw [hkeyword]; rfl⟩

section

variable {bound : Nat} {ts rest : List Token}

theorem semicolon_accepts {what : String} {build : Node → Node} {e : Node} {semicolon : Token}
    (h : DerivesExpression ts e) (hsemicolon : semicolon.kind = .semicolon)
    (hbound : (ts ++ semicolon :: rest).length < bound) : Accepts (do
      let value ← expression bound
      let _ ← expect .semicolon what
      return build value) (ts ++ [semicolon]) (build e) rest := by
  have hvalue : Accepts (expression bound) ts e ([semicolon] ++ rest) :=
    h.accepts hbound (.cons (by rw [hsemicolon]; rfl))
  exact hvalue.bind (.expect hsemicolon (.pure _ _))

theorem optionalUnless_accepts {kind : Kind} {o : Option Node} {t : Token} (h : DerivesOptional ts o) (ht : t.kind = kind)
    (hkind : kind = .semicolon ∨ kind = .rightParen) (hbound : (ts ++ t :: rest).length < bound) :
    Accepts (optionalUnless bound kind) ts o (t :: rest) := by
  cases h with
  | none =>
    refine .isAt (List.nil_append _) ?_
    rw [beq_iff_eq.mpr ht]
    exact .pure _ _
  | @some _ e h =>
    obtain ⟨first, more, rfl, hfirst⟩ := Derives.starts h
    have hne : (first.kind == kind) = false := by
      rw [beq_eq_false_iff_ne]
      intro hsame
      rw [hsame] at hfirst
      rcases hkind with rfl | rfl <;> cases hfirst
    refine .isAt List.cons_append ?_
    rw [hne]
    have hstop : Unwanted Level.assignment.continues (t :: rest) :=
      .cons (by rw [ht]; rcases hkind with rfl | rfl <;> rfl)
    exact (h.accepts hbound hstop).map

theorem variableDeclaration_accepts {s : Node} (h : DerivesVariable ts s) (hbound : (ts ++ rest).length < bound) :
    Accepts (variableDeclaration bound) ts s rest := by
  cases h with
  | bare hname hsemicolon =>
    refine .expect hname (.take?_none (.cons (by rw [hsemicolon]; rfl)) ?_)
    simp only [pure_bind]
    exact .expect hsemicolon (.pure _ _)
  | @initial name equals semicolon ts e hname hequals h hsemicolon =>
    simp only [List.length_append, List.length_cons, List.length_nil] at hbound
    refine .expect hname (.take?_some (beq_iff_eq.mpr hequals) ?_)
    have hvalue : Accepts (expression bound) ts e ([semicolon] ++ rest) := by
      refine h.accepts ?_ (.cons (by rw [hsemicolon]; rfl))
      simp only [List.length_append, List.length_cons, List.length_nil]
      omega
    exact hvalue.bind (.expect hsemicolon (.pure _ _))

theorem forInitial_accepts {o : Option Node} (h : DerivesInitial ts o) (hbound : (ts ++ rest).length < bound) :
    Accepts (forInitial bound) ts o rest := by
  cases h with
  | none hsemicolon =>
    refine .take?_some (by rw [hsemicolon]; rfl) ?_
    simp only [hsemicolon]
    exact .pure _ _
  | var hkeyword h =>
    refine .take?_some (by rw [hkeyword]; rfl) ?_
    simp only [hkeyword]
    refine (variableDeclaration_accepts h ?_).map
    simp only [List.cons_append, List.length_cons] at hbound
    omega
  | @expression semicolon ts e h hsemicolon =>
    rw [List.append_assoc] at hbound
    refine .take?_none ?_ (semicolon_accepts h hsemicolon hbound).map
    rw [List.append_assoc]
    exact .of_starts (Derives.starts h) (by intro k; cases k <;> decide) _

theorem DerivesStatement.length_le_flatMap {symbol : Symbol} {f : Bool} {items : List (Phrase Node)}
    (h : ∀ x ∈ items, DerivesStatement symbol f x.tokens x.tree) : items.length ≤ (items.flatMap Phrase.tokens).length := by
  induction items with
  | nil => exact le_rfl
  | cons x items ih =>
    obtain ⟨t, more, htokens, -⟩ := (h x (by simp)).starts
    have := ih fun y hy => h y (by simp [hy])
    simp only [List.flatMap_cons, htokens, List.length_cons, List.length_append]
    omega

/-- Being read as a statement or a declaration: the bound covers every token twice, and what stands behind does
not go on with what is read. -/
def AcceptedAs : Symbol → (f : Bool) → List Token → Node → Prop
  | .statement dangling, f, ts, s => ∀ bound rest, 2 * (ts ++ rest).length + 2 ≤ bound →
      (dangling = true → Unwanted (· == .kwElse) rest) → Accepts (statement bound f) ts s rest
  | .declaration, f, ts, s => ∀ bound rest, 2 * (ts ++ rest).length + 3 ≤ bound →
      Unwanted (· == .kwElse) rest → Accepts (declaration bound f) ts (some s) rest

theorem block_accepts {f : Bool} {inner : Nat} {body : List (Phrase Node)} {close : Token}
    (hbody : ∀ x ∈ body, DerivesStatement .declaration f x.tokens x.tree)
    (haccepted : ∀ x ∈ body, AcceptedAs .declaration f x.tokens x.tree) (hclose : close.kind = .rightBrace)
    (hinner : 2 * (body.flatMap Phrase.tokens ++ close :: rest).length + 3 ≤ inner)
    (hbound : (body.flatMap Phrase.tokens ++ close :: rest).length ≤ bound) :
    Accepts (block bound (declaration inner f)) (body.flatMap Phrase.tokens ++ [close]) (body.map Phrase.tree) rest := by
  have hstarts : ∀ x ∈ body, ∃ t ts, x.tokens = t :: ts ∧ ∀ more eof reports,
      Cursor.isAt .rightBrace ⟨t :: more, eof, reports⟩ = false := by
    intro x hx
    obtain ⟨t, more, htokens, ht⟩ := (hbody x hx).starts
    refine ⟨t, more, htokens, fun _ _ _ => ?_⟩
    change (t.kind == .rightBrace) = false
    rw [beq_eq_false_iff_ne]
    intro hkind
    rw [hkind] at ht
    cases ht
  have hcount := DerivesStatement.length_le_flatMap hbody
  have hitems : Accepts (itemsUntil (Cursor.isAt .rightBrace) (declaration inner f) bound) (body.flatMap Phrase.tokens)
      (body.map Phrase.tree) ([close] ++ rest) := by
    refine itemsUntil_accepts (fun _ _ => ?_) ?_ le_rfl hstarts fun x hx r hr hlength => ?_
    · change (close.kind == .rightBrace || _) = true
      rw [hclose]
      rfl
    · simp only [List.length_append, List.length_cons] at hbound
      omega
    · apply haccepted x hx inner r (by simp only [List.singleton_append] at hlength; omega)
      rcases hr with rfl | ⟨y, hy, more, rfl⟩
      · exact .cons (by rw [hclose]; rfl)
      · exact .of_starts (hbody y hy).starts (by intro k; cases k <;> decide) more
  exact hitems.bind (.expect hclose (.pure _ _))

theorem functionDeclaration_accepts {inner : Nat} {name opening closing brace close : Token} {inside params : List Token}
    {body : List (Phrase Node)} (hname : name.kind = .identifier) (hopening : opening.kind = .leftParen)
    (hparams : ∀ p ∈ params, p.kind = .identifier) (hinside : Separated (params.map fun p => [p]) inside)
    (hwithin : params.length ≤ mostItems) (hclosing : closing.kind = .rightParen) (hbrace : brace.kind = .leftBrace)
    (hbody : ∀ x ∈ body, DerivesStatement .declaration true x.tokens x.tree)
    (haccepted : ∀ x ∈ body, AcceptedAs .declaration true x.tokens x.tree) (hclose : close.kind = .rightBrace)
    (hinner : 2 * (body.flatMap Phrase.tokens ++ close :: rest).length + 3 ≤ inner)
    (hbound : (inside ++ closing :: brace :: body.flatMap Phrase.tokens ++ close :: rest).length ≤ bound) :
    Accepts (functionDeclaration bound (declaration inner true))
      (name :: opening :: (inside ++ closing :: brace :: (body.flatMap Phrase.tokens ++ [close])))
      (.function (.token name) (params.map .token) (body.map Phrase.tree)) rest := by
  have hnames : Accepts (commaList bound "parameters" (expect .identifier "parameter name")) inside params
      (closing :: (brace :: (body.flatMap Phrase.tokens ++ [close])) ++ rest) := by
    have hlength : (inside ++ closing :: (brace :: (body.flatMap Phrase.tokens ++ [close]) ++ rest)).length ≤ bound := by
      simpa using hbound
    have hitems : Accepts (commaList bound "parameters" (expect .identifier "parameter name")) inside
        ((params.map fun p => (⟨[p], p⟩ : Phrase Token)).map Phrase.tree)
        (closing :: (brace :: (body.flatMap Phrase.tokens ++ [close]) ++ rest)) := by
      apply commaList_accepts hclosing hlength hlength (by simpa using hwithin)
      · simpa [Function.comp_def] using hinside
      · intro x hx
        obtain ⟨p, hp, rfl⟩ := List.mem_map.mp hx
        exact ⟨p, [], rfl, by simp [hparams p hp]⟩
      · intro x hx r _ _
        obtain ⟨p, hp, rfl⟩ := List.mem_map.mp hx
        rw [← bind_pure (expect _ _)]
        exact .expect (hparams p hp) (.pure _ _)
    simpa [Function.comp_def] using hitems
  have hblock : Accepts (block bound (declaration inner true)) _ _ rest :=
    block_accepts hbody haccepted hclose hinner (by simp only [List.length_append, List.length_cons] at hbound ⊢; omega)
  refine .expect hname (.expect hopening (hnames.bind (.expect hclosing (.expect hbrace ?_))))
  exact hblock.map

theorem DerivesStatement.accepted {symbol : Symbol} {f : Bool} {ts : List Token} {s : Node}
    (h : DerivesStatement symbol f ts s) : AcceptedAs symbol f ts s := by
  induction h with
  | @statement dangling f ts s h ih =>
    intro bound rest hbound hrest
    obtain ⟨bound, rfl⟩ : ∃ b, bound = b + 1 := ⟨bound - 1, by omega⟩
    refine .recover (.take?_none ?_ (ih bound rest (by omega) fun _ => hrest))
    exact .of_starts h.starts (by intro k; cases dangling <;> cases k <;> decide) rest
  | @var f keyword ts s hkeyword h =>
    intro bound rest hbound hrest
    obtain ⟨bound, rfl⟩ : ∃ b, bound = b + 1 := ⟨bound - 1, by omega⟩
    refine .recover (.take?_some (by rw [hkeyword]; rfl) ?_)
    simp only [hkeyword]
    apply variableDeclaration_accepts h
    simp only [List.cons_append, List.length_cons] at hbound
    omega
  | @function f keyword name opening closing brace close inside params body hkeyword hname hopening hparams hinside
      hwithin hclosing hbrace hbody hclose ih =>
    intro bound rest hbound hrest
    obtain ⟨bound, rfl⟩ : ∃ b, bound = b + 1 := ⟨bound - 1, by omega⟩
    simp only [List.length_append, List.length_cons, List.length_nil] at hbound
    rw [List.append_assoc, List.cons_append, List.cons_append, List.cons_append, List.cons_append, List.cons_append]
    refine .recover (.take?_some (by rw [hkeyword]; rfl) ?_)
    simp only [hkeyword]
    apply functionDeclaration_accepts hname hopening hparams hinside hwithin hclosing hbrace hbody ih hclose
    all_goals
      simp only [List.length_append, List.length_cons]
      omega
  | @expression f semicolon ts e h hsemicolon =>
    intro bound rest hbound _
    obtain ⟨bound, rfl⟩ : ∃ b, bound = b + 1 := ⟨bound - 1, by omega⟩
    simp only [List.length_append, List.length_cons, List.length_nil] at hbound
    refine .take?_none ?_ (semicolon_accepts h hsemicolon ?_)
    · rw [List.append_assoc]
      exact .of_starts (Derives.starts h) (by intro k; cases k <;> decide) _
    · simp only [List.length_append, List.length_cons]
      omega
  | @print f keyword semicolon ts e hkeyword h hsemicolon =>
    intro bound rest hbound _
    obtain ⟨bound, rfl⟩ : ∃ b, bound = b + 1 := ⟨bound - 1, by omega⟩
    simp only [List.length_append, List.length_cons, List.length_nil] at hbound
    refine .take?_some (by rw [hkeyword]; rfl) ?_
    simp only [hkeyword]
    apply semicolon_accepts h hsemicolon
    simp only [List.length_append, List.length_cons]
    omega
  | @ret keyword semicolon ts value hkeyword h hsemicolon =>
    intro bound rest hbound _
    obtain ⟨bound, rfl⟩ : ∃ b, bound = b + 1 := ⟨bound - 1, by omega⟩
    simp only [List.length_append, List.length_cons, List.length_nil] at hbound
    have hvalue : Accepts (optionalUnless bound .semicolon) ts value ([semicolon] ++ rest) := by
      apply optionalUnless_accepts h hsemicolon (.inl rfl)
      simp only [List.append_eq, List.length_append, List.length_cons, List.length_nil]
      omega
    refine .take?_some (by rw [hkeyword]; rfl) ?_
    simp only [hkeyword]
    exact hvalue.bind (.expect hsemicolon (.pure _ _))
  | @block f brace close body hbrace hbody hclose ih =>
    intro bound rest hbound _
    obtain ⟨bound, rfl⟩ : ∃ b, bound = b + 1 := ⟨bound - 1, by omega⟩
    simp only [List.length_append, List.length_cons, List.length_nil] at hbound
    have hblock : Accepts (Grammar.block bound (declaration bound f)) (body.flatMap Phrase.tokens ++ [close])
        (body.map Phrase.tree) rest := by
      apply block_accepts hbody ih hclose
      all_goals
        simp only [List.length_append, List.length_cons]
        omega
    refine .take?_some (by rw [hbrace]; rfl) ?_
    simp only [hbrace]
    exact hblock.map
  | @branch dangling f keyword opening closing ts yes condition s hkeyword hopening hcondition hclosing hyes ih =>
    intro bound rest hbound hrest
    obtain ⟨bound, rfl⟩ : ∃ b, bound = b + 1 := ⟨bound - 1, by omega⟩
    simp only [List.length_append, List.length_cons] at hbound
    have hcond : Accepts (Grammar.expression bound) ts condition (closing :: yes ++ rest) := by
      refine hcondition.accepts ?_ (.cons (by rw [hclosing]; rfl))
      simp only [List.length_append, List.length_cons]
      omega
    have hthen : Accepts (Grammar.statement bound f) yes s rest :=
      ih bound rest (by simp only [List.length_append]; omega) fun _ => hrest rfl
    refine .take?_some (by rw [hkeyword]; rfl) ?_
    simp only [hkeyword]
    refine .expect hopening (hcond.bind (.expect hclosing (hthen.bind_nil (.take?_none (hrest rfl) ?_))))
    exact .pure _ _
  | @branchElse dangling f keyword opening closing otherwise ts yes no condition s t hkeyword hopening hcondition hclosing
      hyes hotherwise hno ihyes ihno =>
    intro bound rest hbound hrest
    obtain ⟨bound, rfl⟩ : ∃ b, bound = b + 1 := ⟨bound - 1, by omega⟩
    simp only [List.length_append, List.length_cons] at hbound
    have hcond : Accepts (Grammar.expression bound) ts condition (closing :: (yes ++ otherwise :: no) ++ rest) := by
      refine hcondition.accepts ?_ (.cons (by rw [hclosing]; rfl))
      simp only [List.length_append, List.length_cons]
      omega
    have hthen : Accepts (Grammar.statement bound f) yes s (otherwise :: no ++ rest) :=
      ihyes bound _ (by simp only [List.length_append, List.length_cons]; omega) (by simp)
    have helse : Accepts (Grammar.statement bound f) no t rest :=
      ihno bound rest (by simp only [List.length_append]; omega) hrest
    rw [List.append_assoc, List.cons_append, List.cons_append, List.cons_append]
    refine .take?_some (by rw [hkeyword]; rfl) ?_
    simp only [hkeyword]
    refine .expect hopening (hcond.bind (.expect hclosing (hthen.bind (.take?_some (beq_iff_eq.mpr hotherwise) ?_))))
    exact helse.map
  | @loop dangling f keyword opening closing ts body condition s hkeyword hopening hcondition hclosing hbody ih =>
    intro bound rest hbound hrest
    obtain ⟨bound, rfl⟩ : ∃ b, bound = b + 1 := ⟨bound - 1, by omega⟩
    simp only [List.length_append, List.length_cons] at hbound
    have hcond : Accepts (Grammar.expression bound) ts condition (closing :: body ++ rest) := by
      refine hcondition.accepts ?_ (.cons (by rw [hclosing]; rfl))
      simp only [List.length_append, List.length_cons]
      omega
    have hinner : Accepts (Grammar.statement bound f) body s rest :=
      ih bound rest (by simp only [List.length_append]; omega) hrest
    refine .take?_some (by rw [hkeyword]; rfl) ?_
    simp only [hkeyword]
    refine .expect hopening (hcond.bind (.expect hclosing ?_))
    exact hinner.map
  | @forLoop dangling f keyword opening semicolon closing is cs ns body initial condition increment s hkeyword hopening
      hinitial hcondition hsemicolon hincrement hclosing hbody ih =>
    intro bound rest hbound hrest
    obtain ⟨bound, rfl⟩ : ∃ b, bound = b + 1 := ⟨bound - 1, by omega⟩
    simp only [List.length_append, List.length_cons] at hbound
    have hfirst : Accepts (forInitial bound) is initial (cs ++ semicolon :: (ns ++ closing :: body) ++ rest) := by
      apply forInitial_accepts hinitial
      simp only [List.length_append, List.length_cons]
      omega
    have hcond : Accepts (optionalUnless bound .semicolon) cs condition (semicolon :: (ns ++ closing :: body) ++ rest) := by
      apply optionalUnless_accepts hcondition hsemicolon (.inl rfl)
      simp only [List.append_eq, List.length_append, List.length_cons]
      omega
    have hstep : Accepts (optionalUnless bound .rightParen) ns increment (closing :: body ++ rest) := by
      apply optionalUnless_accepts hincrement hclosing (.inr rfl)
      simp only [List.append_eq, List.length_append, List.length_cons]
      omega
    have hinner : Accepts (Grammar.statement bound f) body s rest :=
      ih bound rest (by simp only [List.length_append]; omega) hrest
    have htokens : keyword :: opening :: is ++ cs ++ semicolon :: ns ++ closing :: body
        = keyword :: opening :: (is ++ (cs ++ semicolon :: (ns ++ closing :: body))) := by
      simp
    rw [htokens, ← desugarFor_eq]
    refine .take?_some (by rw [hkeyword]; rfl) ?_
    simp only [hkeyword]
    refine .expect hopening (hfirst.bind (hcond.bind (.expect hsemicolon (hstep.bind (.expect hclosing ?_)))))
    exact hinner.map

end

end LoxLang.Grammar
