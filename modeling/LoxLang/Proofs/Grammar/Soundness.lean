import LoxLang.Proofs.Grammar.Rules
import LoxLang.Proofs.Grammar.Steps
/-!
# What a parser reads is derived

A parser that reports nothing has taken tokens that the rules derive, with the tree they give them.
Every level of expressions is shown to read what its level derives, for any parser of whole
expressions that does so on fewer tokens; the bound on the depth then ties the knot.
-/

namespace LoxLang.Grammar

variable {α : Type}

/-! ### Lists -/

/-- Items with commas between them that a relation allows. -/
def ReadItems (R : List Token → α → Prop) (u : List Token) (as : List α) : Prop :=
  ∃ items : List (Phrase α), Separated (items.map Phrase.tokens) u ∧ as = items.map Phrase.tree ∧
    ∀ x ∈ items, R x.tokens x.tree

theorem ReadItems.one {R : List Token → α → Prop} {u : List Token} {a : α} (h : R u a) : ReadItems R u [a] := by
  refine ⟨[⟨u, a⟩], .one u, rfl, ?_⟩
  simpa using h

theorem ReadItems.more {R : List Token → α → Prop} {u v : List Token} {a : α} {as : List α} {comma : Token}
    (h : R u a) (hcomma : comma.kind = .comma) (hne : as ≠ []) (hrest : ReadItems R v as) :
    ReadItems R (u ++ comma :: v) (a :: as) := by
  obtain ⟨items, hseparated, rfl, hitems⟩ := hrest
  cases items with
  | nil => exact absurd rfl hne
  | cons x items =>
    refine ⟨⟨u, a⟩ :: x :: items, .more hcomma hseparated, rfl, ?_⟩
    rintro y (_ | ⟨_, hy⟩)
    · exact h
    · exact hitems y hy

theorem commaItems_reads {R : List Token → α → Prop} {item : Parser α} {what : String} {bound : Nat} :
    ∀ {left count : Nat}, left ≤ bound → Reads left (fun u a _ => R u a) item →
      Reads left (fun u as _ => ReadItems R u as ∧ as ≠ [] ∧ count + as.length ≤ mostItems)
        (commaItems what item bound count) := by
  induction bound with
  | zero =>
    intro left count hleft _
    obtain rfl : left = 0 := by omega
    exact .throwPanic
  | succ bound ih =>
    intro left count hleft hitem
    unfold commaItems
    dsimp only
    generalize hround : (item >>= _) = round
    -- Below the limit a round is an item, and either a comma with the rounds behind it or nothing.
    have hreads : Reads left
        (fun u as _ => count < listLimit → ReadItems R u as ∧ as ≠ [] ∧ count + as.length ≤ mostItems) round := by
      rw [← hround]
      refine hitem.bind fun u first => .take? (fun comma hcomma => ?_) ?_
      · refine (ih (by omega) (hitem.lower (by omega))).bind fun v as => .pure ?_
        intro r hafter hfirst hcount
        obtain ⟨hitems, hne, hlength⟩ := hafter
        rw [List.append_nil]
        refine ⟨.more hfirst (eq_of_beq hcomma) hne hitems, List.cons_ne_nil _ _, ?_⟩
        rw [List.length_cons]
        omega
      · refine .pure fun r _ hfirst hcount => ?_
        rw [List.append_nil]
        exact ⟨.one hfirst, List.cons_ne_nil _ _, hcount⟩
    split
    · exact .look fun c => .report (hreads.lower (Nat.zero_le _)).ofZero
    · refine hreads.mono fun u as r h => h (by omega)

theorem commaList_reads {R : List Token → α → Prop} {item : Parser α} {what : String} {bound left : Nat}
    (hleft : left ≤ bound) (hitem : Reads left (fun u a _ => R u a) item) :
    Reads left (fun u as _ => ReadItems R u as ∧ as.length ≤ mostItems) (commaList bound what item) := by
  refine .isAt fun closed => ?_
  split
  · exact .pure fun r => ⟨⟨[], .none, rfl, by simp⟩, Nat.zero_le _⟩
  · refine (commaItems_reads hleft hitem).mono fun u as r h => ⟨h.1, ?_⟩
    have := h.2.2
    omega

/-- Items one after the other that a relation allows. -/
def ReadSequence (R : List Token → α → Prop) (u : List Token) (as : List α) : Prop :=
  ∃ items : List (Phrase α), u = items.flatMap Phrase.tokens ∧ as = items.map Phrase.tree ∧
    ∀ x ∈ items, R x.tokens x.tree

theorem itemsUntil_reads {R : List Token → α → Prop} {stop : Cursor → Bool} {item : Parser (Option α)} {bound : Nat} :
    ∀ {left : Nat}, left ≤ bound → Reads left (fun u o _ => ∃ a, o = some a ∧ R u a ∧ u ≠ []) item →
      Reads left (fun u as r => ReadSequence R u as ∧ ((∀ c, stop c = false) → r = []))
        (itemsUntil stop item bound) := by
  induction bound with
  | zero =>
    intro left hleft _
    obtain rfl : left = 0 := by omega
    exact (Reads.pure (R := fun _ _ _ => True) fun _ => trivial).ofZero
  | succ bound ih =>
    intro left hleft hitem
    unfold itemsUntil
    refine .look fun c => .look fun c' => ?_
    split
    next hstop =>
      refine .pure fun r hc' hc => ⟨⟨[], rfl, rfl, by simp⟩, fun hnever => ?_⟩
      rw [hnever c, Bool.false_or] at hstop
      rw [List.nil_append] at hc'
      rw [hc']
      exact List.isEmpty_iff.mp hstop
    next =>
      refine hitem.bind_taking (fun u o r h => h.choose_spec.2.2) fun u o => ?_
      refine (ih (by omega) (hitem.lower (by omega))).bind fun v as => .pure ?_
      rintro r ⟨⟨items, rfl, rfl, hitems⟩, hend⟩ ⟨a, rfl, ha, -⟩ - -
      refine ⟨⟨⟨u, a⟩ :: items, by simp, rfl, ?_⟩, by simpa using hend⟩
      rintro y (_ | ⟨_, hy⟩)
      · exact ha
      · exact hitems y hy

/-! ### Expressions -/

/-- Reading what a level derives. -/
abbrev ReadsLevel (bound : Nat) (l : Level) (p : Parser Node) : Prop := Reads bound (fun u e _ => Derives l u e) p

theorem primary_reads {bound : Nat} {whole : Parser Node} (h : ReadsLevel bound .assignment whole) :
    ReadsLevel (bound + 1) .primary (primary whole) := by
  refine .take? (fun t ht => ?_) .fail
  dsimp only
  split
  next hkind => exact .pure fun _ => .no hkind
  next hkind => exact .pure fun _ => .yes hkind
  next hkind => exact .pure fun _ => .nil hkind
  next hkind => exact .pure fun _ => .value (.inl hkind)
  next hkind => exact .pure fun _ => .value (.inr hkind)
  next hkind => exact .pure fun _ => .name hkind
  next =>
    have hopening : t.kind = .leftParen := by
      cases hkind : t.kind <;> simp_all [startsPrimary]
    refine h.bind fun u e => .expect fun closing hclosing => .pure fun r hinner => ?_
    simpa using Derives.grouping hopening hclosing hinner

/-- Calls behind a callee that are enclosed and have derived arguments. -/
def ReadCalls (callee : Node) (u : List Token) (e : Node) : Prop :=
  ∃ tail : List Arguments, u = tail.flatMap Arguments.tokens ∧ e = tail.foldl Arguments.onto callee ∧
    (∀ x ∈ tail, x.Enclosed) ∧ ∀ x ∈ tail, ∀ item ∈ x.items, Derives .assignment item.tokens item.tree

theorem ReadCalls.more {callee e : Node} {opening closing : Token} {u v : List Token} {arguments : List Node}
    (hopening : opening.kind = .leftParen) (hclosing : closing.kind = .rightParen)
    (harguments : ReadItems (Derives .assignment) u arguments) (hwithin : arguments.length ≤ mostItems)
    (hrest : ReadCalls (.call callee (.token closing) arguments) v e) :
    ReadCalls callee (opening :: u ++ closing :: v) e := by
  obtain ⟨items, hseparated, rfl, hitems⟩ := harguments
  obtain ⟨tail, rfl, rfl, henclosed, hderives⟩ := hrest
  refine ⟨⟨opening, items, u, closing⟩ :: tail, by simp [Arguments.tokens], rfl, ?_, ?_⟩
  · rintro x (_ | ⟨_, hx⟩)
    · exact ⟨hopening, hclosing, hseparated, by simpa using hwithin⟩
    · exact henclosed x hx
  · rintro x (_ | ⟨_, hx⟩)
    · exact hitems
    · exact hderives x hx

theorem callsAfter_reads {bound : Nat} {whole : Parser Node} : ∀ {left : Nat} {callee : Node}, left ≤ bound →
    ReadsLevel left .assignment whole →
    Reads (left + 1) (fun u e _ => ReadCalls callee u e) (callsAfter whole bound callee) := by
  induction bound with
  | zero => exact fun _ _ => .pure fun r => ⟨[], rfl, rfl, by simp, by simp⟩
  | succ bound ih =>
    intro left callee hleft hwhole
    refine .take? (fun opening hopening => ?_) (.pure fun r _ => ⟨[], rfl, rfl, by simp, by simp⟩)
    refine (commaList_reads hleft hwhole).bind fun u arguments => .expect fun closing hclosing => ?_
    have hless : ReadsLevel (left - 1) .assignment whole := hwhole.lower (Nat.sub_le left 1)
    apply ((ih (by omega) hless).lower (Nat.le_succ _)).mono
    rintro v e r hrest ⟨hitems, hwithin⟩
    exact .more (eq_of_beq hopening) hclosing hitems hwithin hrest

theorem call_reads {bound : Nat} {whole : Parser Node} (h : ReadsLevel bound .assignment whole) :
    ReadsLevel (bound + 1) .call (call bound whole) := by
  refine (primary_reads h).bind fun u callee => ?_
  apply (callsAfter_reads le_rfl h).mono
  rintro v e r ⟨tail, rfl, rfl, henclosed, hitems⟩ hcallee
  exact .call tail hcallee henclosed hitems

theorem Derives.signs {ts : List Token} {e : Node} (h : Derives .unary ts e) :
    ∀ {signs : List Token}, (∀ t ∈ signs, isSign t.kind = true) →
      Derives .unary (signs ++ ts) (signs.foldr (fun sign right => .unary (.token sign) right) e)
  | [], _ => h
  | t :: signs, hsigns => by
    have ht : t.kind = .bang ∨ t.kind = .minus := by
      simpa [isSign] using hsigns t (by simp)
    exact .sign ht (Derives.signs h fun t ht => hsigns t (by simp [ht]))

theorem takeAll_reads {bound : Nat} (wanted : Kind → Bool) :
    Reads bound (fun u ts _ => ts = u ∧ ∀ t ∈ u, wanted t.kind = true) (takeAll wanted) where
  keeps c := List.prefix_rfl
  takes c ts c' _ hrun _ := by
    cases hrun
    refine ⟨_, (List.takeWhile_append_dropWhile).symm, rfl, fun t ht => ?_⟩
    exact List.all_eq_true.mp List.all_takeWhile t ht
  panics c e c' _ hrun := by cases hrun

theorem unary_reads {bound : Nat} {whole : Parser Node} (h : ReadsLevel bound .assignment whole) :
    ReadsLevel (bound + 1) .unary (unary bound whole) := by
  refine (takeAll_reads isSign).bind fun u signs => (call_reads h).bind fun v operand => .pure ?_
  rintro r hoperand ⟨rfl, hsigns⟩
  rw [List.append_nil]
  exact .signs (.noSign hoperand) hsigns

/-- Operators of a level with derived operands behind a left operand. -/
def ReadOperands (l : Operation) (first : Node) (u : List Token) (e : Node) : Prop :=
  ∃ tail : List Operand, u = tail.flatMap Operand.tokens ∧ e = tail.foldl (Operand.onto l) first ∧
    (∀ x ∈ tail, x.operator.kind ∈ l.operators) ∧ ∀ x ∈ tail, Derives l.operand x.right.tokens x.right.tree

theorem ReadOperands.more {l : Operation} {first right e : Node} {operator : Token} {u v : List Token}
    (hoperator : operator.kind ∈ l.operators) (hright : Derives l.operand u right)
    (hrest : ReadOperands l (l.node first (.token operator) right) v e) :
    ReadOperands l first (operator :: u ++ v) e := by
  obtain ⟨tail, rfl, rfl, hoperators, hderives⟩ := hrest
  refine ⟨⟨operator, ⟨u, right⟩⟩ :: tail, by simp [Operand.tokens], rfl, ?_, ?_⟩
  · rintro x (_ | ⟨_, hx⟩)
    · exact hoperator
    · exact hoperators x hx
  · rintro x (_ | ⟨_, hx⟩)
    · exact hright
    · exact hderives x hx

theorem operandsAfter_reads {bound : Nat} {l : Operation} {wanted : Kind → Bool} {operand : Parser Node}
    (hwanted : ∀ k, wanted k = true → k ∈ l.operators) : ∀ {left : Nat} {first : Node},
    ReadsLevel left l.operand operand →
    Reads left (fun u e _ => ReadOperands l first u e) (operandsAfter wanted l.node operand bound first) := by
  induction bound with
  | zero => exact fun _ => .pure fun r => ⟨[], rfl, rfl, by simp, by simp⟩
  | succ bound ih =>
    intro left first hoperand
    refine .take? (fun operator hoperator => ?_) (.pure fun r _ => ⟨[], rfl, rfl, by simp, by simp⟩)
    have hless := hoperand.lower (Nat.sub_le left 1)
    refine hless.bind fun u right => (ih hless).mono ?_
    intro v e r hrest hright
    exact .more (hwanted _ hoperator) hright hrest

theorem leftLevel_reads {bound left : Nat} {l : Operation} {wanted : Kind → Bool} {operand : Parser Node}
    (hwanted : ∀ k, wanted k = true → k ∈ l.operators) (hoperand : ReadsLevel left l.operand operand) :
    ReadsLevel left (.operation l) (leftLevel bound wanted l.node operand) := by
  refine hoperand.bind fun u first => (operandsAfter_reads hwanted hoperand).mono ?_
  rintro v e r ⟨tail, rfl, rfl, hoperators, hderives⟩ hfirst
  exact .operation tail hfirst hoperators hderives

/-- The tree of a derived expression is a name only if the expression is one. -/
theorem Derives.eq_name {l : Level} {ts : List Token} {e name : Node} (h : Derives l ts e) (he : e = .reference name) :
    ∃ t, ts = [t] ∧ t.kind = .identifier ∧ name = .token t := by
  induction h with
  | assign | sign | value | yes | no | nil | grouping => cases he
  | noAssign _ ih | noSign _ ih => exact ih he
  | name ht =>
    cases he
    exact ⟨_, rfl, ht, rfl⟩
  | @operation l ts first tail _ _ _ ih _ =>
    rcases List.eq_nil_or_concat tail with rfl | ⟨tail, x, rfl⟩
    · simpa using ih he
    · cases l <;> simp [Operand.onto, Operation.node] at he
  | @call ts callee tail _ _ _ ih _ =>
    rcases List.eq_nil_or_concat tail with rfl | ⟨tail, x, rfl⟩
    · simpa using ih he
    · simp [Arguments.onto] at he

theorem assignment_reads {bound : Nat} {whole : Parser Node} (h : ReadsLevel bound .assignment whole) :
    ReadsLevel (bound + 1) .assignment (assignment bound whole) := by
  have hfactor : ReadsLevel (bound + 1) (.operation .factor) (factor bound whole) :=
    leftLevel_reads (by simp [isFactorOperator, Operation.operators]) (unary_reads h)
  have hterm : ReadsLevel (bound + 1) (.operation .term) (term bound whole) :=
    leftLevel_reads (by simp [isTermOperator, Operation.operators]) hfactor
  have hcomparison : ReadsLevel (bound + 1) (.operation .comparison) (comparison bound whole) :=
    leftLevel_reads (by simp [isComparisonOperator, Operation.operators, or_assoc]) hterm
  have hequality : ReadsLevel (bound + 1) (.operation .equality) (equality bound whole) :=
    leftLevel_reads (by simp [isEqualityOperator, Operation.operators]) hcomparison
  have hconjunction : ReadsLevel (bound + 1) (.operation .conjunction) (conjunction bound whole) :=
    leftLevel_reads (by simp [Operation.operators]) hequality
  have hdisjunction : ReadsLevel (bound + 1) (.operation .disjunction) (disjunction bound whole) :=
    leftLevel_reads (by simp [Operation.operators]) hconjunction
  refine hdisjunction.bind fun u left => .take? (fun equals hequals => h.bind fun v value => ?_) ?_
  · split
    · refine .pure fun r hvalue hleft => ?_
      obtain ⟨t, rfl, ht, rfl⟩ := hleft.eq_name rfl
      rw [List.append_nil]
      exact .assign ht (eq_of_beq hequals) hvalue
    · exact .report (Reads.pure (R := fun _ _ _ => True) fun _ => trivial).ofZero
  · refine .pure fun r _ hleft => ?_
    rw [List.append_nil]
    exact .noAssign hleft

theorem expression_reads (bound : Nat) : ReadsLevel bound .assignment (expression bound) := by
  induction bound with
  | zero => exact .throwPanic
  | succ bound ih => exact assignment_reads ih

/-! ### Statements -/

theorem DerivesStatement.ne_nil {symbol : Symbol} {f : Bool} {ts : List Token} {s : Node}
    (h : DerivesStatement symbol f ts s) : ts ≠ [] := by
  induction h with
  | statement _ ih => exact ih
  | _ => simp

/-- A statement that would not have taken the tokens behind it as its own. -/
def StatementBefore (f : Bool) (u : List Token) (s : Node) (r : List Token) : Prop :=
  ∃ dangling, DerivesStatement (.statement dangling) f u s ∧ (dangling = true → Unwanted (· == .kwElse) r)

theorem StatementBefore.of_closed {f : Bool} {u r : List Token} {s : Node} (h : DerivesStatement (.statement false) f u s) :
    StatementBefore f u s r :=
  ⟨false, h, by simp⟩

/-- Reading a statement behind its first token. -/
abbrev ReadsBehind (keyword : Token) (bound : Nat) (f : Bool) (p : Parser Node) : Prop :=
  Reads bound (fun v s r => StatementBefore f (keyword :: v) s r) p

section

variable {bound left : Nat} {f : Bool} {keyword : Token}

theorem semicolon_reads {what : String} {build : Node → Node} (hleft : left ≤ bound) :
    Reads left (fun u s _ => ∃ ts e semicolon, u = ts ++ [semicolon] ∧ s = build e ∧ DerivesExpression ts e ∧
        semicolon.kind = .semicolon) (do
      let value ← expression bound
      let _ ← expect .semicolon what
      return build value) := by
  refine ((expression_reads bound).lower hleft).bind fun u e => .expect fun semicolon hsemicolon => .pure fun r he => ?_
  exact ⟨u, e, semicolon, rfl, rfl, he, hsemicolon⟩

theorem optionalUnless_reads {kind : Kind} (hleft : left ≤ bound) :
    Reads left (fun u o _ => DerivesOptional u o) (optionalUnless bound kind) := by
  refine .isAt fun absent => ?_
  split
  · exact .pure fun _ => .none
  · refine ((expression_reads bound).lower hleft).bind fun u e => .pure fun r he => ?_
    rw [List.append_nil]
    exact .some he

theorem printStatement_reads (hkeyword : keyword.kind = .kwPrint) (hleft : left ≤ bound) :
    ReadsBehind keyword left f (printStatement bound) := by
  apply (semicolon_reads hleft).mono
  rintro v s r ⟨ts, e, semicolon, rfl, rfl, he, hsemicolon⟩
  exact .of_closed (.print hkeyword he hsemicolon)

theorem returnStatement_reads (hkeyword : keyword.kind = .kwReturn) (hleft : left ≤ bound) :
    ReadsBehind keyword left f (returnStatement bound f keyword) := by
  have hvalue : Reads left (fun v s r => f = true → StatementBefore f (keyword :: v) s r) (do
      let value ← optionalUnless bound .semicolon
      let _ ← expect .semicolon "';' after return value"
      return .ret (.token keyword) (value.getD .null)) := by
    refine (optionalUnless_reads hleft).bind fun u value => .expect fun semicolon hsemicolon => .pure ?_
    rintro r hvalue rfl
    exact .of_closed (.ret hkeyword hvalue hsemicolon)
  unfold returnStatement
  dsimp only
  cases f with
  | true => exact hvalue.mono fun v s r h => h rfl
  | false => exact .report (hvalue.lower (Nat.zero_le _)).ofZero

theorem variableDeclaration_reads (hleft : left ≤ bound) :
    Reads left (fun u s _ => DerivesVariable u s) (variableDeclaration bound) := by
  refine .expect fun name hname => .take? (fun equals hequals => ?_) ?_
  · refine ((expression_reads bound).lower (by omega)).bind fun u e => ?_
    refine .expect fun semicolon hsemicolon => .pure fun r he => ?_
    exact .initial hname (eq_of_beq hequals) he hsemicolon
  · simp only [pure_bind]
    exact .expect fun semicolon hsemicolon => .pure fun r _ => .bare hname hsemicolon

theorem ifStatement_reads {inner : Parser Node} (hkeyword : keyword.kind = .kwIf) (hleft : left ≤ bound)
    (hinner : Reads left (StatementBefore f) inner) : ReadsBehind keyword left f (ifStatement bound inner) := by
  refine .expect fun opening hopening => ((expression_reads bound).lower (by omega)).bind fun u condition => ?_
  refine .expect fun closing hclosing => (hinner.lower (by omega)).bind fun yes s => ?_
  refine .take? (fun otherwise hotherwise => (hinner.lower (by omega)).bind fun no t => .pure ?_) ?_
  · rintro r ⟨dangling, hno, hopen⟩ ⟨dangling', hyes, hopen'⟩ hcondition
    -- An `else` stands behind the first branch, so the first branch is not dangling.
    cases dangling' with
    | true => exact absurd (hopen' rfl otherwise rfl) (by simp [hotherwise])
    | false =>
      refine ⟨dangling, ?_, hopen⟩
      simpa using DerivesStatement.branchElse hkeyword hopening hcondition hclosing hyes (eq_of_beq hotherwise) hno
  · simp only [pure_bind]
    refine .pure ?_
    rintro r hnone ⟨dangling, hyes, -⟩ hcondition
    refine ⟨true, ?_, fun _ => hnone⟩
    simpa using DerivesStatement.branch hkeyword hopening hcondition hclosing hyes

theorem whileStatement_reads {inner : Parser Node} (hkeyword : keyword.kind = .kwWhile) (hleft : left ≤ bound)
    (hinner : Reads left (StatementBefore f) inner) : ReadsBehind keyword left f (whileStatement bound inner) := by
  refine .expect fun opening hopening => ((expression_reads bound).lower (by omega)).bind fun u condition => ?_
  refine .expect fun closing hclosing => (hinner.lower (by omega)).bind fun body s => .pure ?_
  rintro r ⟨dangling, hbody, hopen⟩ hcondition
  refine ⟨dangling, ?_, hopen⟩
  simpa using DerivesStatement.loop hkeyword hopening hcondition hclosing hbody

theorem forInitial_reads (hleft : left ≤ bound) : Reads left (fun u o _ => DerivesInitial u o) (forInitial bound) := by
  refine .take? (fun t ht => ?_) ?_
  · dsimp only
    split
    next hvar =>
      refine (variableDeclaration_reads (by omega)).bind fun u s => .pure fun r hs => ?_
      rw [List.append_nil]
      exact .var (eq_of_beq hvar) hs
    next hvar =>
      have hsemicolon : t.kind = .semicolon := by simpa [hvar] using ht
      exact .pure fun _ => .none hsemicolon
  · refine (semicolon_reads hleft).bind fun u s => .pure ?_
    rintro r ⟨ts, e, semicolon, rfl, rfl, he, hsemicolon⟩ -
    rw [List.append_nil]
    exact .expression he hsemicolon

theorem desugarFor_eq (initial condition increment : Option Node) (body : Node) :
    desugarFor initial condition increment body = forTree initial condition increment body := by
  cases initial <;> cases condition <;> cases increment <;> rfl

theorem forStatement_reads {inner : Parser Node} (hkeyword : keyword.kind = .kwFor) (hleft : left ≤ bound)
    (hinner : Reads left (StatementBefore f) inner) : ReadsBehind keyword left f (forStatement bound inner) := by
  refine .expect fun opening hopening => (forInitial_reads (by omega)).bind fun is initial => ?_
  refine (optionalUnless_reads (by omega)).bind fun cs condition => .expect fun semicolon hsemicolon => ?_
  refine (optionalUnless_reads (by omega)).bind fun ns increment => .expect fun closing hclosing => ?_
  refine (hinner.lower (by omega)).bind fun body s => .pure ?_
  rintro r ⟨dangling, hbody, hopen⟩ hincrement hcondition hinitial
  rw [desugarFor_eq]
  refine ⟨dangling, ?_, hopen⟩
  simpa using DerivesStatement.forLoop hkeyword hopening hinitial hcondition hsemicolon hincrement hclosing hbody

/-- Reading a declaration, without leaving one out. -/
abbrev ReadsDeclaration (bound : Nat) (f : Bool) (p : Parser (Option Node)) : Prop :=
  Reads bound (fun u o _ => ∃ s, o = some s ∧ DerivesStatement .declaration f u s ∧ u ≠ []) p

theorem block_reads {inner : Parser (Option Node)} (hleft : left ≤ bound) (hinner : ReadsDeclaration left f inner) :
    Reads left (fun u body _ => ∃ (items : List (Phrase Node)) (close : Token), close.kind = .rightBrace ∧
        u = items.flatMap Phrase.tokens ++ [close] ∧ body = items.map Phrase.tree ∧
        ∀ x ∈ items, DerivesStatement .declaration f x.tokens x.tree) (block bound inner) := by
  refine (itemsUntil_reads hleft hinner).bind fun u body => .expect fun close hclose => .pure ?_
  rintro r ⟨⟨items, rfl, rfl, hitems⟩, -⟩
  exact ⟨items, close, hclose, rfl, rfl, hitems⟩

theorem expect_reads {kind : Kind} {what : String} :
    Reads left (fun u t _ => u = [t] ∧ t.kind = kind) (expect kind what) := by
  rw [← bind_pure (expect kind what)]
  exact .expect fun t ht => .pure fun r => ⟨rfl, ht⟩

theorem functionDeclaration_reads {inner : Parser (Option Node)} (hkeyword : keyword.kind = .kwFun)
    (hleft : left ≤ bound) (hinner : ReadsDeclaration left true inner) :
    Reads left (fun v s _ => DerivesStatement .declaration f (keyword :: v) s) (functionDeclaration bound inner) := by
  refine .expect fun name hname => .expect fun opening hopening => ?_
  refine (commaList_reads (by omega) expect_reads).bind fun u params => .expect fun closing hclosing => ?_
  refine .expect fun brace hbrace => (block_reads (by omega) (hinner.lower (by omega))).bind fun v body => .pure ?_
  rintro r ⟨items, close, hclose, rfl, rfl, hitems⟩ ⟨⟨names, hinside, rfl, hnames⟩, hwithin⟩
  have hpieces : names.map Phrase.tokens = (names.map Phrase.tree).map fun p => [p] := by
    rw [List.map_map]
    exact List.map_congr_left fun x hx => (hnames x hx).1
  rw [hpieces] at hinside
  have hparams : ∀ p ∈ names.map Phrase.tree, p.kind = .identifier := by
    intro p hp
    obtain ⟨x, hx, rfl⟩ := List.mem_map.mp hp
    exact (hnames x hx).2
  simpa using DerivesStatement.function _ items hkeyword hname hopening hparams hinside hwithin hclosing hbrace hitems
    hclose

end

/-- Every bound leaves a statement half of it for its tokens, and a declaration a little less. -/
theorem statement_declaration_reads (bound : Nat) : ∀ f : Bool,
    Reads (bound / 2) (StatementBefore f) (statement bound f) ∧
      ReadsDeclaration ((bound - 1) / 2) f (declaration bound f) := by
  induction bound with
  | zero => exact fun f => ⟨.throwPanic, .throwPanic⟩
  | succ bound ih =>
    intro f
    constructor
    · refine .take? (fun t ht => ?_) ?_
      · have hinner : Reads ((bound + 1) / 2 - 1) (StatementBefore f) (statement bound f) :=
          (ih f).1.lower (by omega)
        dsimp only
        split
        next hkind => exact ifStatement_reads hkind (by omega) hinner
        next hkind => exact printStatement_reads hkind (by omega)
        next hkind => exact whileStatement_reads hkind (by omega) hinner
        next hkind => exact forStatement_reads hkind (by omega) hinner
        next hkind => exact returnStatement_reads hkind (by omega)
        next =>
          have hbrace : t.kind = .leftBrace := by
            cases hkind : t.kind <;> simp_all [startsPlainStatement]
          refine (block_reads (by omega) ((ih f).2.lower (by omega))).bind fun u body => .pure ?_
          rintro r ⟨items, close, hclose, rfl, rfl, hitems⟩
          rw [List.append_nil]
          exact .of_closed (.block items hbrace hitems hclose)
      · apply (semicolon_reads (by omega)).mono
        rintro v s r ⟨ts, e, semicolon, rfl, rfl, he, hsemicolon⟩ -
        exact .of_closed (.expression he hsemicolon)
    · have hrecover {p : Parser Node} (h : Reads (bound / 2) (fun u s _ => DerivesStatement .declaration f u s) p) :
          ReadsDeclaration (bound / 2) f (recover p) := by
        refine h.recover.mono fun u o r h => ?_
        obtain ⟨s, rfl, hs⟩ := h
        exact ⟨s, rfl, hs, hs.ne_nil⟩
      refine hrecover (.take? (fun t ht => ?_) ?_)
      · dsimp only
        split
        next hfun => exact functionDeclaration_reads (eq_of_beq hfun) (by omega) ((ih true).2.lower (by omega))
        next hfun =>
          have hvar : t.kind = .kwVar := by simpa [hfun] using ht
          exact (variableDeclaration_reads (by omega)).mono fun v s r h => .var hvar h
      · refine (ih f).1.mono fun v s r h _ => ?_
        obtain ⟨dangling, hs, -⟩ := h
        exact .statement hs

end LoxLang.Grammar
