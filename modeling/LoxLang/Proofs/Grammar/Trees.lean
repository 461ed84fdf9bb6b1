import LoxLang.Proofs.Grammar.Steps
import LoxLang.Value
/-!
# The trees that parsers build

Whatever the tokens are, and however much is reported on the way, what a parser gives back is a tree
of expressions and statements in which nothing stands in a wrong place: where a token belongs there
is a token that was read, and an operator is one of those its node knows. The same holds of the
statements that are left when malformed ones are skipped. So evaluation may rely on it for every text
that was parsed, and not only for those without diagnostics.
-/

namespace LoxLang

namespace Grammar

/-- The operators with an operand on either side that are no words. -/
def isBinaryOperator (k : Kind) : Bool :=
  isFactorOperator k || isTermOperator k || isComparisonOperator k || isEqualityOperator k

end Grammar

namespace Node

/-- An expression with tokens that satisfy `P`. -/
inductive IsExpressionOf (P : Token → Prop) : Node → Prop
  | literal {value : Node} (hvalue : value.scalar?.isSome = true) : IsExpressionOf P (.literal value)
  | grouping {inner : Node} (hinner : IsExpressionOf P inner) : IsExpressionOf P (.grouping inner)
  | unary {t : Token} {right : Node} (ht : P t) (hkind : Grammar.isSign t.kind = true)
      (hright : IsExpressionOf P right) : IsExpressionOf P (.unary (.token t) right)
  | binary {t : Token} {left right : Node} (ht : P t) (hkind : Grammar.isBinaryOperator t.kind = true)
      (hleft : IsExpressionOf P left) (hright : IsExpressionOf P right) :
      IsExpressionOf P (.binary left (.token t) right)
  | logical {t : Token} {left right : Node} (ht : P t) (hleft : IsExpressionOf P left)
      (hright : IsExpressionOf P right) : IsExpressionOf P (.logical left (.token t) right)
  | reference {t : Token} (ht : P t) : IsExpressionOf P (.reference (.token t))
  | assign {t : Token} {value : Node} (ht : P t) (hvalue : IsExpressionOf P value) :
      IsExpressionOf P (.assign (.token t) value)
  | call {t : Token} {callee : Node} {arguments : List Node} (ht : P t) (hcallee : IsExpressionOf P callee)
      (harguments : ∀ a ∈ arguments, IsExpressionOf P a) : IsExpressionOf P (.call callee (.token t) arguments)

def IsOptionalOf (P : Token → Prop) (n : Node) : Prop := n = .null ∨ IsExpressionOf P n

/-- A statement with tokens that satisfy `P`. -/
inductive IsStatementOf (P : Token → Prop) : Node → Prop
  | expression {value : Node} (hvalue : IsExpressionOf P value) : IsStatementOf P (.expression value)
  | print {value : Node} (hvalue : IsExpressionOf P value) : IsStatementOf P (.print value)
  | var {t : Token} {initial : Node} (ht : P t) (hinitial : IsOptionalOf P initial) :
      IsStatementOf P (.var (.token t) initial)
  | block {statements : List Node} (hstatements : ∀ s ∈ statements, IsStatementOf P s) :
      IsStatementOf P (.block statements)
  | branch {condition yes : Node} (hcondition : IsExpressionOf P condition) (hyes : IsStatementOf P yes) :
      IsStatementOf P (.branch condition yes .null)
  | branchElse {condition yes no : Node} (hcondition : IsExpressionOf P condition) (hyes : IsStatementOf P yes)
      (hno : IsStatementOf P no) : IsStatementOf P (.branch condition yes no)
  | loop {condition body : Node} (hcondition : IsExpressionOf P condition) (hbody : IsStatementOf P body) :
      IsStatementOf P (.loop condition body)
  | function {t : Token} {params : List Token} {body : List Node} (ht : P t) (hparams : ∀ p ∈ params, P p)
      (hbody : ∀ s ∈ body, IsStatementOf P s) : IsStatementOf P (.function (.token t) (params.map .token) body)
  | ret {t : Token} {value : Node} (ht : P t) (hvalue : IsOptionalOf P value) : IsStatementOf P (.ret (.token t) value)

theorem ofScalar_scalar (value : Json) : (ofScalar value).scalar?.isSome = true := by cases value <;> rfl

end Node

namespace Grammar

variable {α β : Type} {P : Token → Prop} {eof : Token}

/-! ### What every run keeps -/

/-- The tokens left satisfy `P`, and all reports are about tokens that do or about the end. -/
structure Within (P : Token → Prop) (eof : Token) (c : Cursor) : Prop where
  rest : ∀ t ∈ c.rest, P t
  ending : c.eof = eof
  reports : ∀ d ∈ c.reports, ∃ t complaint, (P t ∨ t = eof) ∧ d = t.complain complaint

/-- The parser stays within given tokens, and what it gives satisfies `Q`. -/
def Yields (P : Token → Prop) (eof : Token) (Q : α → Prop) (p : Parser α) : Prop :=
  ∀ c, Within P eof c → Within P eof (endOf (p c)) ∧ ∀ a c', p c = .ok a c' → Q a

theorem Within.peek {c : Cursor} (h : Within P eof c) : P c.peek ∨ c.peek = eof := by
  obtain ⟨rest, ending, reports⟩ := c
  cases rest with
  | nil => exact .inr h.ending
  | cons t after => exact .inl (h.rest t (List.mem_cons_self ..))

theorem Within.report {c : Cursor} {t : Token} (h : Within P eof c) (ht : P t ∨ t = eof) (complaint : Complaint) :
    Within P eof { c with reports := c.reports ++ [t.complain complaint] } where
  rest := h.rest
  ending := h.ending
  reports d hd := by
    rw [List.mem_append, List.mem_singleton] at hd
    rcases hd with hd | rfl
    · exact h.reports d hd
    · exact ⟨t, complaint, ht, rfl⟩

theorem Within.drop {c : Cursor} {after : List Token} (h : Within P eof c) (hafter : after ⊆ c.rest) :
    Within P eof { c with rest := after } where
  rest t ht := h.rest t (hafter ht)
  ending := h.ending
  reports := h.reports

theorem skipAfter_subset (last : Token) (ts : List Token) : skipAfter last ts ⊆ ts := by
  induction ts generalizing last with
  | nil => exact List.Subset.refl _
  | cons t rest ih =>
    unfold skipAfter
    split
    · exact List.Subset.refl _
    · exact List.Subset.trans (ih t) (List.subset_cons_self t rest)

theorem synchronize_subset (ts : List Token) : synchronize ts ⊆ ts := by
  cases ts with
  | nil => exact List.Subset.refl _
  | cons t rest => exact List.Subset.trans (skipAfter_subset t rest) (List.subset_cons_self t rest)

namespace Yields

variable {Q : α → Prop} {S : β → Prop} {p : Parser α} {f : α → Parser β}

theorem bind (hp : Yields P eof Q p) (hf : ∀ a, Q a → Yields P eof S (f a)) : Yields P eof S (p >>= f) := by
  intro c hc
  obtain ⟨hwithin, hQ⟩ := hp c hc
  cases hrun : p c with
  | ok a c' =>
    rw [bind_ok hrun]
    rw [hrun] at hwithin
    exact hf a (hQ a c' hrun) c' hwithin
  | error e c' =>
    rw [bind_error hrun]
    rw [hrun] at hwithin
    refine ⟨hwithin, fun a c'' hok => ?_⟩
    cases hok

theorem pure {a : α} (h : Q a) : Yields P eof Q (Pure.pure a) := by
  intro c hc
  refine ⟨hc, fun b c' hrun => ?_⟩
  cases hrun
  exact h

theorem throwPanic : Yields P eof Q (throw .panic) := by
  intro c hc
  refine ⟨hc, fun a c' hrun => ?_⟩
  cases hrun

theorem look {q : Cursor → Parser β} (h : ∀ c, Yields P eof S (q c)) : Yields P eof S (get >>= q) :=
  fun c hc => h c c hc

theorem isAt {kind : Kind} {q : Bool → Parser β} (h : ∀ b, Yields P eof S (q b)) :
    Yields P eof S (Grammar.isAt kind >>= q) :=
  fun c hc => h (c.isAt kind) c hc

theorem report {t : Token} (ht : P t) (complaint : Complaint) :
    Yields P eof (fun _ => True) (Grammar.report t complaint) :=
  fun _ hc => ⟨hc.report (.inl ht) complaint, fun _ _ _ => trivial⟩

theorem reportNext {complaint : Complaint} {q : Unit → Parser β} (h : Yields P eof S (q ())) :
    Yields P eof S (get >>= fun c => Grammar.report c.peek complaint >>= q) :=
  fun _ hc => h _ (hc.report hc.peek complaint)

theorem fail {complaint : Complaint} : Yields P eof Q (Grammar.fail complaint) :=
  reportNext (q := fun _ => throw .panic) throwPanic

theorem take? {wanted : Kind → Bool} {q : Option Token → Parser β}
    (hsome : ∀ t, P t → wanted t.kind = true → Yields P eof S (q (some t))) (hnone : Yields P eof S (q none)) :
    Yields P eof S (Grammar.take? wanted >>= q) := by
  intro c hc
  obtain ⟨rest, ending, reports⟩ := c
  rcases unwanted_or_cons wanted rest with h | h
  · rw [bind_ok (take?_unwanted h)]
    exact hnone _ hc
  · obtain ⟨t, after, rfl, ht⟩ := h
    rw [bind_ok (take?_wanted ht after ending reports)]
    exact hsome t (hc.rest t (List.mem_cons_self ..)) ht _ (hc.drop (List.subset_cons_self t after))

theorem takeAll {wanted : Kind → Bool} :
    Yields P eof (fun ts => ∀ t ∈ ts, P t ∧ wanted t.kind = true) (Grammar.takeAll wanted) := by
  intro c hc
  refine ⟨hc.drop (List.dropWhile_sublist _).subset, fun ts c' hrun => ?_⟩
  cases hrun
  intro t ht
  exact ⟨hc.rest t ((List.takeWhile_sublist _).subset ht), List.all_eq_true.mp List.all_takeWhile t ht⟩

theorem expect {kind : Kind} {what : String} : Yields P eof P (Grammar.expect kind what) :=
  take? (fun _ ht _ => .pure ht) fail

theorem recover (h : Yields P eof Q p) : Yields P eof (fun o => ∀ a ∈ o, Q a) (Grammar.recover p) := by
  intro c hc
  obtain ⟨hwithin, hQ⟩ := h c hc
  cases hrun : p c with
  | ok a c' =>
    simp only [Grammar.recover, hrun]
    rw [hrun] at hwithin
    refine ⟨hwithin, fun o c'' hok => ?_⟩
    cases hok
    simpa using hQ a c' hrun
  | error e c' =>
    simp only [Grammar.recover, hrun]
    rw [hrun] at hwithin
    refine ⟨hwithin.drop (synchronize_subset c'.rest), fun o c'' hok => ?_⟩
    cases hok
    simp

end Yields

/-! ### Lists -/

theorem commaItems_yields {Q : α → Prop} {item : Parser α} (what : String) (hitem : Yields P eof Q item)
    (bound count : Nat) : Yields P eof (fun as => ∀ a ∈ as, Q a) (commaItems what item bound count) := by
  induction bound generalizing count with
  | zero => exact .throwPanic
  | succ bound ih =>
    unfold commaItems
    dsimp only
    generalize hround : (item >>= _) = round
    have hyields : Yields P eof (fun as => ∀ a ∈ as, Q a) round := by
      rw [← hround]
      refine hitem.bind fun first hfirst => .take? (fun comma _ _ => ?_) (.pure ?_)
      · refine (ih (count + 1)).bind fun as has => .pure ?_
        exact List.forall_mem_cons.mpr ⟨hfirst, has⟩
      · simpa using hfirst
    split
    · exact .reportNext hyields
    · exact hyields

theorem commaList_yields {Q : α → Prop} {item : Parser α} (bound : Nat) (what : String)
    (hitem : Yields P eof Q item) : Yields P eof (fun as => ∀ a ∈ as, Q a) (commaList bound what item) := by
  refine .isAt fun closed => ?_
  split
  · exact .pure (by simp)
  · exact commaItems_yields what hitem bound 0

theorem itemsUntil_yields {Q : α → Prop} {item : Parser (Option α)} (stop : Cursor → Bool)
    (hitem : Yields P eof (fun o => ∀ a ∈ o, Q a) item) (bound : Nat) :
    Yields P eof (fun as => ∀ a ∈ as, Q a) (itemsUntil stop item bound) := by
  induction bound with
  | zero => exact .pure (by simp)
  | succ bound ih =>
    unfold itemsUntil
    refine .look fun c => .look fun c' => ?_
    split
    · exact .pure (by simp)
    · refine hitem.bind fun first hfirst => ih.bind fun as has => .pure fun a ha => ?_
      rw [List.mem_append, Option.mem_toList] at ha
      exact ha.elim (hfirst a) (has a)

/-! ### Expressions -/

open Node

variable {whole : Parser Node} {bound : Nat}

theorem primary_yields (h : Yields P eof (IsExpressionOf P) whole) :
    Yields P eof (IsExpressionOf P) (primary whole) := by
  refine .take? (fun t ht _ => ?_) .fail
  dsimp only
  split
  · exact .pure (.literal rfl)
  · exact .pure (.literal rfl)
  · exact .pure (.literal rfl)
  · exact .pure (.literal (ofScalar_scalar _))
  · exact .pure (.literal (ofScalar_scalar _))
  · exact .pure (.reference ht)
  · exact h.bind fun inner hinner => Yields.expect.bind fun _ _ => .pure (.grouping hinner)

theorem callsAfter_yields (h : Yields P eof (IsExpressionOf P) whole) {callee : Node}
    (hcallee : IsExpressionOf P callee) : Yields P eof (IsExpressionOf P) (callsAfter whole bound callee) := by
  induction bound generalizing callee with
  | zero => exact .pure hcallee
  | succ bound ih =>
    refine .take? (fun _ _ _ => ?_) (.pure hcallee)
    refine (commaList_yields _ _ h).bind fun arguments harguments => ?_
    exact Yields.expect.bind fun paren hparen => ih (.call hparen hcallee harguments)

theorem call_yields (h : Yields P eof (IsExpressionOf P) whole) :
    Yields P eof (IsExpressionOf P) (call bound whole) :=
  (primary_yields h).bind fun _ hcallee => callsAfter_yields h hcallee

theorem unary_yields (h : Yields P eof (IsExpressionOf P) whole) :
    Yields P eof (IsExpressionOf P) (unary bound whole) := by
  refine Yields.takeAll.bind fun signs hsigns => (call_yields h).bind fun operand hoperand => .pure ?_
  induction signs with
  | nil => exact hoperand
  | cons sign signs ih =>
    obtain ⟨hsign, hrest⟩ := List.forall_mem_cons.mp hsigns
    exact .unary hsign.1 hsign.2 (ih hrest)

/-- A level of operators that its nodes know. -/
theorem leftLevel_yields {isOperator : Kind → Bool} {build : Node → Node → Node → Node} {operand : Parser Node}
    (hbuild : ∀ t left right, P t → isOperator t.kind = true → IsExpressionOf P left → IsExpressionOf P right →
      IsExpressionOf P (build left (.token t) right))
    (hoperand : Yields P eof (IsExpressionOf P) operand) :
    Yields P eof (IsExpressionOf P) (leftLevel bound isOperator build operand) := by
  refine hoperand.bind fun left hleft => ?_
  induction bound generalizing left with
  | zero => exact .pure hleft
  | succ bound ih =>
    refine .take? (fun t ht hkind => ?_) (.pure hleft)
    exact hoperand.bind fun right hright => ih _ (hbuild t left right ht hkind hleft hright)

theorem binaryLevel_yields {isOperator : Kind → Bool} {operand : Parser Node}
    (hknown : ∀ k, isOperator k = true → isBinaryOperator k = true)
    (hoperand : Yields P eof (IsExpressionOf P) operand) :
    Yields P eof (IsExpressionOf P) (leftLevel bound isOperator .binary operand) :=
  leftLevel_yields (fun t _ _ ht hkind hleft hright => .binary ht (hknown t.kind hkind) hleft hright) hoperand

theorem logicalLevel_yields {isOperator : Kind → Bool} {operand : Parser Node}
    (hoperand : Yields P eof (IsExpressionOf P) operand) :
    Yields P eof (IsExpressionOf P) (leftLevel bound isOperator .logical operand) :=
  leftLevel_yields (fun _ _ _ ht _ hleft hright => .logical ht hleft hright) hoperand

theorem disjunction_yields (h : Yields P eof (IsExpressionOf P) whole) :
    Yields P eof (IsExpressionOf P) (disjunction bound whole) := by
  have hfactor : Yields P eof (IsExpressionOf P) (factor bound whole) :=
    binaryLevel_yields (fun k hk => by simp [isBinaryOperator, hk]) (unary_yields h)
  have hterm : Yields P eof (IsExpressionOf P) (term bound whole) :=
    binaryLevel_yields (fun k hk => by simp [isBinaryOperator, hk]) hfactor
  have hcomparison : Yields P eof (IsExpressionOf P) (comparison bound whole) :=
    binaryLevel_yields (fun k hk => by simp [isBinaryOperator, hk]) hterm
  have hequality : Yields P eof (IsExpressionOf P) (equality bound whole) :=
    binaryLevel_yields (fun k hk => by simp [isBinaryOperator, hk]) hcomparison
  exact logicalLevel_yields (logicalLevel_yields hequality)

theorem assignment_yields (h : Yields P eof (IsExpressionOf P) whole) :
    Yields P eof (IsExpressionOf P) (assignment bound whole) := by
  refine (disjunction_yields h).bind fun left hleft => .take? (fun equals hequals _ => ?_) (.pure hleft)
  refine h.bind fun value hvalue => ?_
  split
  next name =>
    cases hleft with
    | reference ht => exact .pure (.assign ht hvalue)
  next => exact (Yields.report hequals _).bind fun _ _ => .pure hleft

theorem expression_yields : Yields P eof (IsExpressionOf P) (expression bound) := by
  induction bound with
  | zero => exact .throwPanic
  | succ bound ih => exact assignment_yields ih

/-! ### Statements -/

variable {step : Parser Node} {item : Parser (Option Node)}

theorem expressionStatement_yields : Yields P eof (IsStatementOf P) (expressionStatement bound) :=
  expression_yields.bind fun _ hvalue => Yields.expect.bind fun _ _ => .pure (.expression hvalue)

theorem printStatement_yields : Yields P eof (IsStatementOf P) (printStatement bound) :=
  expression_yields.bind fun _ hvalue => Yields.expect.bind fun _ _ => .pure (.print hvalue)

theorem optionalUnless_yields {kind : Kind} :
    Yields P eof (fun o => ∀ a ∈ o, IsExpressionOf P a) (optionalUnless bound kind) := by
  refine .isAt fun closed => ?_
  split
  · exact .pure (by simp)
  · exact expression_yields.bind fun value hvalue => .pure (by simpa using hvalue)

theorem isOptionalOf_getD {o : Option Node} (h : ∀ a ∈ o, IsExpressionOf P a) : IsOptionalOf P (o.getD .null) := by
  cases o with
  | none => exact .inl rfl
  | some a => exact .inr (h a rfl)

theorem returnStatement_yields {inFunction : Bool} {keyword : Token} (hkeyword : P keyword) :
    Yields P eof (IsStatementOf P) (returnStatement bound inFunction keyword) := by
  have hbehind : Yields P eof (IsStatementOf P) (do
      let value ← optionalUnless bound .semicolon
      let _ ← expect .semicolon "';' after return value"
      return .ret (.token keyword) (value.getD .null)) :=
    optionalUnless_yields.bind fun value hvalue =>
      Yields.expect.bind fun _ _ => .pure (.ret hkeyword (isOptionalOf_getD hvalue))
  unfold returnStatement
  dsimp only
  split
  · exact (Yields.report hkeyword _).bind fun _ _ => hbehind
  · exact hbehind

theorem variableDeclaration_yields : Yields P eof (IsStatementOf P) (variableDeclaration bound) := by
  have hinitial {name : Token} (hname : P name) {initial : Node} (h : IsOptionalOf P initial) :
      Yields P eof (IsStatementOf P) (do
        let _ ← expect .semicolon "';' after variable declaration"
        return .var (.token name) initial) :=
    Yields.expect.bind fun _ _ => .pure (.var hname h)
  refine Yields.expect.bind fun name hname => .take? (fun _ _ _ => ?_) (hinitial hname (.inl rfl))
  exact expression_yields.bind fun value hvalue => hinitial hname (.inr hvalue)

theorem ifStatement_yields (h : Yields P eof (IsStatementOf P) step) :
    Yields P eof (IsStatementOf P) (ifStatement bound step) := by
  refine Yields.expect.bind fun _ _ => expression_yields.bind fun condition hcondition => ?_
  refine Yields.expect.bind fun _ _ => h.bind fun yes hyes => .take? (fun _ _ _ => ?_) ?_
  · exact h.bind fun no hno => .pure (.branchElse hcondition hyes hno)
  · exact .pure (.branch hcondition hyes)

theorem whileStatement_yields (h : Yields P eof (IsStatementOf P) step) :
    Yields P eof (IsStatementOf P) (whileStatement bound step) := by
  refine Yields.expect.bind fun _ _ => expression_yields.bind fun condition hcondition => ?_
  exact Yields.expect.bind fun _ _ => h.bind fun body hbody => .pure (.loop hcondition hbody)

theorem isStatementOf_desugarFor {initial condition increment : Option Node} {body : Node}
    (hinitial : ∀ s ∈ initial, IsStatementOf P s) (hcondition : ∀ e ∈ condition, IsExpressionOf P e)
    (hincrement : ∀ e ∈ increment, IsExpressionOf P e) (hbody : IsStatementOf P body) :
    IsStatementOf P (desugarFor initial condition increment body) := by
  have htest : IsExpressionOf P (condition.getD (.literal (.bool true))) := by
    cases condition with
    | none => exact .literal rfl
    | some e => exact hcondition e rfl
  have hround (e : Node) (he : increment = some e) : IsStatementOf P (.block [body, .expression e]) :=
    .block (by simpa using ⟨hbody, IsStatementOf.expression (hincrement e he)⟩)
  have hloop : IsStatementOf P (desugarFor none condition increment body) := by
    cases increment with
    | none => exact .loop htest hbody
    | some e => exact .loop htest (hround e rfl)
  cases initial with
  | none => exact hloop
  | some s => exact .block (by simpa using ⟨hinitial s rfl, hloop⟩)

theorem forInitial_yields : Yields P eof (fun o => ∀ s ∈ o, IsStatementOf P s) (forInitial bound) := by
  refine .take? (fun t _ _ => ?_) ?_
  · dsimp only
    split
    · exact variableDeclaration_yields.bind fun s hs => .pure (by simpa using hs)
    · exact .pure (by simp)
  · exact expressionStatement_yields.bind fun s hs => .pure (by simpa using hs)

theorem forStatement_yields (h : Yields P eof (IsStatementOf P) step) :
    Yields P eof (IsStatementOf P) (forStatement bound step) := by
  refine Yields.expect.bind fun _ _ => forInitial_yields.bind fun initial hinitial => ?_
  refine optionalUnless_yields.bind fun condition hcondition => Yields.expect.bind fun _ _ => ?_
  refine optionalUnless_yields.bind fun increment hincrement => Yields.expect.bind fun _ _ => ?_
  exact h.bind fun body hbody => .pure (isStatementOf_desugarFor hinitial hcondition hincrement hbody)

theorem block_yields (h : Yields P eof (fun o => ∀ s ∈ o, IsStatementOf P s) item) :
    Yields P eof (fun statements => ∀ s ∈ statements, IsStatementOf P s) (block bound item) :=
  (itemsUntil_yields _ h bound).bind fun _ hstatements => Yields.expect.bind fun _ _ => .pure hstatements

theorem functionDeclaration_yields (h : Yields P eof (fun o => ∀ s ∈ o, IsStatementOf P s) item) :
    Yields P eof (IsStatementOf P) (functionDeclaration bound item) := by
  refine Yields.expect.bind fun name hname => Yields.expect.bind fun _ _ => ?_
  refine (commaList_yields _ _ Yields.expect).bind fun params hparams => ?_
  refine Yields.expect.bind fun _ _ => Yields.expect.bind fun _ _ => ?_
  exact (block_yields h).bind fun body hbody => .pure (.function hname hparams hbody)

/-- A statement and a declaration for one bound, since each is read by way of the other. -/
theorem statement_declaration_yields (bound : Nat) :
    (∀ inFunction, Yields P eof (IsStatementOf P) (statement bound inFunction)) ∧
      ∀ inFunction, Yields P eof (fun o => ∀ s ∈ o, IsStatementOf P s) (declaration bound inFunction) := by
  induction bound with
  | zero => exact ⟨fun _ => .throwPanic, fun _ => .throwPanic⟩
  | succ bound ih =>
    obtain ⟨ihstatement, ihdeclaration⟩ := ih
    constructor
    · intro inFunction
      refine .take? (fun t ht _ => ?_) expressionStatement_yields
      dsimp only
      split
      · exact ifStatement_yields (ihstatement inFunction)
      · exact printStatement_yields
      · exact whileStatement_yields (ihstatement inFunction)
      · exact forStatement_yields (ihstatement inFunction)
      · exact returnStatement_yields ht
      · exact (block_yields (ihdeclaration inFunction)).bind fun _ hstatements => .pure (.block hstatements)
    · intro inFunction
      refine .recover (.take? (fun t _ _ => ?_) (ihstatement inFunction))
      dsimp only
      split
      · exact functionDeclaration_yields (ihdeclaration true)
      · exact variableDeclaration_yields

theorem program_yields : Yields P eof (fun statements => ∀ s ∈ statements, IsStatementOf P s) (program bound) :=
  itemsUntil_yields _ ((statement_declaration_yields bound).2 false) bound

end Grammar

/-! ### Whole texts -/

/-- What a run over a whole list of tokens keeps. -/
private theorem program_run {P : Token → Prop} {ts : List Token} (hP : ∀ t ∈ ts, P t) (eof : Token) :
    Grammar.Within P eof (Grammar.endOf (Grammar.program (Grammar.boundFor ts) ⟨ts, eof, []⟩)) ∧
      ∀ program c, Grammar.program (Grammar.boundFor ts) ⟨ts, eof, []⟩ = .ok program c →
        ∀ s ∈ program, s.IsStatementOf P :=
  Grammar.program_yields _ ⟨hP, rfl, by simp⟩

/-- The statements that a parse gives, malformed ones left out, are statements over the tokens parsed, with whatever all of
these have in common. -/
theorem parseProgramTokens_statementsOf {P : Token → Prop} {ts : List Token} (hP : ∀ t ∈ ts, P t) (eof : Token) :
    ∀ s ∈ (parseProgramTokens ts eof).result, s.IsStatementOf P := by
  obtain ⟨-, hstatements⟩ := program_run hP eof
  simp only [parseProgramTokens, Grammar.parseTokens]
  cases hrun : Grammar.program (Grammar.boundFor ts) ⟨ts, eof, []⟩ with
  | ok program c => exact hstatements program c hrun
  | error e c => simp

theorem parseProgramTokens_statements (ts : List Token) (eof : Token) :
    ∀ s ∈ (parseProgramTokens ts eof).result, s.IsStatementOf (· ∈ ts) :=
  parseProgramTokens_statementsOf (fun _ h => h) eof

/-- A diagnostic of a parse is about one of the tokens parsed or about the end. -/
theorem parseProgramTokens_diagnostics (ts : List Token) (eof : Token) :
    ∀ d ∈ (parseProgramTokens ts eof).diagnostics, ∃ t complaint, (t ∈ ts ∨ t = eof) ∧ d = t.complain complaint := by
  obtain ⟨hwithin, -⟩ := program_run (P := (· ∈ ts)) (fun _ h => h) eof
  simp only [parseProgramTokens, Grammar.parseTokens]
  cases hrun : Grammar.program (Grammar.boundFor ts) ⟨ts, eof, []⟩ with
  | ok program c =>
    rw [hrun] at hwithin
    exact hwithin.reports
  | error e c =>
    rw [hrun] at hwithin
    exact hwithin.reports

end LoxLang
