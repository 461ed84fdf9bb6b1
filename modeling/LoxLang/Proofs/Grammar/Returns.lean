import LoxLang.Proofs.Grammar.Steps
/-!
# Returns and where they stand

A parser decides that a `return` is at top level when it meets the keyword, long before there is a
tree, and a panic may still throw away everything around it. Here both ends are put together: the
returns that a parse meets, each with whether a function body is around it, are one list, in the order
of the tokens. The complaints about returns at top level are those of the list that have no function
around them, one each and in order, and the returns of the tree are some of the list, with the same
answer as to whether a function is around them.

So a return of the tree has been complained about exactly if no function of the tree is around it, even
if two keywords look the same in a report.
-/

namespace LoxLang

namespace Node

mutual

/-- The keywords of the returns in a statement, from the left, each with whether a function body is around it.
Expressions hold no statements. -/
def returns (inFunction : Bool) : Node → List (Node × Bool)
  | ret keyword _ => [(keyword, inFunction)]
  | block statements => returnsAll inFunction statements
  | branch _ yes no => returns inFunction yes ++ returns inFunction no
  | loop _ body => returns inFunction body
  | function _ _ body => returnsAll true body
  | _ => []

def returnsAll (inFunction : Bool) : List Node → List (Node × Bool)
  | [] => []
  | s :: rest => returns inFunction s ++ returnsAll inFunction rest

end

theorem returnsAll_eq_flatMap (inFunction : Bool) (statements : List Node) :
    returnsAll inFunction statements = statements.flatMap (returns inFunction) := by
  induction statements with
  | nil => rfl
  | cons s rest ih => rw [returnsAll, List.flatMap_cons, ih]

end Node

namespace Grammar

/-- The complaints about returns at top level. -/
def returnReports (reports : List Diagnostic) : List Diagnostic :=
  reports.filter fun d => d.complaint = .topLevelReturn

/-- What is to be reported of returns that were met: those without a function around them. -/
def complaintsOf (met : List (Token × Bool)) : List Diagnostic :=
  (met.filter fun m => !m.2).map fun m => m.1.complain .topLevelReturn

/-- A return that was met, as it stands in a tree. -/
def inTree (m : Token × Bool) : Node × Bool := (.token m.1, m.2)

/-- Between two moments of a parse just these returns were met. -/
structure Passes (c c' : Cursor) (met : List (Token × Bool)) : Prop where
  /-- They are among the tokens taken, in the same order. -/
  tokens : ∃ taken, c.rest = taken ++ c'.rest ∧ (met.map Prod.fst).Sublist taken
  keywords : ∀ m ∈ met, m.1.kind = .kwReturn
  /-- Those at top level were complained about, and nothing else was for this reason. -/
  reports : returnReports c'.reports = returnReports c.reports ++ complaintsOf met

namespace Passes

variable {c c' c'' : Cursor} {met met' : List (Token × Bool)}

/-- Tokens were taken and complaints made, but none about a return. -/
theorem of_suffix (hrest : c'.rest <:+ c.rest) (hreports : returnReports c'.reports = returnReports c.reports) :
    Passes c c' [] := by
  obtain ⟨taken, htaken⟩ := hrest
  exact ⟨⟨taken, htaken.symm, List.nil_sublist taken⟩, by simp, by rw [hreports]; exact (List.append_nil _).symm⟩

theorem refl (c : Cursor) : Passes c c [] := of_suffix List.suffix_rfl rfl

theorem trans (h : Passes c c' met) (h' : Passes c' c'' met') : Passes c c'' (met ++ met') where
  tokens := by
    obtain ⟨taken, htaken, hmet⟩ := h.tokens
    obtain ⟨taken', htaken', hmet'⟩ := h'.tokens
    refine ⟨taken ++ taken', by rw [htaken, htaken', List.append_assoc], ?_⟩
    rw [List.map_append]
    exact hmet.append hmet'
  keywords := List.forall_mem_append.mpr ⟨h.keywords, h'.keywords⟩
  reports := by
    rw [h'.reports, h.reports, complaintsOf, complaintsOf, complaintsOf, List.filter_append, List.map_append,
      List.append_assoc]

end Passes

/-! ### Steps -/

theorem skipAfter_suffix (last : Token) (ts : List Token) : skipAfter last ts <:+ ts := by
  induction ts generalizing last with
  | nil => exact List.suffix_rfl
  | cons t rest ih =>
    rw [skipAfter]
    split
    · exact List.suffix_rfl
    · exact (ih t).trans (List.suffix_cons t rest)

theorem synchronize_suffix (ts : List Token) : synchronize ts <:+ ts := by
  cases ts with
  | nil => exact List.suffix_rfl
  | cons t rest => exact (skipAfter_suffix t rest).trans (List.suffix_cons t rest)

variable {α β : Type}

/-- All returns that the result of a parser accounts for were met, by the parser or, as `before`, already before it. -/
def Finds (before : List (Node × Bool)) (found : α → List (Node × Bool)) (p : Parser α) : Prop :=
  ∀ c, ∃ met, Passes c (endOf (p c)) met ∧ ∀ a c', p c = .ok a c' → (found a).Sublist (before ++ met.map inTree)

/-- A parser whose result accounts for no return. -/
abbrev FindsNothing (before : List (Node × Bool)) (p : Parser α) : Prop := Finds before (fun _ => before) p

/-- As `Finds`, for a parser that runs when `t` has been taken and looks back at it. -/
def FindsAfter (t : Token) (before : List (Node × Bool)) (found : α → List (Node × Bool)) (p : Parser α) : Prop :=
  ∀ c, ∃ met, Passes { c with rest := t :: c.rest } (endOf (p c)) met ∧
    ∀ a c', p c = .ok a c' → (found a).Sublist (before ++ met.map inTree)

namespace Finds

variable {before : List (Node × Bool)} {found : α → List (Node × Bool)} {found' : β → List (Node × Bool)}
  {p : Parser α} {f : α → Parser β}

/-- A run that meets no return. -/
theorem of_suffix (hrest : ∀ c, (endOf (p c)).rest <:+ c.rest)
    (hreports : ∀ c, returnReports (endOf (p c)).reports = returnReports c.reports) : FindsNothing before p := by
  intro c
  refine ⟨[], .of_suffix (hrest c) (hreports c), fun a c' _ => ?_⟩
  rw [List.map_nil, List.append_nil]

theorem bind (hp : Finds before found p) (hf : ∀ a, Finds (found a) found' (f a)) :
    Finds before found' (p >>= f) := by
  intro c
  obtain ⟨met, hpasses, hfound⟩ := hp c
  cases hrun : p c with
  | error e c' =>
    rw [hrun] at hpasses
    rw [bind_error hrun]
    exact ⟨met, hpasses, fun b c'' hok => by cases hok⟩
  | ok a c' =>
    obtain ⟨met', hpasses', hfound'⟩ := hf a c'
    rw [hrun] at hpasses
    rw [bind_ok hrun]
    refine ⟨met ++ met', hpasses.trans hpasses', fun b c'' hok => ?_⟩
    calc (found' b).Sublist (found a ++ met'.map inTree) := hfound' b c'' hok
      List.Sublist _ (before ++ met.map inTree ++ met'.map inTree) := (hfound a c' hrun).append_right _
      _ = before ++ (met ++ met').map inTree := by rw [List.map_append, List.append_assoc]

theorem pure {a : α} (h : (found a).Sublist before) : Finds before found (Pure.pure a) := by
  intro c
  refine ⟨[], .refl c, fun b c' hok => ?_⟩
  cases hok
  rwa [List.map_nil, List.append_nil]

/-- What was met before stays in front. -/
theorem frame (h : Finds [] found p) : Finds before (fun a => before ++ found a) p := by
  intro c
  obtain ⟨met, hpasses, hfound⟩ := h c
  exact ⟨met, hpasses, fun a c' hok => (hfound a c' hok).append_left before⟩

theorem after (h : Finds before found p) (t : Token) : FindsAfter t before found p := by
  intro c
  obtain ⟨met, hpasses, hfound⟩ := h c
  have htaken : Passes { c with rest := t :: c.rest } c [] := .of_suffix (List.suffix_cons t c.rest) rfl
  exact ⟨met, htaken.trans hpasses, hfound⟩

theorem throwPanic : Finds before found (throw .panic) :=
  fun c => ⟨[], .refl c, fun a c' hok => by cases hok⟩

/-- A complaint for any other reason. -/
theorem report (t : Token) {complaint : Complaint} (h : complaint ≠ .topLevelReturn) :
    FindsNothing before (Grammar.report t complaint) := by
  refine of_suffix (fun _ => List.suffix_rfl) fun c => ?_
  change returnReports (c.reports ++ [t.complain complaint]) = _
  simp [returnReports, Token.complain, h]

theorem look {q : Cursor → Parser β} (h : ∀ c, Finds before found' (q c)) : Finds before found' (get >>= q) :=
  fun c => h c c

theorem isAt {kind : Kind} {q : Bool → Parser β} (h : ∀ b, Finds before found' (q b)) :
    Finds before found' (Grammar.isAt kind >>= q) :=
  fun c => h (c.isAt kind) c

theorem fail {complaint : Complaint} (h : complaint ≠ .topLevelReturn) : Finds before found (Grammar.fail complaint) :=
  look fun c => (report c.peek h).bind fun _ => throwPanic

/-- A step that takes a token of a wanted kind or none. -/
theorem take? {wanted : Kind → Bool} {q : Option Token → Parser β}
    (hsome : ∀ t, FindsAfter t before found' (q (some t))) (hnone : Finds before found' (q none)) :
    Finds before found' (Grammar.take? wanted >>= q) := by
  rintro ⟨rest, eof, reports⟩
  rcases unwanted_or_cons wanted rest with h | ⟨t, after, rfl, h⟩
  · rw [bind_ok (take?_unwanted h)]
    exact hnone _
  · rw [bind_ok (take?_wanted h after eof reports)]
    exact hsome t ⟨after, eof, reports⟩

theorem takeAll {wanted : Kind → Bool} : FindsNothing before (Grammar.takeAll wanted) :=
  of_suffix (fun _ => List.dropWhile_suffix _) fun _ => rfl

theorem expect {kind : Kind} {what : String} : FindsNothing before (Grammar.expect kind what) :=
  take? (fun t => (pure (.refl _)).after t) (fail (by simp))

/-- Where a panic is stopped, what was met by then stays met, but nothing of it is in the result. -/
theorem recover (h : Finds [] found p) : Finds [] (fun o => o.elim [] found) (Grammar.recover p) := by
  intro c
  obtain ⟨met, hpasses, hfound⟩ := h c
  cases hrun : p c with
  | ok a c' =>
    rw [hrun] at hpasses
    simp only [Grammar.recover, hrun]
    refine ⟨met, hpasses, fun o c'' hok => ?_⟩
    cases hok
    exact hfound a c' hrun
  | error e c' =>
    rw [hrun] at hpasses
    simp only [Grammar.recover, hrun]
    refine ⟨met ++ [], hpasses.trans (.of_suffix (synchronize_suffix c'.rest) rfl), fun o c'' hok => ?_⟩
    cases hok
    exact List.nil_sublist _

end Finds

/-! ### Lists -/

variable {before : List (Node × Bool)}

theorem commaItems_finds {item : Parser α} (what : String) (hitem : FindsNothing before item) (bound count : Nat) :
    FindsNothing before (commaItems what item bound count) := by
  induction bound generalizing count with
  | zero => exact .throwPanic
  | succ bound ih =>
    unfold commaItems
    dsimp only
    generalize hround : (item >>= _) = round
    have hfinds : FindsNothing before round := by
      rw [← hround]
      refine hitem.bind fun first => .take? (fun comma => ?_) (.pure (.refl _))
      exact ((ih (count + 1)).bind fun _ => .pure (.refl _)).after comma
    split
    · exact .look fun c => (Finds.report c.peek (by simp)).bind fun _ => hfinds
    · exact hfinds

theorem commaList_finds {item : Parser α} (bound : Nat) (what : String) (hitem : FindsNothing before item) :
    FindsNothing before (commaList bound what item) := by
  refine .isAt fun closed => ?_
  split
  · exact .pure (.refl _)
  · exact commaItems_finds what hitem bound 0

/-- The rounds of a list find one after the other what their items find. -/
theorem itemsUntil_finds {found : α → List (Node × Bool)} {item : Parser (Option α)} (stop : Cursor → Bool)
    (hitem : Finds [] (fun o => o.elim [] found) item) (bound : Nat) :
    Finds [] (fun as => as.flatMap found) (itemsUntil stop item bound) := by
  induction bound with
  | zero => exact .pure (.refl _)
  | succ bound ih =>
    unfold itemsUntil
    refine .look fun c => .look fun c' => ?_
    split
    · exact .pure (.refl _)
    · refine hitem.bind fun first => ih.frame.bind fun as => .pure ?_
      cases first with
      | none => exact List.Sublist.refl _
      | some a => exact List.Sublist.refl _

/-! ### Expressions -/

variable {whole : Parser Node} {bound : Nat}

theorem primary_finds (h : FindsNothing before whole) : FindsNothing before (primary whole) := by
  refine .take? (fun t => Finds.after ?_ t) (.fail (by simp))
  dsimp only
  split
  iterate 6 exact .pure (.refl _)
  exact h.bind fun inner => Finds.expect.bind fun _ => .pure (.refl _)

theorem callsAfter_finds (h : FindsNothing before whole) (callee : Node) :
    FindsNothing before (callsAfter whole bound callee) := by
  induction bound generalizing callee with
  | zero => exact .pure (.refl _)
  | succ bound ih =>
    refine .take? (fun t => Finds.after ?_ t) (.pure (.refl _))
    exact (commaList_finds _ _ h).bind fun arguments => Finds.expect.bind fun paren => ih _

theorem call_finds (h : FindsNothing before whole) : FindsNothing before (call bound whole) :=
  (primary_finds h).bind fun callee => callsAfter_finds h callee

theorem unary_finds (h : FindsNothing before whole) : FindsNothing before (unary bound whole) :=
  Finds.takeAll.bind fun _ => (call_finds h).bind fun _ => .pure (.refl _)

theorem leftLevel_finds {isOperator : Kind → Bool} {build : Node → Node → Node → Node} {operand : Parser Node}
    (hoperand : FindsNothing before operand) : FindsNothing before (leftLevel bound isOperator build operand) := by
  refine hoperand.bind fun left => ?_
  induction bound generalizing left with
  | zero => exact .pure (.refl _)
  | succ bound ih =>
    refine .take? (fun t => Finds.after ?_ t) (.pure (.refl _))
    exact hoperand.bind fun right => ih _

theorem assignment_finds (h : FindsNothing before whole) : FindsNothing before (assignment bound whole) := by
  have hdisjunction : FindsNothing before (disjunction bound whole) := by
    iterate 6 apply leftLevel_finds
    exact unary_finds h
  refine hdisjunction.bind fun left => .take? (fun equals => Finds.after ?_ equals) (.pure (.refl _))
  refine h.bind fun value => ?_
  split
  · exact .pure (.refl _)
  · exact (Finds.report equals (by simp)).bind fun _ => .pure (.refl _)

theorem expression_finds : FindsNothing before (expression bound) := by
  induction bound with
  | zero => exact .throwPanic
  | succ bound ih => exact assignment_finds ih

/-! ### Statements -/

open Node

variable {inFunction : Bool} {step : Parser Node} {item : Parser (Option Node)}

theorem expressionStatement_finds : Finds [] (returns inFunction) (expressionStatement bound) :=
  expression_finds.bind fun _ => Finds.expect.bind fun _ => .pure (.refl _)

theorem printStatement_finds : Finds [] (returns inFunction) (printStatement bound) :=
  expression_finds.bind fun _ => Finds.expect.bind fun _ => .pure (.refl _)

theorem optionalUnless_finds {kind : Kind} : FindsNothing before (optionalUnless bound kind) := by
  refine .isAt fun closed => ?_
  split
  · exact .pure (.refl _)
  · exact expression_finds.bind fun value => .pure (.refl _)

theorem variableDeclaration_finds : Finds [] (returns inFunction) (variableDeclaration bound) := by
  have hbehind (name : Token) (initial : Node) : Finds [] (returns inFunction) (do
      let _ ← expect .semicolon "';' after variable declaration"
      return .var (.token name) initial) :=
    Finds.expect.bind fun _ => .pure (.refl _)
  refine Finds.expect.bind fun name => .take? (fun t => Finds.after ?_ t) (hbehind name .null)
  exact expression_finds.bind fun value => hbehind name value

/-- Outside of functions a `return` is complained about and then read as inside of one. -/
theorem returnStatement_eq (keyword : Token) (c : Cursor) : returnStatement bound inFunction keyword c =
    returnStatement bound true keyword { c with reports := c.reports ++ complaintsOf [(keyword, inFunction)] } := by
  cases inFunction with
  | false => rfl
  | true => simp [complaintsOf]

theorem returnStatement_finds {keyword : Token} (hkeyword : keyword.kind = .kwReturn) :
    FindsAfter keyword [] (returns inFunction) (returnStatement bound inFunction keyword) := by
  have hmeets (c : Cursor) : Passes { c with rest := keyword :: c.rest }
      { c with reports := c.reports ++ complaintsOf [(keyword, inFunction)] } [(keyword, inFunction)] :=
    { tokens := ⟨[keyword], rfl, List.Sublist.refl _⟩
      keywords := by simpa using hkeyword
      reports := by cases inFunction <;> simp [returnReports, complaintsOf, Token.complain] }
  have hbehind : Finds [inTree (keyword, inFunction)] (returns inFunction) (returnStatement bound true keyword) :=
    optionalUnless_finds.bind fun value => Finds.expect.bind fun _ => .pure (.refl _)
  intro c
  rw [returnStatement_eq]
  obtain ⟨met, hpasses, hfound⟩ := hbehind { c with reports := c.reports ++ complaintsOf [(keyword, inFunction)] }
  exact ⟨(keyword, inFunction) :: met, (hmeets c).trans hpasses, hfound⟩

theorem ifStatement_finds (h : Finds [] (returns inFunction) step) :
    Finds [] (returns inFunction) (ifStatement bound step) := by
  refine Finds.expect.bind fun _ => expression_finds.bind fun condition => Finds.expect.bind fun _ => ?_
  refine h.bind fun yes => .take? (fun t => Finds.after ?_ t) (.pure ?_)
  · exact h.frame.bind fun no => .pure (.refl _)
  · simp [returns]

theorem whileStatement_finds (h : Finds [] (returns inFunction) step) :
    Finds [] (returns inFunction) (whileStatement bound step) := by
  refine Finds.expect.bind fun _ => expression_finds.bind fun condition => Finds.expect.bind fun _ => ?_
  exact h.bind fun body => .pure (.refl _)

/-- The loop that a `for` statement stands for holds the returns of its first clause and of its body. -/
theorem returns_desugarFor (initial condition increment : Option Node) (body : Node) :
    returns inFunction (desugarFor initial condition increment body) =
      initial.elim [] (returns inFunction) ++ returns inFunction body := by
  cases initial <;> cases increment <;> simp [desugarFor, returns, returnsAll]

theorem forInitial_finds : Finds [] (fun o => o.elim [] (returns inFunction)) (forInitial bound) := by
  refine .take? (fun t => Finds.after ?_ t) ?_
  · dsimp only
    split
    · exact variableDeclaration_finds.bind fun s => .pure (.refl _)
    · exact .pure (.refl _)
  · exact expressionStatement_finds.bind fun s => .pure (.refl _)

theorem forStatement_finds (h : Finds [] (returns inFunction) step) :
    Finds [] (returns inFunction) (forStatement bound step) := by
  have hinitial : Finds [] (fun o => o.elim [] (returns inFunction)) (forInitial bound) := forInitial_finds
  refine Finds.expect.bind fun _ => hinitial.bind fun initial => ?_
  refine optionalUnless_finds.bind fun condition => Finds.expect.bind fun _ => ?_
  refine optionalUnless_finds.bind fun increment => Finds.expect.bind fun _ => ?_
  refine h.frame.bind fun body => .pure ?_
  rw [returns_desugarFor]

theorem block_finds (h : Finds [] (fun o => o.elim [] (returns inFunction)) item) :
    Finds [] (returnsAll inFunction) (block bound item) := by
  refine (itemsUntil_finds _ h bound).bind fun statements => Finds.expect.bind fun _ => .pure ?_
  rw [returnsAll_eq_flatMap]

/-- Whatever is around a function, its body is read as the body of a function. -/
theorem functionDeclaration_finds (h : Finds [] (fun o => o.elim [] (returns true)) item) :
    Finds [] (returns inFunction) (functionDeclaration bound item) := by
  refine Finds.expect.bind fun name => Finds.expect.bind fun _ => ?_
  refine (commaList_finds _ _ Finds.expect).bind fun params => ?_
  refine Finds.expect.bind fun _ => Finds.expect.bind fun _ => ?_
  exact (block_finds h).bind fun body => .pure (.refl _)

/-- A statement and a declaration for one bound, since each is read by way of the other. -/
theorem statement_declaration_finds (bound : Nat) :
    (∀ inFunction, Finds [] (returns inFunction) (statement bound inFunction)) ∧
      ∀ inFunction, Finds [] (fun o => o.elim [] (returns inFunction)) (declaration bound inFunction) := by
  induction bound with
  | zero => exact ⟨fun _ => .throwPanic, fun _ => .throwPanic⟩
  | succ bound ih =>
    obtain ⟨ihstatement, ihdeclaration⟩ := ih
    constructor
    · intro inFunction
      refine .take? (fun t => ?_) expressionStatement_finds
      dsimp only
      split
      · exact (ifStatement_finds (ihstatement inFunction)).after t
      · exact printStatement_finds.after t
      · exact (whileStatement_finds (ihstatement inFunction)).after t
      · exact (forStatement_finds (ihstatement inFunction)).after t
      next hkind => exact returnStatement_finds hkind
      · have hblock : Finds [] (returns inFunction) (do return .block (← block bound (declaration bound inFunction))) :=
          (block_finds (ihdeclaration inFunction)).bind fun _ => .pure (.refl _)
        exact hblock.after t
    · intro inFunction
      refine .recover (.take? (fun t => ?_) (ihstatement inFunction))
      dsimp only
      split
      · exact (functionDeclaration_finds (ihdeclaration true)).after t
      · exact variableDeclaration_finds.after t

theorem program_finds (bound : Nat) : Finds [] (returnsAll false) (program bound) := by
  have hprogram := itemsUntil_finds (fun _ => false) ((statement_declaration_finds bound).2 false) bound
  rwa [show returnsAll false = fun statements => statements.flatMap (returns false) from
    funext (returnsAll_eq_flatMap false)]

end Grammar

/-! ### Whole texts -/

open Grammar

/-- The returns that were met in a list of tokens account for the complaints and for the tree of its parse. -/
structure Parsed.AccountsFor (tokens : List Token) (parsed : Parsed (List Node)) (met : List (Token × Bool)) : Prop where
  /-- The keywords met are some of the tokens, in the same order. -/
  tokens : (met.map Prod.fst).Sublist tokens
  keywords : ∀ m ∈ met, m.1.kind = .kwReturn
  /-- What is complained about is each return met without a function around it, and no other. -/
  reports : returnReports parsed.diagnostics = complaintsOf met
  /-- The returns of the tree were met, inside a function exactly if one is around them in the tree. -/
  tree : (Node.returnsAll false parsed.result).Sublist (met.map inTree)

theorem parseProgramTokens_accountsFor (ts : List Token) (eof : Token) :
    ∃ met, (parseProgramTokens ts eof).AccountsFor ts met := by
  obtain ⟨met, hpasses, hfound⟩ := program_finds (boundFor ts) ⟨ts, eof, []⟩
  obtain ⟨taken, htaken, hmet⟩ := hpasses.tokens
  have htokens : (met.map Prod.fst).Sublist ts := by
    rw [show ts = _ from htaken]
    exact hmet.trans (List.sublist_append_left _ _)
  simp only [parseProgramTokens, parseTokens]
  cases hrun : program (boundFor ts) ⟨ts, eof, []⟩ with
  | ok statements c =>
    rw [hrun] at hpasses
    exact ⟨met, htokens, hpasses.keywords, hpasses.reports, hfound statements c hrun⟩
  | error e c =>
    rw [hrun] at hpasses
    exact ⟨met, htokens, hpasses.keywords, hpasses.reports, List.nil_sublist _⟩

end LoxLang
