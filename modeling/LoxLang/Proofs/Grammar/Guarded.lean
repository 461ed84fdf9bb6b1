import LoxLang.Proofs.Grammar.Lookahead
/-!
# The grammar with any guard

Declarations are where a panic is stopped. Here what stops it is an argument, so that the grammar that recovers and the one
that gives up at the first panic are the same definition, and what a statement looks at is shown once for both.
-/

namespace LoxLang.Grammar

/-! ### One round of the grammar -/

/-- A statement, for given parsers of the statements and declarations inside of it. -/
def statementBody (bound : Nat) (inFunction : Bool) (inner : Parser Node) (declaration : Parser (Option Node)) :
    Parser Node := do
  match ← take? startsPlainStatement with
  | none => expressionStatement bound
  | some t =>
    match t.kind with
    | .kwIf => ifStatement bound inner
    | .kwPrint => printStatement bound
    | .kwWhile => whileStatement bound inner
    | .kwFor => forStatement bound inner
    | .kwReturn => returnStatement bound inFunction t
    | _ => return .block (← block bound declaration)

/-- The only way to start a plain statement that is not a word. -/
theorem leftBrace_of_startsPlainStatement {k : Kind} (h : startsPlainStatement k = true) (hif : k ≠ .kwIf)
    (hprint : k ≠ .kwPrint) (hwhile : k ≠ .kwWhile) (hfor : k ≠ .kwFor) (hreturn : k ≠ .kwReturn) : k = .leftBrace := by
  cases k <;> simp_all [startsPlainStatement]

/-- A declaration that may panic, for given parsers of statements and of the declarations inside functions. -/
def declarationBody (bound : Nat) (statement : Parser Node) (declaration : Parser (Option Node)) : Parser Node := do
  match ← take? (fun k => k == .kwFun || k == .kwVar) with
  | none => statement
  | some t =>
    if t.kind == .kwFun then functionDeclaration bound declaration
    else variableDeclaration bound

theorem statement_succ (bound : Nat) (inFunction : Bool) : statement (bound + 1) inFunction =
    statementBody bound inFunction (statement bound inFunction) (declaration bound inFunction) := rfl

theorem declaration_succ (bound : Nat) (inFunction : Bool) : declaration (bound + 1) inFunction =
    recover (declarationBody bound (statement bound inFunction) (declaration bound true)) := rfl

mutual

def statementWith (guard : Parser Node → Parser (Option Node)) : (bound : Nat) → (inFunction : Bool) → Parser Node
  | 0, _ => throw .panic
  | bound + 1, inFunction =>
    statementBody bound inFunction (statementWith guard bound inFunction) (declarationWith guard bound inFunction)

def declarationWith (guard : Parser Node → Parser (Option Node)) :
    (bound : Nat) → (inFunction : Bool) → Parser (Option Node)
  | 0, _ => throw .panic
  | bound + 1, inFunction =>
    guard (declarationBody bound (statementWith guard bound inFunction) (declarationWith guard bound true))

end

theorem statementWith_declarationWith_recover (bound : Nat) :
    statementWith recover bound = statement bound ∧ declarationWith recover bound = declaration bound := by
  induction bound with
  | zero => exact ⟨funext fun _ => rfl, funext fun _ => rfl⟩
  | succ bound ih =>
    obtain ⟨hstatement, hdeclaration⟩ := ih
    constructor
    · funext inFunction
      rw [statementWith, statement_succ, hstatement, hdeclaration]
    · funext inFunction
      rw [declarationWith, declaration_succ, hstatement, hdeclaration]

/-! ### What one round looks at -/

/-- Any token may be taken, and whatever is no panic may be reported. -/
structure Limits.Open (limits : Limits) : Prop where
  takes : ∀ k, limits.takes k
  reports : ∀ d : Diagnostic, d.isPanic = false → limits.reports d

theorem Limits.Open.lenient {limits : Limits} (h : limits.Open) : limits.Lenient := ⟨fun k _ => h.takes k, h.reports⟩

section Round

variable {L : Limits} {b b' m n : Nat} {inner inner' : Parser Node} {item item' : Parser (Option Node)}

theorem expressionBefore_local (hL : L.Open) (hb : m ≤ b) (hb' : n ≤ b') {kind : Kind} {what : String} {α : Type}
    {build : Node → α} : Local m n 1 L
      (expression b >>= fun value => expect kind what >>= fun _ => pure (build value))
      (expression b' >>= fun value => expect kind what >>= fun _ => pure (build value)) :=
  ((expression_local hL.lenient b b').lower hb hb' le_rfl).bind fun _ => .expect (hL.takes _) fun _ _ => .pure

theorem optionalUnless_local (hL : L.Lenient) (hb : m ≤ b) (hb' : n ≤ b') {kind : Kind} :
    Local m n 0 L (optionalUnless b kind) (optionalUnless b' kind) := by
  refine Local.isAt.bind fun closed => ?_
  cases closed with
  | true => exact .pure
  | false => exact (((expression_local hL b b').lower hb hb' (Nat.zero_le _))).bind fun _ => .pure

theorem returnStatement_local (hL : L.Open) (hb : m ≤ b) (hb' : n ≤ b') {inFunction : Bool} {keyword : Token} :
    Local m n 1 L (returnStatement b inFunction keyword) (returnStatement b' inFunction keyword) := by
  have hvalue : Local m n 1 L (returnStatement b true keyword) (returnStatement b' true keyword) :=
    (optionalUnless_local hL.lenient hb hb').andThen fun _ => .expect (hL.takes _) fun _ _ => .pure
  cases inFunction with
  | true => exact hvalue
  | false => exact (Local.report (hL.reports _ rfl)).andThen fun _ => hvalue

theorem variableDeclaration_local (hL : L.Open) (hb : m ≤ b) (hb' : n ≤ b') :
    Local m n 1 L (variableDeclaration b) (variableDeclaration b') := by
  refine .expect (hL.takes _) fun name _ =>
    .take? (fun k _ => hL.takes k) (fun _ _ => ?_) (.expect (hL.takes _) fun _ _ => .pure)
  refine ((expression_local hL.lenient b b').lower ?_ ?_ ?_).bind fun value => .expect (hL.takes _) fun _ _ => .pure
  all_goals omega

theorem ifStatement_local (hL : L.Open) (hb : m ≤ b) (hb' : n ≤ b') (h : Local m n 1 L inner inner') :
    Local m n 1 L (ifStatement b inner) (ifStatement b' inner') := by
  refine .expect (hL.takes _) fun _ _ => ((expression_local hL.lenient b b').lower ?_ ?_ ?_).bind fun condition =>
    .expect (hL.takes _) fun _ _ => ?_
  · omega
  · omega
  · omega
  refine (h.lower ?_ ?_ ?_).bind fun yes =>
    .take? (fun k _ => hL.takes k) (fun _ _ => (h.lower ?_ ?_ ?_).bind fun no => .pure) .pure
  all_goals omega

theorem whileStatement_local (hL : L.Open) (hb : m ≤ b) (hb' : n ≤ b') (h : Local m n 1 L inner inner') :
    Local m n 1 L (whileStatement b inner) (whileStatement b' inner') := by
  refine .expect (hL.takes _) fun _ _ => ((expression_local hL.lenient b b').lower ?_ ?_ ?_).bind fun condition =>
    .expect (hL.takes _) fun _ _ => (h.lower ?_ ?_ ?_).bind fun body => .pure
  all_goals omega

theorem forInitial_local (hL : L.Open) (hb : m ≤ b) (hb' : n ≤ b') :
    Local m n 1 L (forInitial b) (forInitial b') := by
  refine .take? (fun k _ => hL.takes k) (fun t _ => ?_) ((expressionBefore_local hL hb hb').bind fun _ => .pure)
  dsimp only
  split
  · refine ((variableDeclaration_local hL hb hb').lower ?_ ?_ ?_).bind fun _ => .pure
    all_goals omega
  · exact .pure

theorem forStatement_local (hL : L.Open) (hb : m ≤ b) (hb' : n ≤ b') (h : Local m n 1 L inner inner') :
    Local m n 1 L (forStatement b inner) (forStatement b' inner') := by
  have hclause {m' n' : Nat} (hm : m' ≤ m) (hn : n' ≤ n) {kind : Kind} :
      Local m' n' 0 L (optionalUnless b kind) (optionalUnless b' kind) :=
    optionalUnless_local hL.lenient (hm.trans hb) (hn.trans hb')
  refine .expect (hL.takes _) fun _ _ => ((forInitial_local hL hb hb').lower ?_ ?_ ?_).bind fun initial => ?_
  · omega
  · omega
  · omega
  refine (hclause ?_ ?_).bind fun condition => .expect (hL.takes _) fun _ _ =>
    (hclause ?_ ?_).bind fun increment => .expect (hL.takes _) fun _ _ => (h.lower ?_ ?_ ?_).bind fun body => .pure
  all_goals omega

theorem block_local (hL : L.Open) (hb : m ≤ b) (hb' : n ≤ b') (h : Local m n 0 L item item')
    (hprogress : Progresses m item) : Local m n 1 L (block b item) (block b' item') :=
  (itemsUntil_local (fun _ _ h => h.isAt .rightBrace) h hprogress le_rfl le_rfl hb hb').andThen fun _ =>
    .expect (hL.takes _) fun _ _ => .pure

theorem functionDeclaration_local (hL : L.Open) (hb : m ≤ b) (hb' : n ≤ b') (h : Local m n 0 L item item')
    (hprogress : Progresses m item) : Local m n 1 L (functionDeclaration b item) (functionDeclaration b' item') := by
  refine .expect (hL.takes _) fun name _ => .expect (hL.takes _) fun _ _ => ?_
  refine (commaList_local hL.lenient (.expectOne (hL.takes _)) ?_ ?_).bind fun params =>
    .expect (hL.takes _) fun _ _ => .expect (hL.takes _) fun _ _ => ?_
  · omega
  · omega
  refine ((block_local hL hb hb' h hprogress).lower ?_ ?_ ?_).bind fun body => .pure
  all_goals omega

theorem statementBody_local (hL : L.Open) (hb : m ≤ b) (hb' : n ≤ b') (h : Local (m - 1) (n - 1) 1 L inner inner')
    (hitem : Local (m - 1) (n - 1) 0 L item item') (hprogress : Progresses (m - 1) item) {inFunction : Bool} :
    Local m n 1 L (statementBody b inFunction inner item) (statementBody b' inFunction inner' item') := by
  refine .take? (fun k _ => hL.takes k) (fun t _ => ?_) (expressionBefore_local hL hb hb')
  have hm : m - 1 ≤ b := by omega
  have hn : n - 1 ≤ b' := by omega
  dsimp only
  split
  · exact (ifStatement_local hL hm hn h).lower le_rfl le_rfl (by omega)
  · exact (expressionBefore_local hL hm hn).lower le_rfl le_rfl (by omega)
  · exact (whileStatement_local hL hm hn h).lower le_rfl le_rfl (by omega)
  · exact (forStatement_local hL hm hn h).lower le_rfl le_rfl (by omega)
  · exact (returnStatement_local hL hm hn).lower le_rfl le_rfl (by omega)
  · exact ((block_local hL hm hn hitem hprogress).bind fun _ => .pure).lower le_rfl le_rfl (by omega)

theorem declarationBody_local (hL : L.Open) (hb : m ≤ b) (hb' : n ≤ b') (h : Local m n 1 L inner inner')
    (hitem : Local (m - 1) (n - 1) 0 L item item') (hprogress : Progresses (m - 1) item) :
    Local m n 1 L (declarationBody b inner item) (declarationBody b' inner' item') := by
  refine .take? (fun k _ => hL.takes k) (fun t _ => ?_) h
  have hm : m - 1 ≤ b := by omega
  have hn : n - 1 ≤ b' := by omega
  dsimp only
  split
  · exact (functionDeclaration_local hL hm hn hitem hprogress).lower le_rfl le_rfl (by omega)
  · exact (variableDeclaration_local hL hm hn).lower le_rfl le_rfl (by omega)

end Round

/-! ### What the grammar looks at -/

/-- A guard that a declaration can be put behind. -/
def Guards (limits : Limits) (guard : Parser Node → Parser (Option Node)) : Prop :=
  ∀ {m n : Nat} {p q : Parser Node}, Local m n 1 limits p q → Local m n 0 limits (guard p) (guard q) ∧ Progresses m (guard p)

variable {L : Limits} {guard : Parser Node → Parser (Option Node)}

/-- Every bound leaves a statement half of it for its tokens, and a declaration a little less. -/
theorem statementWith_declarationWith_local (hL : L.Open) (hguard : Guards L guard) (b b' : Nat) (inFunction : Bool) :
    Local (b / 2) (b' / 2) 1 L (statementWith guard b inFunction) (statementWith guard b' inFunction) ∧
      Local ((b - 1) / 2) ((b' - 1) / 2) 0 L (declarationWith guard b inFunction) (declarationWith guard b' inFunction) ∧
      Progresses ((b - 1) / 2) (declarationWith guard b inFunction) := by
  induction b generalizing b' inFunction with
  | zero => exact ⟨.zero, .zero, fun _ _ _ _ _ _ hc => absurd hc (by omega)⟩
  | succ b ih =>
    have hround (b' : Nat) :
        Local ((b + 1) / 2) ((b' + 1) / 2) 1 L (statementWith guard (b + 1) inFunction)
          (statementWith guard (b' + 1) inFunction) ∧
        Local (b / 2) (b' / 2) 0 L (declarationWith guard (b + 1) inFunction) (declarationWith guard (b' + 1) inFunction) ∧
        Progresses (b / 2) (declarationWith guard (b + 1) inFunction) := by
      obtain ⟨hstatement, hdeclaration, hprogress⟩ := ih b' inFunction
      obtain ⟨-, hinner, hinnerProgress⟩ := ih b' true
      simp only [statementWith, declarationWith]
      refine ⟨?_, hguard ?_⟩
      · refine statementBody_local hL ?_ ?_ (hstatement.lower ?_ ?_ le_rfl) (hdeclaration.lower ?_ ?_ le_rfl)
          fun c a taken more new hne hlt hrun => hprogress hne ?_ hrun
        all_goals omega
      · refine declarationBody_local hL ?_ ?_ hstatement (hinner.lower ?_ ?_ le_rfl)
          fun c a taken more new hne hlt hrun => hinnerProgress hne ?_ hrun
        all_goals omega
    cases b' with
    | zero =>
      obtain ⟨hstatement, hdeclaration, hprogress⟩ := hround b
      exact ⟨hstatement.ofZero rfl, hdeclaration.ofZero rfl, hprogress⟩
    | succ b' => exact hround b'

theorem guards_recover (htakes : ∀ k, L.takes k) (hreports : ∀ d, L.reports d) : Guards L recover := by
  intro m n p q h
  refine ⟨h.recover htakes hreports, fun c a taken more new hne hc hrun => ?_⟩
  obtain ⟨o₁, taken₁, more₁, new₁, hrun₁, -, -, hleast⟩ := h.runs hc
  cases o₁ with
  | some a =>
    obtain ⟨-, rfl, -⟩ := hrun.unique hrun₁.recover_some
    exact hleast rfl
  | none =>
    obtain ⟨skipped, hskipped⟩ := exists_skipped more₁
    obtain ⟨-, rfl, -⟩ := hrun.unique (hrun₁.recover_none hskipped)
    -- Either tokens are left where the panic is, and one is skipped, or all have been taken before.
    by_cases hmore : more₁ = []
    · have : taken₁ ≠ [] := by
        rintro rfl
        exact hne (hrun₁.rest.trans hmore)
      have := List.length_pos_iff.mpr this
      rw [List.length_append]
      omega
    · have hlt := length_synchronize_lt hmore
      have hlength := congrArg List.length hskipped
      rw [List.length_append] at hlength ⊢
      omega

/-- The guard that stops nothing. -/
def strictly (p : Parser Node) : Parser (Option Node) := do return some (← p)

theorem guards_strictly : Guards L strictly := by
  intro m n p q h
  have hguarded : Local m n 1 L (strictly p) (strictly q) := h.bind fun _ => .pure
  exact ⟨hguarded.lower le_rfl le_rfl (Nat.zero_le _), fun c a taken more new _ hc hrun => hguarded.least_le hc hrun⟩

end LoxLang.Grammar
