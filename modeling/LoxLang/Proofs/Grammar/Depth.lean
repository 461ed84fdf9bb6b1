import LoxLang.Proofs.Grammar.Steps
/-!
# Counting function bodies

The parsers of statements are told whether a function body is around them. Here is the same grammar
with a counter in its place: it goes up before a function body is read and down when the body is left,
by its end or by a panic, and a `return` looks whether it is zero. The counter is changed in these two
places only, so it has to come out right however panics cut through bodies inside bodies and wherever
they are stopped.

It does: whatever the tokens are, a parser with the counter ends as the one without it, in the result,
the tokens left and the reports, and the counter is back at what it was.
-/

namespace LoxLang.Grammar

/-- Where a parser stands, and how many function bodies are around it. -/
structure DeepCursor where
  cursor : Cursor
  depth : Int

/-- A computation that takes tokens and counts function bodies. -/
abbrev DeepParser := EStateM Panic DeepCursor

namespace DeepParser

variable {α β : Type}

/-- The end of a parser that does not count, with a depth beside it. -/
def withDepth (depth : Int) : EStateM.Result Panic Cursor α → EStateM.Result Panic DeepCursor α
  | .ok a c => .ok a ⟨c, depth⟩
  | .error e c => .error e ⟨c, depth⟩

/-- A parser without function bodies of its own. -/
def lift (p : Parser α) : DeepParser α := fun d => withDepth d.depth (p d.cursor)

/-- Counts one body more as long as the parser runs. -/
def inBody (p : DeepParser α) : DeepParser α := fun d =>
  match p { d with depth := d.depth + 1 } with
  | .ok a d => .ok a { d with depth := d.depth - 1 }
  | .error e d => .error e { d with depth := d.depth - 1 }

/-- Turns a panic into a missing item; the counter is not touched. -/
def recover (p : DeepParser α) : DeepParser (Option α) := fun d =>
  match p d with
  | .ok a d => .ok (some a) d
  | .error _ d => .ok none { d with cursor := { d.cursor with rest := synchronize d.cursor.rest } }

def itemsUntil (stop : Cursor → Bool) (item : DeepParser (Option α)) : (bound : Nat) → DeepParser (List α)
  | 0 => return []
  | bound + 1 => do
    if stop (← get).cursor || (← get).cursor.atEnd then return []
    else
      let first ← item
      return first.toList ++ (← itemsUntil stop item bound)

/-! ### Statements -/

def returnStatement (bound : Nat) (keyword : Token) : DeepParser Node := do
  if (← get).depth = 0 then lift (report keyword .topLevelReturn)
  let value ← lift (optionalUnless bound .semicolon)
  let _ ← lift (expect .semicolon "';' after return value")
  return .ret (.token keyword) (value.getD .null)

def ifStatement (bound : Nat) (statement : DeepParser Node) : DeepParser Node := do
  let _ ← lift (expect .leftParen "'(' after 'if'")
  let condition ← lift (expression bound)
  let _ ← lift (expect .rightParen "')' after 'if' condition")
  let yes ← statement
  let no ← match ← lift (take? (· == .kwElse)) with
    | some _ => statement
    | none => pure .null
  return .branch condition yes no

def whileStatement (bound : Nat) (statement : DeepParser Node) : DeepParser Node := do
  let _ ← lift (expect .leftParen "'(' after 'while'")
  let condition ← lift (expression bound)
  let _ ← lift (expect .rightParen "')' after 'while' condition")
  let body ← statement
  return .loop condition body

def forStatement (bound : Nat) (statement : DeepParser Node) : DeepParser Node := do
  let _ ← lift (expect .leftParen "'(' after 'for'")
  let initial ← lift (forInitial bound)
  let condition ← lift (optionalUnless bound .semicolon)
  let _ ← lift (expect .semicolon "';' after loop condition")
  let increment ← lift (optionalUnless bound .rightParen)
  let _ ← lift (expect .rightParen "')' after for clauses")
  let body ← statement
  return desugarFor initial condition increment body

def block (bound : Nat) (declaration : DeepParser (Option Node)) : DeepParser (List Node) := do
  let statements ← itemsUntil (Cursor.isAt .rightBrace) declaration bound
  let _ ← lift (expect .rightBrace "'\x7d' after block")
  return statements

def functionDeclaration (bound : Nat) (declaration : DeepParser (Option Node)) : DeepParser Node := do
  let name ← lift (expect .identifier "function name")
  let _ ← lift (expect .leftParen "'(' after function name")
  let params ← lift (commaList bound "parameters" (expect .identifier "parameter name"))
  let _ ← lift (expect .rightParen "')' after parameters")
  let _ ← lift (expect .leftBrace "'\x7b' before function body")
  let body ← inBody (block bound declaration)
  return .function (.token name) (params.map .token) body

mutual

def statement : (bound : Nat) → DeepParser Node
  | 0 => throw .panic
  | bound + 1 => do
    match ← lift (take? startsPlainStatement) with
    | none => lift (expressionStatement bound)
    | some t =>
      match t.kind with
      | .kwIf => ifStatement bound (statement bound)
      | .kwPrint => lift (printStatement bound)
      | .kwWhile => whileStatement bound (statement bound)
      | .kwFor => forStatement bound (statement bound)
      | .kwReturn => returnStatement bound t
      | _ => return .block (← block bound (declaration bound))

def declaration : (bound : Nat) → DeepParser (Option Node)
  | 0 => throw .panic
  | bound + 1 => recover do
    match ← lift (take? (fun k => k == .kwFun || k == .kwVar)) with
    | none => statement bound
    | some t =>
      if t.kind == .kwFun then functionDeclaration bound (declaration bound)
      else lift (variableDeclaration bound)

end

/-- All declarations up to the end. -/
def program (bound : Nat) : DeepParser (List Node) :=
  itemsUntil (fun _ => false) (declaration bound) bound

/-! ### Steps -/

/-- A parser that counts does what a parser does that is told whether it is inside a function body, and puts the
counter back. -/
def Counts (q : DeepParser α) (p : Bool → Parser α) : Prop :=
  ∀ (c : Cursor) (depth : Nat), q ⟨c, depth⟩ = withDepth depth (p (0 < depth) c)

namespace Counts

variable {q : DeepParser α} {p : Bool → Parser α} {g : α → DeepParser β} {f : Bool → α → Parser β}

theorem lift {p : Parser α} : Counts (lift p) fun _ => p := fun _ _ => rfl

theorem pure {a : α} : Counts (Pure.pure a) fun _ => Pure.pure a := fun _ _ => rfl

theorem throwPanic : Counts (throw .panic : DeepParser α) fun _ => throw .panic := fun _ _ => rfl

theorem bind (hq : Counts q p) (hg : ∀ a, Counts (g a) fun b => f b a) :
    Counts (q >>= g) fun b => p b >>= f b := by
  intro c depth
  have hfirst := hq c depth
  change EStateM.bind q g ⟨c, depth⟩ = withDepth depth (EStateM.bind (p (0 < depth)) (f (0 < depth)) c)
  cases hrun : p (0 < depth) c with
  | ok a c' =>
    rw [hrun] at hfirst
    simp only [EStateM.bind, hfirst, hrun, withDepth]
    exact hg a c' depth
  | error e c' =>
    rw [hrun] at hfirst
    simp only [EStateM.bind, hfirst, hrun, withDepth]

theorem look {g : DeepCursor → DeepParser β} {f : Bool → Cursor → Parser β}
    (h : ∀ d, Counts (g d) fun b => f b d.cursor) : Counts (get >>= g) fun b => get >>= f b :=
  fun c depth => h ⟨c, depth⟩ c depth

/-- In a body the counter is above zero, and leaving the body takes it back. -/
theorem inBody (hq : Counts q p) : Counts (inBody q) fun _ => p true := by
  intro c depth
  have hbody : q ⟨c, (depth : Int) + 1⟩ = withDepth (depth + 1) (p true c) := by
    have hcounted := hq c (depth + 1)
    rwa [decide_eq_true (Nat.succ_pos depth), Int.natCast_add_one] at hcounted
  have hback : (depth : Int) + 1 - 1 = depth := Int.add_sub_cancel _ _
  cases hrun : p true c with
  | ok a c' => simp only [DeepParser.inBody, hbody, hrun, withDepth, hback]
  | error e c' => simp only [DeepParser.inBody, hbody, hrun, withDepth, hback]

theorem recover (hq : Counts q p) : Counts (recover q) fun b => Grammar.recover (p b) := by
  intro c depth
  simp only [DeepParser.recover, Grammar.recover, hq c depth]
  cases p (0 < depth) c <;> rfl

end Counts

variable {bound : Nat} {step : DeepParser Node} {step' : Bool → Parser Node} {item : DeepParser (Option Node)}
  {item' : Bool → Parser (Option Node)}

theorem itemsUntil_counts (stop : Cursor → Bool) (h : Counts item item') :
    Counts (itemsUntil stop item bound) fun b => Grammar.itemsUntil stop (item' b) bound := by
  induction bound with
  | zero => exact .pure
  | succ bound ih =>
    unfold itemsUntil Grammar.itemsUntil
    refine .look fun d => .look fun d' => ?_
    split
    · exact .pure
    · exact h.bind fun first => ih.bind fun rest => .pure

/-- The only place where the counter is looked at. -/
theorem returnStatement_counts (keyword : Token) :
    Counts (returnStatement bound keyword) fun b => Grammar.returnStatement bound b keyword := by
  have hbehind : Counts _ fun _ => Grammar.returnStatement bound true keyword :=
    Counts.lift.bind fun _ => Counts.lift.bind fun _ => .pure
  intro c depth
  cases depth with
  | zero =>
    have hreport : Counts (lift (report keyword .topLevelReturn)) fun _ => report keyword .topLevelReturn := .lift
    exact (hreport.bind fun _ => hbehind) c 0
  | succ depth => exact hbehind c (depth + 1)

theorem ifStatement_counts (h : Counts step step') :
    Counts (ifStatement bound step) fun b => Grammar.ifStatement bound (step' b) := by
  refine Counts.lift.bind fun _ => Counts.lift.bind fun condition => Counts.lift.bind fun _ => ?_
  refine h.bind fun yes => Counts.lift.bind fun word => ?_
  cases word with
  | none => exact .pure
  | some t => exact h.bind fun no => .pure

theorem whileStatement_counts (h : Counts step step') :
    Counts (whileStatement bound step) fun b => Grammar.whileStatement bound (step' b) := by
  refine Counts.lift.bind fun _ => Counts.lift.bind fun condition => Counts.lift.bind fun _ => ?_
  exact h.bind fun body => .pure

theorem forStatement_counts (h : Counts step step') :
    Counts (forStatement bound step) fun b => Grammar.forStatement bound (step' b) := by
  refine Counts.lift.bind fun _ => Counts.lift.bind fun initial => Counts.lift.bind fun condition => ?_
  refine Counts.lift.bind fun _ => Counts.lift.bind fun increment => Counts.lift.bind fun _ => ?_
  exact h.bind fun body => .pure

theorem block_counts (h : Counts item item') : Counts (block bound item) fun b => Grammar.block bound (item' b) :=
  (itemsUntil_counts _ h).bind fun _ => Counts.lift.bind fun _ => .pure

theorem functionDeclaration_counts (h : Counts item item') :
    Counts (functionDeclaration bound item) fun _ => Grammar.functionDeclaration bound (item' true) := by
  refine Counts.lift.bind fun name => Counts.lift.bind fun _ => Counts.lift.bind fun params => ?_
  refine Counts.lift.bind fun _ => Counts.lift.bind fun _ => ?_
  exact (block_counts h).inBody.bind fun body => .pure

/-- A statement and a declaration for one bound, since each is read by way of the other. -/
theorem statement_declaration_counts (bound : Nat) :
    Counts (statement bound) (Grammar.statement bound) ∧ Counts (declaration bound) (Grammar.declaration bound) := by
  induction bound with
  | zero => exact ⟨.throwPanic, .throwPanic⟩
  | succ bound ih =>
    obtain ⟨ihstatement, ihdeclaration⟩ := ih
    constructor
    · refine Counts.lift.bind fun word => ?_
      cases word with
      | none => exact .lift
      | some t =>
        dsimp only
        -- both sides look at the kind of the same token
        cases t.kind
        case kwIf => exact ifStatement_counts ihstatement
        case kwPrint => exact .lift
        case kwWhile => exact whileStatement_counts ihstatement
        case kwFor => exact forStatement_counts ihstatement
        case kwReturn => exact returnStatement_counts t
        all_goals exact (block_counts ihdeclaration).bind fun _ => .pure
    · refine .recover (Counts.lift.bind fun word => ?_)
      cases word with
      | none => exact ihstatement
      | some t =>
        dsimp only
        cases t.kind == .kwFun with
        | true => exact functionDeclaration_counts ihdeclaration
        | false => exact .lift

/-! ### Whole texts -/

/-- Parses a program with a counter that starts at zero, and gives the counter at the end too. -/
def parseProgramTokens (tokens : List Token) (eof : Token) : Parsed (List Node) × Int :=
  match program (boundFor tokens) ⟨⟨tokens, eof, []⟩, 0⟩ with
  | .ok statements d => (⟨statements, d.cursor.reports⟩, d.depth)
  | .error _ d => (⟨[], d.cursor.reports⟩, d.depth)

theorem parseProgramTokens_eq (tokens : List Token) (eof : Token) :
    parseProgramTokens tokens eof = (LoxLang.parseProgramTokens tokens eof, 0) := by
  have hprogram : program (boundFor tokens) ⟨⟨tokens, eof, []⟩, 0⟩ =
      withDepth 0 (Grammar.program (boundFor tokens) ⟨tokens, eof, []⟩) :=
    itemsUntil_counts _ (statement_declaration_counts (boundFor tokens)).2 ⟨tokens, eof, []⟩ 0
  simp only [parseProgramTokens, LoxLang.parseProgramTokens, parseTokens, hprogram]
  cases Grammar.program (boundFor tokens) ⟨tokens, eof, []⟩ <;> rfl

end DeepParser

end LoxLang.Grammar
