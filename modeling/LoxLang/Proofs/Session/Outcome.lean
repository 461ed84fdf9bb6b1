import LoxLang.Session
import LoxLang.Proofs.Eval.Safety
import LoxLang.Proofs.Token.Lines
/-!
# How the run of a text ends

A text that is run in a new session ends in one of three ways: it is malformed and was not run, its
run failed with one error, or its run came to its end. Nothing else aborts the session, but for a run
that needs more depth than it is given or a trace that cannot be opened. The exit code tells the three apart, and each has its own
kind of report.
-/

namespace LoxLang

/-! ### Tokens of one text -/

theorem named_scan (source : String) : Eval.Named (· ∈ (scan source).tokens) := fun _ ht => scan_token_lexeme ht

theorem parseProgram_statements (source : String) :
    ∀ s ∈ (parseProgram source).result, s.IsStatementOf (· ∈ (scan source).tokens) :=
  parseProgramTokens_statements _ _

theorem complain_line (t : Token) (complaint : Complaint) : (t.complain complaint).line = t.line := rfl

theorem parseProgram_diagnostic_line {source : String} {d : Diagnostic} (hd : d ∈ (parseProgram source).diagnostics) :
    IsLineOf source d.line := by
  rcases List.mem_append.mp hd with hd | hd
  · exact scan_diagnostic_line hd
  · obtain ⟨t, complaint, ht, rfl⟩ := parseProgramTokens_diagnostics _ _ d hd
    rw [complain_line]
    rcases ht with ht | rfl
    · exact scan_token_line ht
    · exact scan_eof_line source

/-! ### Messages -/

/-- What is reported when a run fails at a token. -/
inductive FailureMessage (t : Token) : String → Prop
  | operand : FailureMessage t "Operand must be a number."
  | operands : FailureMessage t "Operands must be numbers."
  | addition : FailureMessage t "Operands must be two numbers or two strings."
  | undefined : FailureMessage t ("Undefined variable '" ++ t.text ++ "'.")
  | callee : FailureMessage t "Can only call functions and classes."
  | arguments {n m : Nat} (h : m ≠ n) :
      FailureMessage t ("Expected " ++ toString n ++ " arguments but got " ++ toString m ++ ".")
  | overflow : FailureMessage t "Stack overflow."

theorem Cause.OccursAt.failureMessage {t : Token} {cause : Cause} (h : cause.OccursAt t) :
    FailureMessage t cause.message := by
  cases h with
  | operandNotNumber => exact .operand
  | operandsNotNumbers => exact .operands
  | operandsNotAddable => exact .addition
  | undefined => exact .undefined
  | notCallable => exact .callee
  | arity h => exact .arguments h
  | stackOverflow => exact .overflow

def IsReportOn (source text : String) : Prop :=
  ∃ line rest, IsLineOf source line ∧ text = "[line " ++ toString line ++ "] Error" ++ rest ++ "\n"

theorem isReportOn_text {source : String} {d : Diagnostic} (h : IsLineOf source d.line) :
    IsReportOn source (d.text ++ "\n") :=
  ⟨d.line, d.place.text ++ ": " ++ d.complaint.message, h, by simp only [Diagnostic.text, String.append_assoc]⟩

/-! ### Reporting -/

namespace Session

theorem report_nil (s : Session) : s.report [] = s := rfl

/-- Reports go to the error stream one by one and leave the state alone. -/
theorem report_eq (ds : List Diagnostic) (s : Session) :
    s.report ds = { s with
      errors := s.errors ++ (ds.map fun d => d.text ++ "\n").toArray
      hadError := s.hadError || !ds.isEmpty } := by
  induction ds generalizing s with
  | nil => simp [report]
  | cons d ds ih =>
    have hcons : s.report (d :: ds) = Session.report ds { s.writeError d.text with hadError := true } := rfl
    rw [hcons, ih]
    simp [writeError]

end Session

/-! ### The outcome -/

/-- What a session is like behind the run of a text in a new session, where `run` is how the statements of the text
run from the start. -/
structure TextOutcome (source : String) (run : RunEnd × State) (start s : Session) : Prop where
  code : s.exitCode = 65 ∨ s.exitCode = 70 ∨ s.exitCode = 0
  malformed_iff : s.exitCode = 65 ↔ (parseProgram source).diagnostics ≠ []
  /-- A malformed text is reported, and the state is as if there had been no text. -/
  malformed : s.exitCode = 65 → s.state = start.state ∧ s.state.output = #[] ∧
    s.errors = ((parseProgram source).diagnostics.map fun d => d.text ++ "\n").toArray ∧
    ∀ text ∈ s.errors, IsReportOn source text
  /-- A text without diagnostics leaves the state that the run of its statements leaves. -/
  ran : (parseProgram source).diagnostics = [] → s.state = run.2
  failed_iff : s.exitCode = 70 ↔ (parseProgram source).diagnostics = [] ∧ ∃ t cause, run.1 = .failed t cause
  /-- What is reported is the error that the run failed with. -/
  failed : s.exitCode = 70 → ∃ t ∈ (scan source).tokens, ∃ cause, run.1 = .failed t cause ∧
    FailureMessage t cause.message ∧ s.errors = #[cause.message ++ "\n[line " ++ toString t.line ++ "]\n"]
  finished_iff : s.exitCode = 0 ↔ (parseProgram source).diagnostics = [] ∧ run.1 = .finished
  finished : s.exitCode = 0 → s.errors = #[]

theorem initial_isUntraceable (level : Nat) (canTrace : Bool) (clock : Nat → Number) :
    (State.initial level canTrace clock).isUntraceable = true ↔ 1 ≤ level ∧ canTrace = false := by
  change (decide (1 ≤ level) && !canTrace) = true ↔ _
  rw [Bool.and_eq_true, decide_eq_true_iff, Bool.not_eq_true']

/-- Running the statements that a parse gave, even of a malformed text, ends with the last one, with an error at a token
of the text, or out of fuel; only a trace that is asked for and cannot be opened keeps it from starting. -/
theorem run_parsed (room : Room) (level : Nat) (canTrace : Bool) (source : String) (clock : Nat → Number) :
    (((State.initial level canTrace clock).run room (parseProgram source).result).1 = .untraceable ∧
      1 ≤ level ∧ canTrace = false) ∨
    ((State.initial level canTrace clock).run room (parseProgram source).result).1.IsOf (· ∈ (scan source).tokens) := by
  by_cases htrace : (State.initial level canTrace clock).isUntraceable = true
  · refine .inl ⟨?_, (initial_isUntraceable level canTrace clock).mp htrace⟩
    rw [State.run, if_pos htrace]
  · exact .inr (State.IsOf.run (named_scan source) room (parseProgram_statements source)
      (State.isOf_initial level canTrace clock) (Bool.eq_false_iff.mpr htrace)).1

theorem Act.run_eq (room : Room) (source : String) (s : Session) :
    Act.run room source s = if (s.report (parseProgram source).diagnostics).hadError
      then .ok () (s.report (parseProgram source).diagnostics)
      else Act.execute room (parseProgram source).result (s.report (parseProgram source).diagnostics) := by
  have hrun : Act.run room source s = (if (s.report (parseProgram source).diagnostics).hadError then pure ()
      else Act.execute room (parseProgram source).result) (s.report (parseProgram source).diagnostics) := rfl
  rw [hrun]
  split <;> rfl

/-- What a session makes of the end of a run. -/
def Act.settle : RunEnd → Act Unit
  | .finished => pure ()
  | .failed site cause => modify (Session.reportFailure site cause)
  | .fault f => throw (.fault f)
  | .untraceable => throw .untraceable
  | .exhausted => throw .exhausted
  | .outOfFuel => throw .outOfFuel

theorem Act.execute_eq (room : Room) (program : List Node) (s : Session) :
    Act.execute room program s =
      Act.settle (s.state.run room program).1 { s with state := (s.state.run room program).2 } := rfl

theorem textOutcome_of_malformed {source : String} (run : RunEnd × State) (level : Nat) (canTrace : Bool)
    (clock : Nat → Number) (h : (parseProgram source).diagnostics ≠ []) :
    TextOutcome source run (Session.start level canTrace clock)
      ((Session.start level canTrace clock).report (parseProgram source).diagnostics) := by
  have hcode : ((Session.start level canTrace clock).report (parseProgram source).diagnostics).exitCode = 65 := by
    simp [Session.report_eq, Session.exitCode, h]
  have herrors : ((Session.start level canTrace clock).report (parseProgram source).diagnostics).errors =
      ((parseProgram source).diagnostics.map fun d => d.text ++ "\n").toArray := by
    simp [Session.report_eq, Session.start]
  have hreports : ∀ text ∈ ((parseProgram source).diagnostics.map fun d => d.text ++ "\n").toArray,
      IsReportOn source text := by
    intro text htext
    obtain ⟨d, hd, rfl⟩ := List.mem_map.mp (List.mem_toArray.mp htext)
    exact isReportOn_text (parseProgram_diagnostic_line hd)
  exact {
    code := .inl hcode
    malformed_iff := by simp [hcode, h]
    malformed := fun _ => ⟨by rw [Session.report_eq], by rw [Session.report_eq]; rfl, herrors, herrors ▸ hreports⟩
    ran := fun hclean => absurd hclean h
    failed_iff := by simp [hcode, h]
    failed := by simp [hcode]
    finished_iff := by simp [hcode, h]
    finished := by simp [hcode] }

/-- A text without diagnostics is run, and its run ends in one of two ways, needs more depth or cannot be traced. -/
theorem textOutcome_of_clean {source : String} (room : Room) (level : Nat) (canTrace : Bool) (clock : Nat → Number)
    (h : (parseProgram source).diagnostics = []) :
    match Act.execute room (parseProgram source).result (Session.start level canTrace clock) with
    | .ok _ s => TextOutcome source ((State.initial level canTrace clock).run room (parseProgram source).result)
      (Session.start level canTrace clock) s
    | .error abort _ => abort = .outOfFuel ∨ abort = .untraceable ∧ 1 ≤ level ∧ canTrace = false := by
  have hend := run_parsed room level canTrace source clock
  have hstart : (Session.start level canTrace clock).state = State.initial level canTrace clock := rfl
  rw [Act.execute_eq, hstart]
  generalize (State.initial level canTrace clock).run room (parseProgram source).result = run at hend
  obtain ⟨ending, st⟩ := run
  dsimp only at hend
  rcases hend with ⟨rfl, hlevel⟩ | hend
  · exact .inr ⟨rfl, hlevel⟩
  cases hend with
  | finished =>
    have hcode : Session.exitCode { Session.start level canTrace clock with state := st } = 0 := rfl
    exact {
      code := .inr (.inr hcode)
      malformed_iff := by simp [hcode, h]
      malformed := by simp [hcode]
      ran := fun _ => rfl
      failed_iff := by simp [hcode]
      failed := by simp [hcode]
      finished_iff := by simp [hcode, h]
      finished := fun _ => rfl }
  | @failed t cause ht hcause =>
    have hcode : (Session.reportFailure t cause { Session.start level canTrace clock with state := st }).exitCode = 70 :=
      rfl
    have herrors : (Session.reportFailure t cause { Session.start level canTrace clock with state := st }).errors =
        #[cause.message ++ "\n[line " ++ toString t.line ++ "]\n"] := by
      simp [Session.reportFailure, Session.writeError, Session.start, String.append_assoc]
    exact {
      code := .inr (.inl hcode)
      malformed_iff := by simp [hcode, h]
      malformed := by simp [hcode]
      ran := fun _ => rfl
      failed_iff := by simp [hcode, h]
      failed := fun _ => ⟨t, ht, cause, rfl, hcause.failureMessage, herrors⟩
      finished_iff := by simp [hcode]
      finished := by simp [hcode] }
  | outOfFuel => exact .inl rfl

/-- Every text run in a new session, at every level of tracing, comes to one of the outcomes unless it runs out of fuel
or the trace it asks for cannot be opened, neither of which happens to a malformed text; and the statements that a parse
gives, also of a malformed text, can only fail with one of the messages. -/
theorem run_outcome (room : Room) (level : Nat) (canTrace : Bool) (source : String) (clock : Nat → Number) :
    (match Act.run room source (Session.start level canTrace clock) with
      | .ok _ s => TextOutcome source ((State.initial level canTrace clock).run room (parseProgram source).result)
        (Session.start level canTrace clock) s
      | .error abort _ => (parseProgram source).diagnostics = [] ∧
        (abort = .outOfFuel ∨ abort = .untraceable ∧ 1 ≤ level ∧ canTrace = false)) ∧
    match ((State.initial level canTrace clock).run room (parseProgram source).result).1 with
      | .finished | .outOfFuel => True
      | .failed t cause => t ∈ (scan source).tokens ∧ FailureMessage t cause.message
      | .untraceable => 1 ≤ level ∧ canTrace = false
      | .fault _ | .exhausted => False := by
  constructor
  · rw [Act.run_eq]
    by_cases hclean : (parseProgram source).diagnostics = []
    · have houtcome := textOutcome_of_clean room level canTrace clock hclean
      rw [hclean, Session.report_nil, if_neg (by simp [Session.start])]
      cases hrun : Act.execute room (parseProgram source).result (Session.start level canTrace clock) with
      | ok _ s =>
        rw [hrun] at houtcome
        exact houtcome
      | error abort s =>
        rw [hrun] at houtcome
        exact ⟨rfl, houtcome⟩
    · rw [if_pos (by simp [Session.report_eq, hclean])]
      exact textOutcome_of_malformed _ level canTrace clock hclean
  · have hend := run_parsed room level canTrace source clock
    generalize ((State.initial level canTrace clock).run room (parseProgram source).result).1 = ending at hend
    rcases hend with ⟨rfl, hlevel⟩ | hend
    · exact hlevel
    cases hend with
    | finished => trivial
    | failed ht hcause => exact ⟨ht, hcause.failureMessage⟩
    | outOfFuel => trivial

end LoxLang
