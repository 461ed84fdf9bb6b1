import LoxLang.Eval.Run
import LoxLang.Proofs.Grammar.Depth
import LoxLang.Proofs.Grammar.Returns
/-!
# No return at top level

A run carries out the statements of a program and drops what they answer with. That loses nothing: a
text whose parse reports nothing has no `return` outside the bodies of its functions, and a statement
without such a `return` never answers with a value, whatever the state it is carried out in and
whatever is called on the way. A `return` inside a function is answered to the call of the function.
-/

namespace LoxLang

/-! ### Complaints about returns -/

theorem returnReports_scan (source : String) : Grammar.returnReports (scan source).diagnostics = [] := by
  suffices h : ∀ (line : Int) (segments : List Segment),
      Grammar.returnReports (Scan.ofSegments line segments).diagnostics = [] from h 1 _
  intro line segments
  induction segments generalizing line with
  | nil => rfl
  | cons segment rest ih =>
    have hrest := ih (line + Scan.lineBreaks segment.text)
    cases segment <;> simpa [Scan.ofSegments, Grammar.returnReports] using hrest

/-- The returns met in the tokens of a text account for all that is reported of the text. -/
theorem parseProgram_accountsFor (source : String) :
    ∃ met, (parseProgram source).AccountsFor (scan source).tokens met := by
  obtain ⟨met, hmet⟩ := parseProgramTokens_accountsFor (scan source).tokens (scan source).eof
  refine ⟨met, hmet.tokens, hmet.keywords, ?_, hmet.tree⟩
  rw [← hmet.reports]
  change Grammar.returnReports ((scan source).diagnostics ++ _) = _
  rw [Grammar.returnReports, List.filter_append]
  exact congrArg (· ++ _) (returnReports_scan source)

/-- Without a complaint, all returns of the tree are inside functions. -/
theorem Parsed.AccountsFor.inFunction {tokens : List Token} {parsed : Parsed (List Node)} {met : List (Token × Bool)}
    (h : parsed.AccountsFor tokens met) (hclean : parsed.diagnostics = []) {s : Node} (hs : s ∈ parsed.result) :
    ∀ m ∈ s.returns false, m.2 = true := by
  intro m hm
  have hall : m ∈ Node.returnsAll false parsed.result := by
    rw [Node.returnsAll_eq_flatMap]
    exact List.mem_flatMap.mpr ⟨s, hs, hm⟩
  obtain ⟨m', hm', rfl⟩ := List.mem_map.mp (h.tree.subset hall)
  have hnone : Grammar.complaintsOf met = [] := by
    rw [← h.reports, hclean]
    rfl
  rw [Grammar.complaintsOf, List.map_eq_nil_iff, List.filter_eq_nil_iff] at hnone
  simpa [Grammar.inTree] using hnone m' hm'

/-! ### Statements without a return of their own -/

namespace Eval

variable {α : Type}

/-- However it ends, it does not answer with a value. -/
def NeverReturns (m : Eval (Option Value)) : Prop := ∀ st value st', m st ≠ .ok (some value) st'

namespace NeverReturns

theorem none : NeverReturns (pure Option.none) := by
  intro st value st' h
  cases h

theorem throw (stop : Stop) : NeverReturns (throw stop) := by
  intro st value st' h
  cases h

theorem bind {m : Eval α} {f : α → Eval (Option Value)} (h : ∀ a, NeverReturns (f a)) : NeverReturns (m >>= f) := by
  intro st value st' hrun
  change EStateM.bind m f st = _ at hrun
  rw [EStateM.bind] at hrun
  split at hrun
  next a st'' _ => exact h a st'' value st' hrun
  next => cases hrun

/-- What comes behind a statement that never returns is what comes behind its end. -/
theorem bind_none {m : Eval (Option Value)} {f : Option Value → Eval α} (h : NeverReturns m) :
    (m >>= f) = m >>= fun _ => f Option.none := by
  funext st
  change EStateM.bind m f st = EStateM.bind m (fun _ => f Option.none) st
  rw [EStateM.bind, EStateM.bind]
  cases hrun : m st with
  | error stop st' => rfl
  | ok answer st' =>
    cases answer with
    | none => rfl
    | some value => exact absurd hrun (h st value st')

theorem untilReturn {step : Node → Eval (Option Value)} {statements : List Node}
    (h : ∀ s ∈ statements, NeverReturns (step s)) : NeverReturns (untilReturn step statements) := by
  induction statements with
  | nil => exact none
  | cons s rest ih =>
    obtain ⟨hs, hrest⟩ := List.forall_mem_cons.mp h
    rw [Eval.untilReturn, bind_none hs]
    exact bind fun _ => ih hrest

end NeverReturns

open Node in
/-- By induction on the depth of the run: a loop is carried out again as the same statement. -/
theorem exec_neverReturns {s : Node} (h : ∀ m ∈ s.returns false, m.2 = true) (fuel calls : Nat) (scope : ScopeId) :
    NeverReturns (exec fuel calls scope s) := by
  induction fuel generalizing s scope with
  | zero => exact .throw _
  | succ fuel ih =>
    cases s with
    | expression value => exact .bind fun _ => .none
    | print value => exact .bind fun _ => .bind fun _ => .bind fun _ => .none
    | var name initial =>
      have hbehind (value : Value) : NeverReturns (do
          let t ← needToken name
          define scope (← nameOf t) value
          traceAt 2 fun _ => do return "declare " ++ t.text ++ " = " ++ (← value.text)
          pure Option.none) :=
        .bind fun _ => .bind fun _ => .bind fun _ => .bind fun _ => .none
      rw [exec]
      split
      · exact hbehind .nil
      · exact .bind fun value => hbehind value
    | block statements =>
      refine .bind fun inner => .untilReturn fun s hs => ih (fun m hm => h m ?_) inner
      rw [returns, returnsAll_eq_flatMap]
      exact List.mem_flatMap.mpr ⟨s, hs, hm⟩
    | branch condition yes no =>
      obtain ⟨hyes, hno⟩ := List.forall_mem_append.mp h
      refine .bind fun value => .bind fun _ => ?_
      split
      · exact ih hyes scope
      · split
        · exact .none
        · exact ih hno scope
    | loop condition body =>
      refine .bind fun value => ?_
      split
      · refine .bind fun _ => ?_
        have hbody : ∀ m ∈ body.returns false, m.2 = true := h
        rw [(ih hbody scope).bind_none]
        exact .bind fun _ => ih h scope
      · exact .none
    | function name params body =>
      exact .bind fun _ => .bind fun _ => .bind fun _ => .bind fun _ => .bind fun _ => .none
    | ret keyword value => exact absurd (h (keyword, false) (List.mem_singleton_self _)) (by simp)
    | _ => exact .throw _

/-- As `execAll`, but what a statement returns is not dropped. -/
def execAllWith (handle : Value → Eval Unit) (room : Room) (program : List Node) : Eval Unit :=
  program.forM fun statement => do
    match ← exec room.depth room.calls State.globals statement with
    | some value => handle value
    | none => pure ()

theorem execAllWith_eq {room : Room} {program : List Node}
    (h : ∀ s ∈ program, NeverReturns (exec room.depth room.calls State.globals s)) (handle : Value → Eval Unit) :
    execAllWith handle room program = execAll room program := by
  rw [execAll, execAllWith]
  induction program with
  | nil => rfl
  | cons s rest ih =>
    obtain ⟨hs, hrest⟩ := List.forall_mem_cons.mp h
    rw [List.forM, List.forM, ih hrest, hs.bind_none]

end Eval

/-- For every text: the returns met account for what is complained about and for those in the tree; the parser with a
counter ends alike, with the counter at zero; and if nothing is reported, no statement of the text answers with a value,
in any state, so that it makes no difference what a run does with such values. -/
theorem no_return_at_top_level (source : String) :
    (∃ met, (parseProgram source).AccountsFor (scan source).tokens met) ∧
      Grammar.DeepParser.parseProgramTokens (scan source).tokens (scan source).eof =
        (parseProgramTokens (scan source).tokens (scan source).eof, 0) ∧
      ((parseProgram source).diagnostics = [] →
        (∀ s ∈ (parseProgram source).result, ∀ fuel calls scope st value st',
          Eval.exec fuel calls scope s st ≠ .ok (some value) st') ∧
        ∀ handle room, Eval.execAllWith handle room (parseProgram source).result =
          Eval.execAll room (parseProgram source).result) := by
  obtain ⟨met, hmet⟩ := parseProgram_accountsFor source
  refine ⟨⟨met, hmet⟩, Grammar.DeepParser.parseProgramTokens_eq _ _, fun hclean => ?_⟩
  have hnever (fuel calls : Nat) (scope : ScopeId) : ∀ s ∈ (parseProgram source).result,
      Eval.NeverReturns (Eval.exec fuel calls scope s) :=
    fun s hs => Eval.exec_neverReturns (hmet.inFunction hclean hs) fuel calls scope
  constructor
  · exact fun s hs fuel calls scope => hnever fuel calls scope s hs
  · exact fun handle room => Eval.execAllWith_eq (hnever room.depth room.calls State.globals) handle

end LoxLang
