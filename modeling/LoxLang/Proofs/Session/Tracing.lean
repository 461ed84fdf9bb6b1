import LoxLang.Proofs.Eval.Tracing
import LoxLang.Proofs.Session.Outcome
import LoxLang.Text.Lines
import Mathlib
/-!
# Running a text at two levels of tracing

A text that is run in a new session gives the same output, the same reports and the same exit code at
every level of tracing, and it ends at one level exactly if it ends at the other. The lines of the
trace at a lower level are among those at a higher one, in the same order.

The one thing that tells the levels apart is a trace file that cannot be opened: at level 0 nobody
asks for it.
-/

namespace LoxLang

variable {low high : Nat}

/-! ### Lines of a trace -/

theorem Text.linesFrom_append (line text rest : List Char) :
    linesFrom line (text ++ '\n' :: rest) = linesFrom line (text ++ ['\n']) ++ linesFrom [] rest := by
  induction text generalizing line with
  | nil => rfl
  | cons c text ih =>
    simp only [List.cons_append, linesFrom]
    split
    · rw [ih, List.cons_append]
    · exact ih (c :: line)

namespace Trace

theorem toList_foldl_records (records : List String) (text : String) :
    (records.foldl (fun text record => text ++ record ++ "\n") text).toList =
      text.toList ++ records.flatMap fun record => record.toList ++ ['\n'] := by
  induction records generalizing text with
  | nil => simp
  | cons record records ih =>
    rw [List.foldl_cons, ih, List.flatMap_cons]
    simp [String.toList_append]

theorem linesFrom_records (records : List String) :
    Text.linesFrom [] (records.flatMap fun record => record.toList ++ ['\n']) =
      records.flatMap fun record => Text.linesFrom [] (record.toList ++ ['\n']) := by
  induction records with
  | nil => rfl
  | cons record records ih =>
    rw [List.flatMap_cons, List.flatMap_cons, ← ih, List.append_assoc]
    exact Text.linesFrom_append [] record.toList _

/-- The lines of the trace file. -/
def lines (trace : Trace) : List String := Text.lines (trace.text?.getD "")

theorem lines_eq (trace : Trace) :
    trace.lines = trace.recorded.flatMap fun record => Text.lines (record ++ "\n") := by
  have htext : (trace.text?.getD "").toList = trace.recorded.flatMap fun record => record.toList ++ ['\n'] := by
    unfold text? recorded
    cases trace.records with
    | none => rfl
    | some records =>
      simp only [Option.map_some, Option.getD_some, ← Array.foldl_toList]
      exact toList_foldl_records records.toList ""
  rw [lines, Text.lines, htext, linesFrom_records, List.map_flatMap]
  simp only [Text.lines, String.toList_append]
  rfl

theorem PartOf.lines {trace trace' : Trace} (h : PartOf low trace trace') : trace.lines.Sublist trace'.lines := by
  rw [lines_eq, lines_eq]
  exact h.records.flatMap _

end Trace

/-! ### Runs -/

namespace State

/-- The states are the same but for the level and for the trace, of which the first has a part. -/
def TracedAlike (low : Nat) (st st' : State) : Prop :=
  ∃ trace, st = { st' with level := low, trace := trace } ∧ Trace.PartOf low trace st'.trace

theorem GoesWith.tracedAlike {st st' : State} (h : st.GoesWith low high st') : st.TracedAlike low st' := by
  obtain ⟨trace, hst, -, htrace⟩ := h
  exact ⟨trace, hst, htrace.toPartOf⟩

/-- Before the first record there is no trace at either level. -/
theorem tracedAlike_initial (low high : Nat) (canTrace : Bool) (clock : Nat → Number) :
    (initial low canTrace clock).TracedAlike low (initial high canTrace clock) :=
  ⟨Trace.unwritten canTrace, rfl, List.Sublist.refl _, fun _ => rfl, fun _ => rfl⟩

/-- The record that starts a run opens the trace. -/
theorem goesWith_initial (hle : low ≤ high) (canTrace : Bool) (clock : Nat → Number) (record : String) :
    ((initial low canTrace clock).note record).GoesWith low high ((initial high canTrace clock).note record) := by
  have hnote (level : Nat) : (initial level canTrace clock).note record =
      { initial level canTrace clock with
        trace := if 1 ≤ level then (Trace.unwritten canTrace).write record else Trace.unwritten canTrace } := by
    unfold note
    change (if 1 ≤ level then _ else _) = _
    split
    · rfl
    · rfl
  rw [hnote, hnote]
  refine ⟨_, rfl, rfl, ⟨?_, ?_, ?_⟩, ?_, ?_⟩
  · dsimp only
    by_cases hlow : 1 ≤ low
    · rw [if_pos hlow, if_pos (hlow.trans hle)]
    · rw [if_neg hlow]
      exact List.nil_sublist _
  · rintro rfl
    rfl
  · intro hall
    have hlow : 1 ≤ low := Nat.le_trans (by decide) hall
    dsimp only
    rw [if_pos hlow, if_pos (hlow.trans hle)]
  · intro hlow
    rw [if_pos hlow]
    rfl
  · intro hhigh
    dsimp only
    rw [if_pos hhigh]
    rfl

theorem GoesWith.note (hle : low ≤ high) {st st' : State} (h : st.GoesWith low high st') (record : String) :
    (st.note record).GoesWith low high (st'.note record) := by
  obtain ⟨trace, rfl, rfl, htrace⟩ := h
  unfold State.note
  dsimp only
  by_cases hlow : 1 ≤ low
  · rw [if_pos hlow, if_pos (hlow.trans hle)]
    exact ⟨_, rfl, rfl, htrace.write hlow hle record⟩
  rw [if_neg hlow]
  have hthree : low < 3 := Nat.lt_of_lt_of_le (Nat.lt_of_not_le hlow) (by decide)
  by_cases hhigh : 1 ≤ st'.level
  · rw [if_pos hhigh]
    exact ⟨_, rfl, rfl, htrace.write_high hthree hhigh record⟩
  · rw [if_neg hhigh]
    exact ⟨_, rfl, rfl, htrace⟩

theorem GoesWith.failAt (hle : low ≤ high) {st st' : State} (h : st.GoesWith low high st') (site : Option Token)
    (cause : Cause) : (st.failAt site cause).1 = (st'.failAt site cause).1 ∧
      (st.failAt site cause).2.GoesWith low high (st'.failAt site cause).2 := by
  have hclear : State.GoesWith low high { st with calls := [] } { st' with calls := [] } := by
    obtain ⟨trace, rfl, hlevel, htrace⟩ := h
    exact ⟨trace, rfl, hlevel, htrace⟩
  cases site with
  | none => exact ⟨rfl, hclear⟩
  | some t =>
    unfold State.failAt
    dsimp only
    split
    · exact ⟨rfl, hclear⟩
    · exact ⟨rfl, hclear.note hle _⟩

theorem GoesWith.stopRun (hle : low ≤ high) {st st' : State} (h : st.GoesWith low high st') (stop : Stop) :
    (st.stopRun stop).1 = (st'.stopRun stop).1 ∧ (st.stopRun stop).2.GoesWith low high (st'.stopRun stop).2 := by
  have hcalls : st.calls = st'.calls := by
    obtain ⟨trace, rfl, -⟩ := h
    rfl
  cases stop with
  | error e => exact h.failAt hle e.site e.cause
  | exhausted =>
    unfold State.stopRun
    rw [hcalls]
    cases st'.calls with
    | nil => exact ⟨rfl, h⟩
    | cons paren rest => exact h.failAt hle paren.token? .stackOverflow
  | fault f => exact ⟨rfl, h⟩
  | outOfFuel => exact ⟨rfl, h⟩

/-- A run from a new state ends alike at both levels, if its trace can be written at both or at neither, and if the more
detailed trace meets no fault. -/
theorem run_tracedAlike (hle : low ≤ high) (room : Room) (program : List Node) (canTrace : Bool) (clock : Nat → Number)
    (htrace : (initial low canTrace clock).isUntraceable = (initial high canTrace clock).isUntraceable)
    (hfault : ∀ f, ((initial high canTrace clock).run room program).1 ≠ .fault f) :
    ((initial low canTrace clock).run room program).1 = ((initial high canTrace clock).run room program).1 ∧
      ((initial low canTrace clock).run room program).2.TracedAlike low
        ((initial high canTrace clock).run room program).2 := by
  unfold run at hfault ⊢
  rw [htrace]
  split
  · exact ⟨rfl, tracedAlike_initial low high canTrace clock⟩
  next huntraceable =>
    rw [if_neg huntraceable] at hfault
    have hstart := goesWith_initial hle canTrace clock ("run: " ++ toString program.length ++ " statement(s)")
    have hends := Eval.unaffected_execAll hle room program _ _ hstart
    dsimp only at hfault ⊢
    generalize Eval.execAll room program ((initial low canTrace clock).note _) = r at hends ⊢
    generalize Eval.execAll room program ((initial high canTrace clock).note _) = r' at hends hfault ⊢
    cases hends with
    | ok a h => exact ⟨rfl, (h.note hle _).tracedAlike⟩
    | error stop h =>
      obtain ⟨hend, hstate⟩ := h.stopRun hle stop
      exact ⟨hend, hstate.tracedAlike⟩
    | fault r f st' => exact absurd rfl (hfault f)

end State

/-! ### Sessions -/

/-- What two sessions have in common that ran one text, the first at the level `low` and the second at a higher one. -/
structure Session.TracedAlike (low : Nat) (s s' : Session) : Prop where
  output : s.state.output = s'.state.output
  errors : s.errors = s'.errors
  exitCode : s.exitCode = s'.exitCode
  /-- The lines of the trace file stand in the other one too, in the same order, and so do whole records. -/
  lines : s.state.trace.lines.Sublist s'.state.trace.lines
  records : s.state.trace.recorded.Sublist s'.state.trace.recorded
  silent : low = 0 → s.state.trace.text? = none
  same : 3 ≤ low → s.state.trace.text? = s'.state.trace.text?

theorem State.TracedAlike.session {st st' : State} (h : st.TracedAlike low st') (s : Session) :
    Session.TracedAlike low { s with state := st } { s with state := st' } := by
  obtain ⟨trace, rfl, htrace⟩ := h
  refine ⟨rfl, rfl, rfl, htrace.lines, htrace.records, fun hzero => ?_, fun hall => ?_⟩
  · show trace.text? = none
    rw [Trace.text?, htrace.silent hzero]
    rfl
  · show trace.text? = st'.trace.text?
    rw [Trace.text?, Trace.text?, htrace.same hall]

/-- Two runs in sessions came to their ends, or were aborted for the same reason. -/
def EndsTracedAlike (low : Nat) : EStateM.Result Abort Session Unit → EStateM.Result Abort Session Unit → Prop
  | .ok _ s, .ok _ s' => s.TracedAlike low s'
  | .error abort s, .error abort' s' => abort = abort' ∧ s.TracedAlike low s'
  | _, _ => False

theorem Act.settle_tracedAlike {st st' : State} (h : st.TracedAlike low st') (ending : RunEnd) (s : Session) :
    EndsTracedAlike low (Act.settle ending { s with state := st }) (Act.settle ending { s with state := st' }) := by
  cases ending with
  | finished => exact h.session s
  | failed site cause => exact h.session (s.reportFailure site cause)
  | fault f => exact ⟨rfl, h.session s⟩
  | untraceable => exact ⟨rfl, h.session s⟩
  | exhausted => exact ⟨rfl, h.session s⟩
  | outOfFuel => exact ⟨rfl, h.session s⟩

/-- Every text runs alike at two levels of tracing, in new sessions with the same clock and for every bound on the depth
of the run, unless only the higher level asks for a trace that cannot be written. -/
theorem run_at_levels_alike (room : Room) (source : String) (canTrace : Bool) (clock : Nat → Number) (low high : Nat)
    (hle : low ≤ high) (htrace : canTrace = true ∨ 1 ≤ low ∨ high = 0) :
    EndsTracedAlike low (Act.run room source (Session.start low canTrace clock))
      (Act.run room source (Session.start high canTrace clock)) := by
  have huntraceable : (State.initial low canTrace clock).isUntraceable =
      (State.initial high canTrace clock).isUntraceable := by
    rw [Bool.eq_iff_iff, initial_isUntraceable, initial_isUntraceable]
    constructor
    · exact fun ⟨hlow, hcannot⟩ => ⟨hlow.trans hle, hcannot⟩
    · rintro ⟨hhigh, rfl⟩
      rcases htrace with hcan | hlow | rfl
      · cases hcan
      · exact ⟨hlow, rfl⟩
      · cases hhigh
  have hfault (f : Fault) : ((State.initial high canTrace clock).run room (parseProgram source).result).1 ≠ .fault f := by
    intro hend
    have hparsed := run_parsed room high canTrace source clock
    rw [hend] at hparsed
    rcases hparsed with ⟨huntraced, -⟩ | hof
    · cases huntraced
    · cases hof
  rw [Act.run_eq, Act.run_eq]
  by_cases hclean : (parseProgram source).diagnostics = []
  · obtain ⟨hend, hstate⟩ :=
      State.run_tracedAlike hle room (parseProgram source).result canTrace clock huntraceable hfault
    have hnew (level : Nat) : ¬(Session.start level canTrace clock).hadError = true := by simp [Session.start]
    rw [hclean, Session.report_nil, Session.report_nil, if_neg (hnew low), if_neg (hnew high), Act.execute_eq,
      Act.execute_eq]
    change EndsTracedAlike low (Act.settle (State.run room _ (State.initial low canTrace clock)).1 _) _
    rw [hend]
    exact Act.settle_tracedAlike hstate _ (Session.start high canTrace clock)
  · have hreported (level : Nat) : (Session.start level canTrace clock).report (parseProgram source).diagnostics =
        { (Session.start high canTrace clock).report (parseProgram source).diagnostics with
          state := State.initial level canTrace clock } := by
      rw [Session.report_eq, Session.report_eq]
      rfl
    rw [if_pos (by simp [Session.report_eq, hclean]), if_pos (by simp [Session.report_eq, hclean]), hreported low,
      hreported high]
    exact (State.tracedAlike_initial low high canTrace clock).session _

/-- The records of the trace with which a session ended. -/
def recordsOf : EStateM.Result Abort Session Unit → List String
  | .ok _ s => s.state.trace.recorded
  | .error _ s => s.state.trace.recorded

/-- At level 1 there is no record of the declaration that level 3 records. -/
theorem run_at_levels_alike_declaration :
    recordsOf (Act.run ⟨9, callLimit⟩ "var a;" (Session.start 1 true fun _ => .zero)) = ["run: 1 statement(s)", "run: finished"] ∧
      recordsOf (Act.run ⟨9, callLimit⟩ "var a;" (Session.start 3 true fun _ => .zero)) =
        ["run: 1 statement(s)", "declare a = nil", "run: finished"] ∧
      EndsTracedAlike 1 (Act.run ⟨9, callLimit⟩ "var a;" (Session.start 1 true fun _ => .zero))
        (Act.run ⟨9, callLimit⟩ "var a;" (Session.start 3 true fun _ => .zero)) := by
  have hlow : recordsOf (Act.run ⟨9, callLimit⟩ "var a;" (Session.start 1 true fun _ => .zero)) =
      ["run: 1 statement(s)", "run: finished"] := by cbv
  have hhigh : recordsOf (Act.run ⟨9, callLimit⟩ "var a;" (Session.start 3 true fun _ => .zero)) =
      ["run: 1 statement(s)", "declare a = nil", "run: finished"] := by cbv
  exact ⟨hlow, hhigh, run_at_levels_alike ⟨9, callLimit⟩ "var a;" true (fun _ => .zero) 1 3 (by decide) (.inl rfl)⟩

end LoxLang
