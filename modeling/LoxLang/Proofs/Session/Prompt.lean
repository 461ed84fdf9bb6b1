import LoxLang.Cli.Command
import LoxLang.Proofs.Eval.Output
import LoxLang.Proofs.Session.Joined
/-!
# The lines of a prompt

What a line at the prompt comes to depends on the line alone and on the state that the lines before it
have left. A line with a mistake is refused, and the state is as if it had not been given; any other
line is run. One that fails keeps what was done up to the failure, with no call in progress. Neither
leaves a mark that a later line could meet. So the prompt is a dialogue, and the dialogue about the
lines without a mistake is what is left of it when the refused ones are taken away.
-/

namespace LoxLang

open Eval

/-- What a line at the prompt comes to. -/
inductive Reply where
  | refused (diagnostics : List Diagnostic)
  | finished
  | failed (site : Token) (cause : Cause)

namespace Reply

/-- What is reported. -/
def reports : Reply → List String
  | refused diagnostics => diagnostics.map fun d => d.text ++ "\n"
  | finished => []
  | failed site cause => [cause.message ++ "\n[line " ++ toString site.line ++ "]\n"]

def isRefused : Reply → Bool
  | refused _ => true
  | _ => false

end Reply

/-- Whether a line has no mistake in it. -/
def isClean (line : String) : Bool := (parseProgram line).diagnostics.isEmpty

/-! ### Statement by statement -/

/-- Statements are carried out in the global scope, each from the state in which the one before it ended. -/
inductive Eval.CarriesOut (room : Room) : State → List Node → State → Prop
  | done (st : State) : CarriesOut room st [] st
  | next {st mid st' : State} {s : Node} {rest : List Node} {returned : Option Value}
      (hfirst : exec room.depth room.calls State.globals s st = .ok returned mid)
      (hrest : CarriesOut room mid rest st') : CarriesOut room st (s :: rest) st'

/-- Statements are carried out up to one that stops, and the state is that of the moment it does. -/
def Eval.StopsIn (room : Room) (program : List Node) (st : State) (stop : Stop) (stopped : State) : Prop :=
  ∃ before s after mid, program = before ++ s :: after ∧ CarriesOut room st before mid ∧
    exec room.depth room.calls State.globals s mid = .error stop stopped

/-- The error of a program that a stop is, and the token it is reported at. -/
inductive Stop.Blames (stopped : State) : Stop → Token → Cause → Prop
  | error (t : Token) (cause : Cause) : Blames stopped (.error ⟨some t, cause⟩) t cause
  | exhausted {t : Token} {others : List Node} (hcalls : stopped.calls = .token t :: others) :
      Blames stopped .exhausted t .stackOverflow

theorem Eval.execAll_cons (room : Room) (s : Node) (rest : List Node) :
    execAll room (s :: rest) = exec room.depth room.calls State.globals s >>= fun _ => execAll room rest := by
  have hcons : execAll room (s :: rest) =
      (exec room.depth room.calls State.globals s >>= fun _ => pure ()) >>= fun _ => execAll room rest := rfl
  rw [hcons, bind_assoc]
  rfl

theorem Eval.execAll_eq_ok_iff {room : Room} {program : List Node} {st st' : State} :
    execAll room program st = .ok () st' ↔ CarriesOut room st program st' := by
  constructor
  · intro h
    induction program generalizing st with
    | nil =>
      cases h
      exact .done _
    | cons s rest ih =>
      rw [execAll_cons] at h
      simp only [Bind.bind, EStateM.bind] at h
      cases hfirst : exec room.depth room.calls State.globals s st with
      | error stop stopped =>
        rw [hfirst] at h
        cases h
      | ok returned mid =>
        rw [hfirst] at h
        exact .next hfirst (ih h)
  · intro h
    induction h with
    | done st => rfl
    | next hfirst _ ih =>
      rw [execAll_cons]
      simp only [Bind.bind, EStateM.bind, hfirst]
      exact ih

theorem Eval.execAll_eq_error_iff {room : Room} {program : List Node} {st stopped : State} {stop : Stop} :
    execAll room program st = .error stop stopped ↔ StopsIn room program st stop stopped := by
  constructor
  · intro h
    induction program generalizing st with
    | nil => cases h
    | cons s rest ih =>
      rw [execAll_cons] at h
      simp only [Bind.bind, EStateM.bind] at h
      cases hfirst : exec room.depth room.calls State.globals s st with
      | error stop' stopped' =>
        rw [hfirst] at h
        cases h
        exact ⟨[], s, rest, st, rfl, .done st, hfirst⟩
      | ok returned mid =>
        rw [hfirst] at h
        obtain ⟨before, s', after, mid', rfl, hbefore, hstop⟩ := ih h
        exact ⟨s :: before, s', after, mid', rfl, .next hfirst hbefore, hstop⟩
  · rintro ⟨before, s, after, mid, rfl, hbefore, hstop⟩
    rw [execAll_append_of_ok _ (execAll_eq_ok_iff.mpr hbefore), execAll_cons]
    simp only [Bind.bind, EStateM.bind, hstop]

/-- The state behind a failure: what was done is kept, and no call is in progress. -/
def State.failedAt (stopped : State) (t : Token) (cause : Cause) : State :=
  { stopped with calls := [], trace := (stopped.failAt (some t) cause).2.trace }

theorem State.failAt_some (t : Token) (cause : Cause) (st : State) :
    st.failAt (some t) cause = (.failed t cause, st.failedAt t cause) := by
  unfold State.failedAt State.failAt
  dsimp only
  split
  · rfl
  · unfold State.note
    split <;> rfl

theorem Node.eq_token_of_token? {n : Node} {t : Token} (h : n.token? = some t) : n = .token t := by
  cases n with
  | token t' => rw [Option.some.inj h]
  | _ => cases h

theorem State.stopRun_eq_failed_iff {stop : Stop} {stopped st' : State} {t : Token} {cause : Cause} :
    stopped.stopRun stop = (.failed t cause, st') ↔ stop.Blames stopped t cause ∧ st' = stopped.failedAt t cause := by
  -- An error is reported at its own token, and too many calls at the innermost one.
  have hfail (site : Option Token) (cause' : Cause) : stopped.failAt site cause' = (.failed t cause, st') ↔
      (site = some t ∧ cause' = cause) ∧ st' = stopped.failedAt t cause := by
    cases site with
    | none => simp [failAt]
    | some t' =>
      rw [failAt_some]
      constructor
      · intro h
        cases h
        exact ⟨⟨rfl, rfl⟩, rfl⟩
      · rintro ⟨⟨ht, rfl⟩, rfl⟩
        cases ht
        rfl
  cases stop with
  | error e =>
    obtain ⟨site, cause'⟩ := e
    refine (hfail site cause').trans (and_congr_left fun _ => ?_)
    constructor
    · rintro ⟨rfl, rfl⟩
      exact .error t cause'
    · intro h
      cases h
      exact ⟨rfl, rfl⟩
  | exhausted =>
    unfold stopRun
    cases hcalls : stopped.calls with
    | nil =>
      constructor
      · intro h
        cases h
      · rintro ⟨h, -⟩
        cases h with
        | exhausted hsome => cases hcalls.symm.trans hsome
    | cons paren others =>
      refine (hfail paren.token? .stackOverflow).trans (and_congr_left fun _ => ?_)
      constructor
      · rintro ⟨hparen, rfl⟩
        exact .exhausted (Node.eq_token_of_token? hparen ▸ hcalls)
      · intro h
        cases h with
        | exhausted hsome =>
          cases hcalls.symm.trans hsome
          exact ⟨rfl, rfl⟩
  | _ =>
    constructor
    · intro h
      cases h
    · rintro ⟨h, -⟩
      cases h

/-! ### One line -/

/-- What a line comes to in a state: it is refused if there is a mistake in it, and otherwise its statements are carried
out in order, up to the last one or up to a failure. -/
inductive Answers (room : Room) (st : State) (line : String) : Reply → State → Prop
  | refused (hmistake : (parseProgram line).diagnostics ≠ []) :
      Answers room st line (.refused (parseProgram line).diagnostics) st
  | finished {st' : State} (hclean : (parseProgram line).diagnostics = []) (htrace : st.isUntraceable = false)
      (hrun : CarriesOut room (st.note ("run: " ++ toString (parseProgram line).result.length ++ " statement(s)"))
        (parseProgram line).result st') :
      Answers room st line .finished (st'.note "run: finished")
  | failed {stop : Stop} {stopped : State} {t : Token} {cause : Cause} (hclean : (parseProgram line).diagnostics = [])
      (htrace : st.isUntraceable = false)
      (hstop : StopsIn room (parseProgram line).result
        (st.note ("run: " ++ toString (parseProgram line).result.length ++ " statement(s)")) stop stopped)
      (hblames : stop.Blames stopped t cause) :
      Answers room st line (.failed t cause) (stopped.failedAt t cause)

namespace Answers

variable {room : Room} {st st' : State} {line : String} {reply : Reply}

theorem isRefused (h : Answers room st line reply st') : reply.isRefused = !isClean line := by
  cases h with
  | refused hmistake => simp [Reply.isRefused, isClean, hmistake]
  | finished hclean => simp [Reply.isRefused, isClean, hclean]
  | failed hclean => simp [Reply.isRefused, isClean, hclean]

theorem eq_of_isRefused (h : Answers room st line reply st') (hrefused : reply.isRefused = true) : st' = st := by
  cases h with
  | refused => rfl
  | finished | failed => cases hrefused

/-- A line without a mistake is run. -/
theorem finished_iff (hclean : (parseProgram line).diagnostics = []) :
    Answers room st line .finished st' ↔ st.run room (parseProgram line).result = (.finished, st') := by
  constructor
  · intro h
    cases h with
    | finished _ htrace hrun => rw [State.run_of_traceable _ _ htrace, execAll_eq_ok_iff.mpr hrun, State.endRun]
  · intro h
    cases htrace : st.isUntraceable with
    | true =>
      rw [State.run, htrace] at h
      cases h
    | false =>
      rw [State.run_of_traceable _ _ htrace] at h
      generalize hrun : execAll room _ _ = r at h
      cases r with
      | ok _ ended =>
        cases h
        exact .finished hclean htrace (execAll_eq_ok_iff.mp hrun)
      | error stop stopped => exact absurd (congrArg Prod.fst h) (State.stopRun_ne_finished stop stopped)

theorem failed_iff (hclean : (parseProgram line).diagnostics = []) {t : Token} {cause : Cause} :
    Answers room st line (.failed t cause) st' ↔ st.run room (parseProgram line).result = (.failed t cause, st') := by
  constructor
  · intro h
    cases h with
    | failed _ htrace hstop hblames =>
      rw [State.run_of_traceable _ _ htrace, execAll_eq_error_iff.mpr hstop, State.endRun]
      exact State.stopRun_eq_failed_iff.mpr ⟨hblames, rfl⟩
  · intro h
    cases htrace : st.isUntraceable with
    | true =>
      rw [State.run, htrace] at h
      cases h
    | false =>
      rw [State.run_of_traceable _ _ htrace] at h
      generalize hrun : execAll room _ _ = r at h
      cases r with
      | ok _ ended => cases h
      | error stop stopped =>
        obtain ⟨hblames, rfl⟩ := State.stopRun_eq_failed_iff.mp h
        exact .failed hclean htrace (execAll_eq_error_iff.mp hrun) hblames

end Answers

/-- A session between two lines: nothing is remembered but the state. In what was printed the marks of the prompt stand
among what the program printed. -/
def Session.between (st : State) (output errors : Array String) : Session :=
  ⟨{ st with output := output }, false, false, errors⟩

/-- What a run prints does not depend on what was printed before. -/
theorem State.run_with_output (room : Room) (program : List Node) (st : State) : ∃ printed,
    (st.run room program).2.output = st.output ++ printed ∧
    ∀ output, State.run room program { st with output := output } =
      ((st.run room program).1, { (st.run room program).2 with output := output ++ printed }) := by
  have hafter (output : Array String) : State.run room program { st with output := output } =
      ((State.run room program { st with output := #[] }).1,
        (State.run room program { st with output := #[] }).2.printedAfter output) := by
    rw [← printedAfter_run]
    simp [printedAfter]
  have hown : st.run room program = _ := hafter st.output
  refine ⟨(State.run room program { st with output := #[] }).2.output, by rw [hown]; rfl, fun output => ?_⟩
  rw [hown, hafter output]
  rfl

theorem Act.promptLine_eq (room : Room) (line : String) (st : State) (output errors : Array String) :
    Act.promptLine room line (.between st output errors) =
      (Act.run room line >>= fun _ => modify Session.reset) (.between st (output.push Act.promptMark) errors) := rfl

/-- At the prompt, a line without a mistake is run, and the session settles with the end of that run. -/
theorem Act.promptLine_clean {room : Room} {line : String} {st st' : State} {e : RunEnd} {printed : Array String}
    (hclean : (parseProgram line).diagnostics = []) (hrun : st.run room (parseProgram line).result = (e, st'))
    (hprinted : st'.output = st.output ++ printed) (output errors : Array String) :
    Act.promptLine room line (.between st output errors) =
      (Act.settle e >>= fun _ => modify Session.reset) (.between st' (output.push Act.promptMark ++ printed) errors) := by
  obtain ⟨own, hown, hanywhere⟩ := State.run_with_output room (parseProgram line).result st
  rw [hrun] at hown hanywhere
  obtain rfl : own = printed := Array.append_right_inj _ |>.mp (hown.symm.trans hprinted)
  have hstate : (Session.between st (output.push Act.promptMark) errors).state =
      { st with output := output.push Act.promptMark } := rfl
  rw [Act.promptLine_eq]
  simp only [Bind.bind, EStateM.bind]
  rw [Act.run_clean room hclean rfl, Act.execute_eq, hstate, hanywhere]
  rfl

theorem Answers.printed {room : Room} {st st' : State} {line : String} {reply : Reply} (h : Answers room st line reply st') :
    ∃ printed, st'.output = st.output ++ printed := by
  obtain ⟨printed, hprinted, -⟩ := State.run_with_output room (parseProgram line).result st
  have hanswer := h
  cases h with
  | refused => exact ⟨#[], by simp⟩
  | finished hclean =>
    rw [(finished_iff hclean).mp hanswer] at hprinted
    exact ⟨printed, hprinted⟩
  | failed hclean =>
    rw [(failed_iff hclean).mp hanswer] at hprinted
    exact ⟨printed, hprinted⟩

/-- At the prompt, a line comes to the same whatever was printed and reported before. -/
theorem Answers.promptLine {room : Room} {st st' : State} {line : String} {reply : Reply} {printed : Array String}
    (h : Answers room st line reply st') (hprinted : st'.output = st.output ++ printed) (output errors : Array String) :
    Act.promptLine room line (.between st output errors) =
      .ok () (.between st' (output.push Act.promptMark ++ printed) (errors ++ reply.reports.toArray)) := by
  cases hreply : reply with
  | refused diagnostics =>
    subst hreply
    cases h with
    | refused hmistake =>
      have hnone : printed = #[] := by simpa using hprinted
      rw [hnone, Act.promptLine_eq]
      simp only [Bind.bind, EStateM.bind]
      rw [Act.run_eq, if_pos (by simp [Session.report_eq, hmistake]), Session.report_eq, Array.append_empty]
      rfl
  | finished =>
    subst hreply
    have hclean : (parseProgram line).diagnostics = [] := by cases h with | finished hclean => exact hclean
    have hreports : errors ++ Reply.finished.reports.toArray = errors := Array.append_empty
    rw [Act.promptLine_clean hclean ((finished_iff hclean).mp h) hprinted, hreports]
    rfl
  | failed t cause =>
    subst hreply
    have hclean : (parseProgram line).diagnostics = [] := by cases h with | failed hclean => exact hclean
    have hreports : errors ++ (Reply.failed t cause).reports.toArray =
        errors.push (cause.message ++ "\n[line " ++ toString t.line ++ "]" ++ "\n") := by
      simp [Reply.reports, String.append_assoc]
    rw [Act.promptLine_clean hclean ((failed_iff hclean).mp h) hprinted, hreports]
    rfl

/-! ### What every state between two lines is like -/

/-- A state between two lines: its settings are those at the start, its values and calls come from parsed programs, and
no call is in progress. -/
structure State.Waits (start st : State) : Prop where
  settings : start.SameSettings st
  named : st.IsOf fun t => ∃ name, t.lexeme = .str name
  idle : st.calls = []

theorem State.note_calls (record : String) (st : State) : (st.note record).calls = st.calls := by
  unfold note
  split <;> rfl

theorem State.sameSettings_failedAt (stopped : State) (t : Token) (cause : Cause) :
    stopped.SameSettings (stopped.failedAt t cause) := by
  have hsettings : stopped.SameSettings (stopped.failAt (some t) cause).2 := by
    unfold failAt
    dsimp only
    split
    · exact ⟨rfl, rfl⟩
    · have hnoted := sameSettings_note ("runtime error at line " ++ toString t.line ++ ": " ++ cause.message)
        { stopped with calls := [] }
      exact ⟨hnoted.level, hnoted.canOpen⟩
  exact ⟨rfl, hsettings.canOpen⟩

/-- The names in a parsed text are texts. -/
theorem parseProgram_named (line : String) :
    ∀ s ∈ (parseProgram line).result, s.IsStatementOf fun t => ∃ name, t.lexeme = .str name :=
  parseProgramTokens_statementsOf (named_scan line) (scan line).eof

theorem Answers.waits {room : Room} {start st st' : State} {line : String} {reply : Reply}
    (h : Answers room st line reply st') (hst : start.Waits st) : start.Waits st' := by
  have hnamed {e : RunEnd} (htrace : st.isUntraceable = false) (hrun : st.run room (parseProgram line).result = (e, st')) :
      st'.IsOf fun t => ∃ name, t.lexeme = .str name := by
    have hend := (State.IsOf.run (fun _ ht => ht) room (parseProgram_named line) hst.named htrace).2
    rwa [hrun] at hend
  have hsteady := steady_execAll room (parseProgram line).result
    (st.note ("run: " ++ toString (parseProgram line).result.length ++ " statement(s)"))
  have hnoted := hst.settings.trans (st.sameSettings_note ("run: " ++ toString (parseProgram line).result.length ++ " statement(s)"))
  have hanswer := h
  cases h with
  | refused => exact hst
  | @finished ended hclean htrace hrun =>
    rw [execAll_eq_ok_iff.mpr hrun] at hsteady
    refine ⟨(hnoted.trans hsteady.1).trans (ended.sameSettings_note _), ?_, ?_⟩
    · exact hnamed htrace ((finished_iff hclean).mp hanswer)
    · rw [State.note_calls, hsteady.2, State.note_calls, hst.idle]
  | @failed stop stopped t cause hclean htrace hstop hblames =>
    rw [execAll_eq_error_iff.mpr hstop] at hsteady
    refine ⟨(hnoted.trans hsteady).trans (stopped.sameSettings_failedAt t cause), ?_, rfl⟩
    exact hnamed htrace ((failed_iff hclean).mp hanswer)

/-- Every line is answered, unless it does not end or its trace cannot be opened. -/
theorem State.Waits.answers {start st : State} (hst : start.Waits st) (room : Room) (line : String) :
    (∃ reply st', Answers room st line reply st') ∨
      isClean line = true ∧ ∃ abort, (abort = .outOfFuel ∨ abort = .untraceable ∧ start.isUntraceable = true) ∧
        ∀ output errors, ∃ s, Act.promptLine room line (.between st output errors) = .error abort s := by
  by_cases hclean : (parseProgram line).diagnostics = []
  · have hline {e : RunEnd} {st' : State} (hrun : st.run room (parseProgram line).result = (e, st'))
        (output errors : Array String) : ∃ s, Act.promptLine room line (.between st output errors) =
          (Act.settle e >>= fun _ => modify Session.reset) s := by
      obtain ⟨printed, hprinted, -⟩ := State.run_with_output room (parseProgram line).result st
      rw [hrun] at hprinted
      exact ⟨_, Act.promptLine_clean hclean hrun hprinted output errors⟩
    have hisClean : isClean line = true := by simp [isClean, hclean]
    by_cases htrace : st.isUntraceable = true
    · have hrun : st.run room (parseProgram line).result = (.untraceable, st) := by rw [State.run, if_pos htrace]
      exact .inr ⟨hisClean, .untraceable, .inr ⟨rfl, hst.settings.isUntraceable ▸ htrace⟩, hline hrun⟩
    · have hend := (State.IsOf.run (fun _ ht => ht) room (parseProgram_named line) hst.named
        (Bool.eq_false_iff.mpr htrace)).1
      generalize hrun : st.run room (parseProgram line).result = ended at hend
      obtain ⟨e, st'⟩ := ended
      cases hend with
      | finished => exact .inl ⟨_, st', (Answers.finished_iff hclean).mpr hrun⟩
      | failed => exact .inl ⟨_, st', (Answers.failed_iff hclean).mpr hrun⟩
      | outOfFuel => exact .inr ⟨hisClean, .outOfFuel, .inl rfl, hline hrun⟩
  · exact .inl ⟨_, st, .refused hclean⟩

/-! ### Dialogues -/

/-- A line at the prompt, what it comes to, and what is printed by it. -/
structure Turn where
  line : String
  reply : Reply
  printed : Array String

/-- Lines one after the other; what passes from each to the next is the state alone. -/
inductive Dialogue (room : Room) : State → List Turn → State → Prop
  | done (st : State) : Dialogue room st [] st
  | turn {st mid st' : State} {turn : Turn} {later : List Turn} (hline : Answers room st turn.line turn.reply mid)
      (hprinted : mid.output = st.output ++ turn.printed) (hlater : Dialogue room mid later st') :
      Dialogue room st (turn :: later) st'

/-- What a prompt writes while it reads lines: its mark before each, and what the line prints behind it. -/
def Turn.transcript (turns : List Turn) : Array String :=
  (turns.flatMap fun turn => Act.promptMark :: turn.printed.toList).toArray

def Turn.reports (turns : List Turn) : Array String := (turns.flatMap fun turn => turn.reply.reports).toArray

/-- The turns of the lines that were run. -/
def Turn.answered (turns : List Turn) : List Turn := turns.filter fun turn => !turn.reply.isRefused

theorem Turn.transcript_cons (turn : Turn) (later : List Turn) (output : Array String) :
    output ++ transcript (turn :: later) = output.push Act.promptMark ++ turn.printed ++ transcript later := by
  apply Array.ext'
  simp [transcript]

theorem Turn.reports_cons (turn : Turn) (later : List Turn) (errors : Array String) :
    errors ++ reports (turn :: later) = errors ++ turn.reply.reports.toArray ++ reports later := by
  apply Array.ext'
  simp [reports]

namespace Dialogue

variable {room : Room} {st st' : State} {turns : List Turn}

theorem waits {start : State} (h : Dialogue room st turns st') (hst : start.Waits st) : start.Waits st' := by
  induction h with
  | done => exact hst
  | turn hline _ _ ih => exact ih (hline.waits hst)

theorem printed (h : Dialogue room st turns st') :
    st'.output = st.output ++ (turns.flatMap fun turn => turn.printed.toList).toArray := by
  induction h with
  | done => simp
  | @turn st mid st' turn later hline hprinted _ ih =>
    rw [ih, hprinted, Array.append_assoc, List.flatMap_cons, ← List.append_toArray, Array.toArray_toList]

theorem answered_cons (turn : Turn) (later : List Turn) : Turn.answered (turn :: later) =
    if turn.reply.isRefused then Turn.answered later else turn :: Turn.answered later := by
  unfold Turn.answered
  cases hrefused : turn.reply.isRefused <;> simp [hrefused]

/-- A refused line leaves everything as it was, so it can be left out. -/
theorem answered (h : Dialogue room st turns st') : Dialogue room st (Turn.answered turns) st' := by
  induction h with
  | done => exact .done _
  | @turn st mid st' turn later hline hprinted _ ih =>
    rw [answered_cons]
    split
    next hrefused => exact hline.eq_of_isRefused hrefused ▸ ih
    next => exact .turn hline hprinted ih

theorem answered_lines (h : Dialogue room st turns st') :
    (Turn.answered turns).map Turn.line = (turns.map Turn.line).filter isClean := by
  induction h with
  | done => rfl
  | @turn st mid st' turn later hline _ _ ih =>
    rw [answered_cons, hline.isRefused, List.map_cons, List.filter_cons]
    cases isClean turn.line with
    | true => exact congrArg (turn.line :: ·) ih
    | false => exact ih

/-- The prompt holds the dialogue. -/
theorem forM_promptLine (h : Dialogue room st turns st') (output errors : Array String) :
    (turns.map Turn.line).forM (Act.promptLine room) (.between st output errors) =
      .ok () (.between st' (output ++ Turn.transcript turns) (errors ++ Turn.reports turns)) := by
  induction h generalizing output errors with
  | done st =>
    have hoff : output ++ Turn.transcript [] = output ∧ errors ++ Turn.reports [] = errors := by
      simp [Turn.transcript, Turn.reports]
    rw [hoff.1, hoff.2]
    rfl
  | @turn st mid st' turn later hline hprinted _ ih =>
    have hcons : ((turn :: later).map Turn.line).forM (Act.promptLine room) =
        Act.promptLine room turn.line >>= fun _ => (later.map Turn.line).forM (Act.promptLine room) := rfl
    rw [hcons]
    simp only [Bind.bind, EStateM.bind]
    rw [hline.promptLine hprinted]
    dsimp only
    rw [ih, Turn.transcript_cons, Turn.reports_cons]

end Dialogue

/-- The lines of a prompt are a dialogue, unless a line that has no mistake aborts the session, and then it aborts the
session that is given only such lines. -/
theorem State.Waits.dialogue {start st : State} (hst : start.Waits st) (room : Room) (lines : List String) :
    (∃ turns st', Dialogue room st turns st' ∧ turns.map Turn.line = lines) ∨
      ∃ abort, (abort = .outOfFuel ∨ abort = .untraceable ∧ start.isUntraceable = true) ∧
        ∀ output errors,
          (∃ s, lines.forM (Act.promptLine room) (.between st output errors) = .error abort s) ∧
          ∃ s, (lines.filter isClean).forM (Act.promptLine room) (.between st output errors) = .error abort s := by
  induction lines generalizing st with
  | nil => exact .inl ⟨[], st, .done st, rfl⟩
  | cons line lines ih =>
    have hcons (lines : List String) : (line :: lines).forM (Act.promptLine room) =
        Act.promptLine room line >>= fun _ => lines.forM (Act.promptLine room) := rfl
    rcases hst.answers room line with ⟨reply, mid, hline⟩ | ⟨hclean, abort, habort, hstops⟩
    · obtain ⟨printed, hprinted⟩ := hline.printed
      have hfirst := hline.promptLine hprinted
      rcases ih (hline.waits hst) with ⟨turns, st', hlater, rfl⟩ | ⟨abort, habort, hstops⟩
      · exact .inl ⟨⟨line, reply, printed⟩ :: turns, st', .turn hline hprinted hlater, rfl⟩
      · refine .inr ⟨abort, habort, fun output errors => ⟨?_, ?_⟩⟩
        · rw [hcons]
          simp only [Bind.bind, EStateM.bind, hfirst]
          exact (hstops _ _).1
        · cases hclean : isClean line with
          | true =>
            rw [List.filter_cons_of_pos hclean, hcons]
            simp only [Bind.bind, EStateM.bind, hfirst]
            exact (hstops _ _).2
          | false =>
            rw [List.filter_cons_of_neg (by simp [hclean])]
            have hmid : mid = st := hline.eq_of_isRefused (by rw [hline.isRefused, hclean]; rfl)
            exact hmid ▸ (hstops output errors).2
    · refine .inr ⟨abort, habort, fun output errors => ?_⟩
      obtain ⟨s, hs⟩ := hstops output errors
      rw [List.filter_cons_of_pos hclean, hcons, hcons]
      simp only [Bind.bind, EStateM.bind, hs]
      exact ⟨⟨s, rfl⟩, s, rfl⟩

/-! ### The prompt -/

theorem Dialogue.isRefused {room : Room} {st st' : State} {turns : List Turn} (h : Dialogue room st turns st') :
    ∀ turn ∈ turns, turn.reply.isRefused = !isClean turn.line := by
  induction h with
  | done => exact List.forall_mem_nil _
  | turn hline _ _ ih => exact List.forall_mem_cons.mpr ⟨hline.isRefused, ih⟩

theorem Dialogue.reports_of_refused {room : Room} {st st' : State} {turns : List Turn} (h : Dialogue room st turns st')
    (fresh : Session) (hfresh : fresh.errors = #[]) : ∀ turn ∈ turns, turn.reply.isRefused = true →
      turn.reply.reports.toArray = (fresh.report (parseProgram turn.line).diagnostics).errors := by
  induction h with
  | done => exact List.forall_mem_nil _
  | @turn st mid st' turn later hline _ _ ih =>
    refine List.forall_mem_cons.mpr ⟨fun hrefused => ?_, ih⟩
    rw [Session.report_eq, hfresh, Array.empty_append]
    generalize turn.reply = reply at hline hrefused
    cases hline with
    | refused => rfl
    | finished | failed => cases hrefused

theorem Act.prompt_eq (room : Room) (level : Nat) (canTrace : Bool) (clock : Nat → Number) (lines : List String) :
    Act.prompt room lines (Session.start level canTrace clock) =
      (lines.forM (Act.promptLine room) >>= fun _ => modify (Session.writeOutput Act.promptMark))
        (.between (State.initial level canTrace clock) #[] #[]) := rfl

/-- The prompt on its lines, to its end. -/
theorem Dialogue.prompt {room : Room} {level : Nat} {canTrace : Bool} {clock : Nat → Number} {turns : List Turn} {st : State}
    (h : Dialogue room (State.initial level canTrace clock) turns st) :
    Act.prompt room (turns.map Turn.line) (Session.start level canTrace clock) =
      .ok () (.between st ((Turn.transcript turns).push Act.promptMark) (Turn.reports turns)) := by
  have hlines := h.forM_promptLine #[] #[]
  rw [Array.empty_append, Array.empty_append] at hlines
  rw [Act.prompt_eq]
  simp only [Bind.bind, EStateM.bind, hlines]
  rfl

/-- The lines of a prompt are the turns of a dialogue, in which a line is run if it has no mistake and is refused
otherwise, with the diagnostics of the line alone. The session ends in the state that the dialogue leaves, between its
lines nothing is remembered, and no call is in progress. Without the refused lines the prompt ends in the same state, has
printed the same but for its marks, and has reported the same failures. Only a line that does not end, or a trace that
cannot be opened, keeps the session from ending, and then it does so without the refused lines, too. -/
theorem prompt_isolates_lines (room : Room) (level : Nat) (canTrace : Bool) (clock : Nat → Number) (lines : List String) :
    (∃ turns st, Dialogue room (State.initial level canTrace clock) turns st ∧ turns.map Turn.line = lines ∧
      (∀ turn ∈ turns, turn.reply.isRefused = !isClean turn.line) ∧
      (∀ turn ∈ turns, turn.reply.isRefused = true → turn.reply.reports.toArray =
        ((Session.start level canTrace clock).report (parseProgram turn.line).diagnostics).errors) ∧
      Act.prompt room lines (Session.start level canTrace clock) =
        .ok () (.between st ((Turn.transcript turns).push Act.promptMark) (Turn.reports turns)) ∧
      st.output = (turns.flatMap fun turn => turn.printed.toList).toArray ∧ st.calls = [] ∧
      Dialogue room (State.initial level canTrace clock) (Turn.answered turns) st ∧
      Act.prompt room (lines.filter isClean) (Session.start level canTrace clock) =
        .ok () (.between st ((Turn.transcript (Turn.answered turns)).push Act.promptMark)
          (Turn.reports (Turn.answered turns))) ∧
      st.output = ((Turn.answered turns).flatMap fun turn => turn.printed.toList).toArray ∧
      ∀ lookup stdin, Cli.startSession clock lookup level = Session.start level canTrace clock →
        Text.lines stdin = lines → (Cli.runPrompt room clock lookup level stdin).ending = .exit 0) ∨
    ∃ abort, (abort = .outOfFuel ∨ abort = .untraceable ∧ 1 ≤ level ∧ canTrace = false) ∧
      (∃ s, Act.prompt room lines (Session.start level canTrace clock) = .error abort s) ∧
      ∃ s, Act.prompt room (lines.filter isClean) (Session.start level canTrace clock) = .error abort s := by
  have hstart : State.Waits (State.initial level canTrace clock) (State.initial level canTrace clock) :=
    ⟨⟨rfl, rfl⟩, State.isOf_initial level canTrace clock, rfl⟩
  rcases hstart.dialogue room lines with ⟨turns, st, hdialogue, rfl⟩ | ⟨abort, habort, hstops⟩
  · have hprinted {turns : List Turn} (h : Dialogue room (State.initial level canTrace clock) turns st) :
        st.output = (turns.flatMap fun turn => turn.printed.toList).toArray := h.printed.trans Array.empty_append
    refine .inl ⟨turns, st, hdialogue, rfl, hdialogue.isRefused, hdialogue.reports_of_refused _ rfl, hdialogue.prompt,
      hprinted hdialogue, (hdialogue.waits hstart).idle, hdialogue.answered, ?_, hprinted hdialogue.answered, ?_⟩
    · rw [← hdialogue.answered_lines]
      exact hdialogue.answered.prompt
    · intro lookup stdin hsession hlines
      rw [Cli.runPrompt, hsession, hlines, hdialogue.prompt]
      rfl
  · have hprompt {lines : List String} : (∃ s, lines.forM (Act.promptLine room)
          (.between (State.initial level canTrace clock) #[] #[]) = .error abort s) →
        ∃ s, Act.prompt room lines (Session.start level canTrace clock) = .error abort s := by
      rintro ⟨s, hs⟩
      rw [Act.prompt_eq]
      simp only [Bind.bind, EStateM.bind, hs]
      exact ⟨s, rfl⟩
    obtain ⟨hall, hclean⟩ := hstops #[] #[]
    exact .inr ⟨abort, habort.imp_right fun h => ⟨h.1, (initial_isUntraceable level canTrace clock).mp h.2⟩, hprompt hall,
      hprompt hclean⟩

/-- The first line prints, the second has a mistake, and the third is run all the same: it prints and then fails. -/
theorem prompt_isolates_lines_mixed :
    ∃ turns st, Dialogue ⟨9, callLimit⟩ (State.initial 0 true fun _ => .zero) turns st ∧
      turns.map Turn.line = ["print true;", "print;", "print nil; a;"] ∧
      (turns.map fun turn => turn.reply.isRefused) = [false, true, false] ∧
      Turn.transcript turns = #["> ", "true\n", "> ", "> ", "nil\n"] ∧
      Turn.reports turns = #["[line 1] Error at ';': Expect expression.\n", "Undefined variable 'a'.\n[line 1]\n"] := by
  have hstreams : (Act.answered? (Act.prompt ⟨9, callLimit⟩ ["print true;", "print;", "print nil; a;"]
      (Session.start 0 true fun _ => .zero))).map (fun s => (s.state.output, s.errors)) =
      some (#["> ", "true\n", "> ", "> ", "nil\n", "> "],
        #["[line 1] Error at ';': Expect expression.\n", "Undefined variable 'a'.\n[line 1]\n"]) := by cbv
  have hclean : (["print true;", "print;", "print nil; a;"].map fun line => !isClean line) =
      [false, true, false] := by cbv
  rcases prompt_isolates_lines ⟨9, callLimit⟩ 0 true (fun _ => .zero)
      ["print true;", "print;", "print nil; a;"] with
    ⟨turns, st, hdialogue, hlines, hrefused, -, hprompt, -⟩ | ⟨abort, -, ⟨s, hs⟩, -⟩
  · rw [hprompt] at hstreams
    obtain ⟨houtput, hreports⟩ := Prod.mk.inj (Option.some.inj hstreams)
    refine ⟨turns, st, hdialogue, hlines, ?_, ?_, hreports⟩
    · rw [← hclean, ← hlines, List.map_map]
      exact List.map_congr_left hrefused
    · exact Array.push_inj_left.mp houtput
  · rw [hs] at hstreams
    cases hstreams

end LoxLang
