import LoxLang.Proofs.Eval.Frame
import LoxLang.Proofs.Scope.ReadWrite
import LoxLang.Proofs.Session.Prompt
import LoxLang.Proofs.Session.Tracing
/-!
# What the trace says of a run

The trace of a text's run begins with the number of its statements. It ends with how the run ended:
that it came to its end, or the message and the line of the error that is reported. Between the two
records the run only adds others, since the file stays open and nothing is taken back.

There is one way to end that leaves no record: too many calls inside each other are reported as an
error, but the trace ends with whatever was recorded before. A function that does nothing but call
itself shows it.
-/

namespace LoxLang

/-- What is recorded of the end of a run. -/
def RunEnd.record? : RunEnd → Option String
  | .finished => some "run: finished"
  | .failed site cause =>
    if cause = .stackOverflow then none
    else some ("runtime error at line " ++ toString site.line ++ ": " ++ cause.message)
  | _ => none

/-! ### Records are only added -/

namespace Eval

variable {α β : Type}

/-- If the trace is open, the computation keeps it open and adds records behind those that are there. -/
def Records (m : Eval α) : Prop := ∀ st : State, st.trace.isOpen = true →
  (stateOf (m st)).trace.isOpen = true ∧ st.trace.recorded <+: (stateOf (m st)).trace.recorded

namespace Records

theorem bind {m : Eval α} {f : α → Eval β} (hm : Records m) (hf : ∀ a, Records (f a)) : Records (m >>= f) := by
  intro st hopen
  have hfirst := hm st hopen
  simp only [Bind.bind, EStateM.bind]
  cases hmid : m st with
  | error stop mid =>
    rw [hmid] at hfirst
    exact hfirst
  | ok a mid =>
    rw [hmid] at hfirst
    obtain ⟨hstill, hfront⟩ := hf a mid hfirst.1
    exact ⟨hstill, hfirst.2.trans hfront⟩

theorem pure (a : α) : Records (Pure.pure a : Eval α) := fun _ hopen => ⟨hopen, List.prefix_rfl⟩

theorem throw (stop : Stop) : Records (MonadExcept.throw stop : Eval α) := fun _ hopen => ⟨hopen, List.prefix_rfl⟩

/-- A step that leaves the trace alone. -/
theorem modifyGet {g : State → α × State} (h : ∀ st, (g st).2.trace = st.trace) :
    Records (MonadStateOf.modifyGet g : Eval α) := by
  intro st hopen
  show (g st).2.trace.isOpen = true ∧ st.trace.recorded <+: (g st).2.trace.recorded
  rw [h st]
  exact ⟨hopen, List.prefix_rfl⟩

theorem traceAt (level : Nat) (record : Unit → Except Fault String) : Records (Eval.traceAt level record) := by
  intro st hopen
  have hstep : Eval.traceAt level record st =
      (if level ≤ st.level then Eval.orFault (record ()) >>= fun record =>
        modify fun st => { st with trace := st.trace.write record } else Pure.pure ()) st := rfl
  rw [hstep]
  split
  · cases record () with
    | error f => exact throw _ st hopen
    | ok text =>
      refine ⟨Trace.isOpen_write text, ?_⟩
      show st.trace.recorded <+: (st.trace.write text).recorded
      rw [Trace.recorded_write hopen]
      exact List.prefix_append _ _
  · exact pure () st hopen

theorem stepClosed : StepClosed @Records where
  pure := .pure
  throw _ := .throw _
  exhausted := .throw _
  bind := .bind
  call _ hm := .bind (.modifyGet fun _ => rfl) fun _ => hm.bind fun a => .bind (.modifyGet fun _ => rfl) fun _ => .pure a
  traceAt record _ _ := .traceAt _ record
  write _ := .modifyGet fun _ => rfl
  openScope _ := .modifyGet fun _ => rfl
  define _ _ _ := .modifyGet fun _ => rfl
  look hf st := hf st.store st
  closure _ _ _ _ := .modifyGet fun _ => rfl
  readClock := .modifyGet fun _ => rfl

end Records

end Eval

/-! ### The first and the last record -/

namespace State

open Eval

variable {st : State}

theorem recorded_note (hlevel : 1 ≤ st.level) (hopen : st.trace.isOpen = true) (record : String) :
    (st.note record).trace.recorded = st.trace.recorded ++ [record] := by
  rw [note, if_pos hlevel]
  exact Trace.recorded_write hopen record

theorem recorded_failAt (hlevel : 1 ≤ st.level) (hopen : st.trace.isOpen = true) (site : Option Token) (cause : Cause) :
    (st.failAt site cause).2.trace.recorded = st.trace.recorded ++ (st.failAt site cause).1.record?.toList := by
  cases site with
  | none => exact (List.append_nil _).symm
  | some t =>
    unfold failAt
    dsimp only
    by_cases hoverflow : cause = .stackOverflow
    · rw [if_pos hoverflow, RunEnd.record?, if_pos hoverflow]
      exact (List.append_nil _).symm
    · rw [if_neg hoverflow, RunEnd.record?, if_neg hoverflow]
      exact @recorded_note { st with calls := [] } hlevel hopen _

theorem recorded_endRun {r : EStateM.Result Stop State Unit} (hlevel : 1 ≤ (stateOf r).level)
    (hopen : (stateOf r).trace.isOpen = true) :
    (endRun r).2.trace.recorded = (stateOf r).trace.recorded ++ (endRun r).1.record?.toList := by
  cases r with
  | ok _ st => exact recorded_note hlevel hopen _
  | error stop st =>
    cases stop with
    | error e => exact recorded_failAt hlevel hopen e.site e.cause
    | exhausted =>
      show (st.stopRun .exhausted).2.trace.recorded = st.trace.recorded ++ (st.stopRun .exhausted).1.record?.toList
      cases hcalls : st.calls with
      | nil => simp only [stopRun, hcalls, RunEnd.record?, Option.toList, List.append_nil]
      | cons paren others =>
        have hstop : st.stopRun .exhausted = st.failAt paren.token? .stackOverflow := by simp only [stopRun, hcalls]
        rw [hstop]
        exact recorded_failAt hlevel hopen paren.token? .stackOverflow
    | fault f => exact (List.append_nil _).symm
    | outOfFuel => exact (List.append_nil _).symm

/-- The record that starts a run of the program. -/
def startRecord (program : List Node) : String := "run: " ++ toString program.length ++ " statement(s)"

/-- The state in which the statements of a program end or stop, before anything is said about it. -/
def executed (room : Room) (program : List Node) (st : State) : State :=
  stateOf (execAll room program (st.note (startRecord program)))

/-- A run that opens the trace: the first record stays the first, and behind all that the statements recorded stands at
most the record of the end. -/
theorem recorded_run (room : Room) (program : List Node) (hlevel : 1 ≤ st.level) (htrace : st.isUntraceable = false)
    (hclosed : st.trace.isOpen = false) :
    [startRecord program] <+: (st.executed room program).trace.recorded ∧
      (st.run room program).2.trace.recorded =
        (st.executed room program).trace.recorded ++ (st.run room program).1.record?.toList := by
  have hnote : st.note (startRecord program) = { st with trace := st.trace.write (startRecord program) } := if_pos hlevel
  have hopen : (st.note (startRecord program)).trace.isOpen = true := hnote ▸ Trace.isOpen_write _
  have hfirst : (st.note (startRecord program)).trace.recorded = [startRecord program] := by
    rw [hnote, Trace.write, hclosed]
    rfl
  obtain ⟨hstill, hfront⟩ := Records.stepClosed.execAll room program _ hopen
  have hkept : (st.executed room program).level = st.level := by
    have hsettings := steady_execAll room program (st.note (startRecord program))
    unfold executed
    cases hrun : execAll room program (st.note (startRecord program)) with
    | ok _ st' =>
      rw [hrun] at hsettings
      exact hsettings.1.level.trans (hnote ▸ rfl)
    | error stop st' =>
      rw [hrun] at hsettings
      exact hsettings.level.trans (hnote ▸ rfl)
  rw [run_of_traceable room program htrace]
  exact ⟨hfirst ▸ hfront, recorded_endRun (hkept.symm ▸ hlevel) hstill⟩

end State

/-! ### Too many calls -/

/-- The statement that calls a name without arguments. -/
def Node.callOf (name paren : Token) : Node := .expression (.call (.reference (.token name)) (.token paren) [])

/-- The name stands for the function, seen from the scope and from where the function was declared. -/
structure Store.Reaches (store : Store Value) (scope : ScopeId) (x : Name) (g : Closure) : Prop where
  ordered : store.Ordered
  declared : g.scope < store.next
  here : store.get? scope x = some (.function g)
  within : store.get? g.scope x = some (.function g)

theorem Store.Reaches.child {store : Store Value} {scope : ScopeId} {x : Name} {g : Closure}
    (h : store.Reaches scope x g) : (store.child g.scope).Reaches store.next x g where
  ordered := h.ordered.child h.declared
  declared := h.declared.trans (by rw [next_child]; exact Nat.lt_succ_self _)
  here := (h.ordered.get?_child_next h.declared).trans h.within
  within := (h.ordered.get?_child_of_lt h.declared h.declared).trans h.within

namespace Eval

variable {name paren : Token} {x : Name} {g : Closure} {scope : ScopeId} {st st' : State}

/-- Below level 3 a call is not recorded, and it stops as the body of the function does. -/
theorem exec_callOf {fuel calls : Nat} {stop : Stop} (hname : name.lexeme.name? = some x) (hparams : g.params = [])
    (hget : st.store.get? scope x = some (.function g)) (hlevel : st.level < 3)
    (hbody : invoke (fuel + 1) calls g [] { st with calls := .token paren :: st.calls } = .error stop st') :
    exec (fuel + 3) calls scope (.callOf name paren) st = .error stop st' := by
  have hcallee : eval (fuel + 1) calls scope (.reference (.token name)) st = .ok (.function g) st := by
    show lookup scope name st = _
    rw [lookup_eq hname, hget]
    rfl
  have htrace : traceAt 3 (fun _ => callRecord (.function g) 0 (.token paren)) st = .ok () st := by
    show (if 3 ≤ st.level then _ else pure () : Eval Unit) st = _
    rw [if_neg (Nat.not_le.mpr hlevel)]
    rfl
  have hcall : callValue (invoke (fuel + 1) calls) (.function g) [] (.token paren) st = .error stop st' := by
    simp only [callValue, arity?, hparams, List.length_nil, ne_eq, not_true_eq_false, if_false, bind, EStateM.bind, htrace,
      enterCall, modify, modifyGet, MonadStateOf.modifyGet, EStateM.modifyGet, hbody]
  have heval : eval (fuel + 2) calls scope (.call (.reference (.token name)) (.token paren) []) st = .error stop st' := by
    show (eval (fuel + 1) calls scope (.reference (.token name)) >>= fun callee =>
      callValue (invoke (fuel + 1) calls) callee [] (.token paren) : Eval Value) st = _
    simp only [bind, EStateM.bind, hcallee, hcall]
  show (eval (fuel + 2) calls scope (.call (.reference (.token name)) (.token paren) []) >>= fun _ =>
    pure none : Eval (Option Value)) st = _
  simp only [bind, EStateM.bind, heval]

/-- A function that does nothing but call itself uses up all the calls that may be in progress, however many they are,
and nothing is recorded. -/
theorem exec_callOf_itself (hname : name.lexeme.name? = some x) (hparams : g.params = [])
    (hbody : g.body = [.callOf name paren]) (calls : Nat) (st : State) (hreaches : st.store.Reaches scope x g)
    (hlevel : st.level < 3) :
    ∃ st', exec (3 * calls + 3) calls scope (.callOf name paren) st = .error .exhausted st' ∧
      st'.calls.head? = some (.token paren) ∧ st'.trace = st.trace := by
  induction calls generalizing scope st with
  | zero => exact ⟨_, exec_callOf hname hparams hreaches.here hlevel rfl, rfl, rfl⟩
  | succ calls ih =>
    -- The body runs in a new scope inside that of the declaration, from where the function is reached again.
    obtain ⟨st', hexec, hcalls, htrace⟩ :=
      ih { st with calls := .token paren :: st.calls, store := st.store.child g.scope } hreaches.child hlevel
    refine ⟨st', exec_callOf hname hparams hreaches.here hlevel ?_, hcalls, htrace⟩
    show (bindParams st.store.next g.params [] >>= fun _ =>
      untilReturn (exec (3 * calls + 3) calls st.store.next) g.body : Eval (Option Value))
        { st with calls := .token paren :: st.calls, store := st.store.child g.scope } = _
    rw [hparams, hbody]
    show (exec (3 * calls + 3) calls st.store.next (.callOf name paren) >>= _ : Eval (Option Value)) _ = _
    simp only [bind, EStateM.bind, hexec]

end Eval

/-! ### The run of a text -/

/-- How the trace begins and ends when a text was run. -/
structure Session.TracesEnd (source : String) (executed : State) (s : Session) : Prop where
  begins : s.state.trace.recorded.head? =
    some ("run: " ++ toString (parseProgram source).result.length ++ " statement(s)")
  finished : s.exitCode = 0 → s.state.trace.recorded.getLast? = some "run: finished"
  /-- The error that is reported is recorded too, unless it is that of too many calls. Then nothing is recorded behind
  what the statements recorded. -/
  failed : s.exitCode = 70 → ∃ t ∈ (scan source).tokens, ∃ cause : Cause, cause.OccursAt t ∧
    s.errors = #[cause.message ++ "\n[line " ++ toString t.line ++ "]\n"] ∧
    (cause ≠ .stackOverflow → s.state.trace.recorded.getLast? =
      some ("runtime error at line " ++ toString t.line ++ ": " ++ cause.message)) ∧
    (cause = .stackOverflow → s.state.trace.recorded = executed.trace.recorded)

/-- A text without a mistake that is run with a trace ends with exit code 0 or 70 and a trace that says so, or it needs
more depth than it is given, or the trace cannot be opened. -/
theorem run_traces_its_end (room : Room) (level : Nat) (canTrace : Bool) (clock : Nat → Number) (source : String)
    (hclean : (parseProgram source).diagnostics = []) (hlevel : 1 ≤ level) :
    match Act.run room source (Session.start level canTrace clock) with
    | .ok _ s => (s.exitCode = 0 ∨ s.exitCode = 70) ∧
      s.TracesEnd source ((State.initial level canTrace clock).executed room (parseProgram source).result)
    | .error abort _ => abort = .outOfFuel ∨ abort = .untraceable ∧ canTrace = false := by
  rw [Act.run_clean room hclean rfl, Act.execute_eq]
  have hends := run_parsed room level canTrace source clock
  change (((Session.start level canTrace clock).state.run room _).1 = _ ∧ _) ∨
    (((Session.start level canTrace clock).state.run room _).1).IsOf _ at hends
  rcases hends with ⟨huntraceable, -, hcannot⟩ | hends
  · rw [huntraceable]
    exact .inr ⟨rfl, hcannot⟩
  cases htrace : (State.initial level canTrace clock).isUntraceable with
  | true =>
    have huntraceable : (Session.start level canTrace clock).state.run room (parseProgram source).result =
      (.untraceable, (Session.start level canTrace clock).state) := if_pos htrace
    rw [huntraceable] at hends
    cases hends
  | false =>
    obtain ⟨⟨more, hmore⟩, hrecorded⟩ :=
      (State.initial level canTrace clock).recorded_run room (parseProgram source).result hlevel htrace rfl
    change ((Session.start level canTrace clock).state.run room _).2.trace.recorded = _ ++
      (((Session.start level canTrace clock).state.run room _).1).record?.toList at hrecorded
    generalize (Session.start level canTrace clock).state.run room (parseProgram source).result = ended at *
    obtain ⟨ending, st⟩ := ended
    have hbegins : st.trace.recorded.head? = some (State.startRecord (parseProgram source).result) := by
      rw [hrecorded, ← hmore]
      rfl
    cases hends with
    | outOfFuel => exact .inl rfl
    | finished =>
      refine ⟨.inl rfl, hbegins, fun _ => ?_, nofun⟩
      show st.trace.recorded.getLast? = _
      rw [hrecorded]
      exact List.getLast?_concat
    | @failed t cause ht hcause =>
      refine ⟨.inr rfl, hbegins, nofun, fun _ => ⟨t, ht, cause, hcause, ?_, fun hrecordable => ?_, fun hoverflow => ?_⟩⟩
      · exact Session.reportFailure_start level canTrace clock t cause st
      · show st.trace.recorded.getLast? = _
        rw [hrecorded, RunEnd.record?, if_neg hrecordable]
        exact List.getLast?_concat
      · show st.trace.recorded = _
        rw [hrecorded, RunEnd.record?, if_pos hoverflow]
        exact List.append_nil _

/-- A name that is not bound is an error, and the trace says so. -/
theorem run_traces_its_end_undefined :
    (parseProgram "print a;").diagnostics = [] ∧
    ∃ s, Act.run ⟨9, callLimit⟩ "print a;" (Session.start 1 true fun _ => .zero) = .ok () s ∧ s.exitCode = 70 ∧
      s.state.trace.recorded = ["run: 1 statement(s)", "runtime error at line 1: Undefined variable 'a'."] ∧
      s.TracesEnd "print a;"
        ((State.initial 1 true fun _ => .zero).executed ⟨9, callLimit⟩ (parseProgram "print a;").result) := by
  have hclean : (parseProgram "print a;").diagnostics = [] := by cbv
  have hends := run_traces_its_end ⟨9, callLimit⟩ 1 true (fun _ => .zero) "print a;" hclean le_rfl
  have hrecords : recordsOf (Act.run ⟨9, callLimit⟩ "print a;" (Session.start 1 true fun _ => .zero)) =
      ["run: 1 statement(s)", "runtime error at line 1: Undefined variable 'a'."] := by cbv
  have hcode : (match Act.run ⟨9, callLimit⟩ "print a;" (Session.start 1 true fun _ => .zero) with
      | .ok _ s => some s.exitCode
      | .error _ _ => none) = some 70 := by cbv
  cases hrun : Act.run ⟨9, callLimit⟩ "print a;" (Session.start 1 true fun _ => .zero) with
  | error abort s =>
    rw [hrun] at hcode
    cases hcode
  | ok _ s =>
    rw [hrun] at hends hrecords hcode
    exact ⟨hclean, s, rfl, Option.some.inj hcode, hrecords, hends.2⟩

namespace EndlessCalls

def name : Token := ⟨.identifier, .str "f", .null, 1⟩

def paren : Token := ⟨.rightParen, .str ")", .null, 1⟩

/-- The function, and a call of it. -/
def program : List Node := [.function (.token name) [] [.callOf name paren], .callOf name paren]

def source : String := "fun f() \x7b f(); \x7d f();"

theorem parseProgram_source : parseProgram source = ⟨program, []⟩ := by
  cbv

/-- What the declaration makes of the name. -/
def closure : Closure := ⟨0, "f", [], [.callOf name paren], State.globals⟩

/-- The state in which the function is called for the first time. -/
def declared : State :=
  { (State.initial 1 true fun _ => .zero).note (State.startRecord program) with
    store := (State.initial 1 true fun _ => .zero).store.define State.globals "f" (.function closure)
    nextId := 1 }

theorem reaches_declared : declared.store.Reaches State.globals "f" closure where
  ordered s p h := by
    rw [declared, Store.parent?_define, State.initial, Store.parent?_define] at h
    exact Ledger.IsOf.root.ordered s p h
  declared := Nat.zero_lt_one
  here := rfl
  within := rfl

theorem execAll_declaration (fuel calls : Nat) :
    Eval.execAll ⟨fuel + 1, calls⟩ [.function (.token name) [] [.callOf name paren]]
    ((State.initial 1 true fun _ => .zero).note (State.startRecord program)) = .ok () declared := rfl

/-- However many calls may be in progress, the run fails with the error at the call, and no record is added to that of its start. -/
theorem exists_run (calls : Nat) : ∃ st', st'.trace = declared.trace ∧
    (State.initial 1 true fun _ => .zero).run ⟨3 * calls + 3, calls⟩ program =
      (.failed paren .stackOverflow, st') := by
  obtain ⟨st', hexec, hcalls, htrace⟩ :=
    Eval.exec_callOf_itself rfl rfl rfl calls declared reaches_declared Nat.one_lt_ofNat
  refine ⟨{ st' with calls := [] }, htrace, ?_⟩
  have hall : Eval.execAll ⟨3 * calls + 3, calls⟩ program
      ((State.initial 1 true fun _ => .zero).note (State.startRecord program)) = .error .exhausted st' :=
    Eval.execAll_eq_error_iff.mpr
      ⟨_, _, [], declared, rfl, Eval.execAll_eq_ok_iff.mp (execAll_declaration (3 * calls + 2) calls), hexec⟩
  obtain ⟨others, hothers⟩ := List.head?_eq_some_iff.mp hcalls
  have hstop : st'.stopRun .exhausted = (.failed paren .stackOverflow, { st' with calls := [] }) :=
    State.stopRun_eq_failed_iff.mpr ⟨.exhausted hothers, rfl⟩
  rw [State.run_of_traceable _ _ rfl]
  exact (congrArg State.endRun hall).trans hstop

end EndlessCalls

/-- The error of too many calls is reported, but the trace does not say how the run ended. -/
theorem overflow_not_recorded :
    (parseProgram EndlessCalls.source).diagnostics = [] ∧
    ∃ s, Act.run ⟨3 * callLimit + 3, callLimit⟩ EndlessCalls.source (Session.start 1 true fun _ => .zero) = .ok () s ∧
      s.exitCode = 70 ∧ s.errors = #["Stack overflow.\n[line 1]\n"] ∧
      s.state.trace.recorded = ["run: 2 statement(s)"] := by
  have hclean : (parseProgram EndlessCalls.source).diagnostics = [] := by rw [EndlessCalls.parseProgram_source]
  obtain ⟨st', htrace, hrun⟩ := EndlessCalls.exists_run callLimit
  generalize (⟨3 * callLimit + 3, callLimit⟩ : Room) = room at hrun ⊢
  refine ⟨hclean, Session.reportFailure EndlessCalls.paren .stackOverflow
    { Session.start 1 true fun _ => .zero with state := st' }, ?_, rfl, rfl, ?_⟩
  · rw [Act.run_clean _ hclean rfl, Act.execute_eq, EndlessCalls.parseProgram_source]
    show Act.settle (State.run room EndlessCalls.program (State.initial 1 true fun _ => .zero)).1
      { Session.start 1 true fun _ => .zero with
        state := (State.run room EndlessCalls.program (State.initial 1 true fun _ => .zero)).2 } = _
    rw [hrun]
    rfl
  · show st'.trace.recorded = _
    rw [htrace]
    rfl

end LoxLang
