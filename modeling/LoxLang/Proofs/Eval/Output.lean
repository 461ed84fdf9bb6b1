import LoxLang.Proofs.Eval.Closed
/-!
# What was printed before

Computations only add to what was printed. Texts that stand in front of it are not looked at: with
them a computation ends as it ends without them, and they still stand in front of what it printed.
-/

namespace LoxLang

/-- The state with texts in front of all that was printed. -/
def State.printedAfter (before : Array String) (st : State) : State := { st with output := before ++ st.output }

/-- The end of a computation with its state changed. -/
def onState {ε σ α : Type} (f : σ → σ) : EStateM.Result ε σ α → EStateM.Result ε σ α
  | .ok a s => .ok a (f s)
  | .error e s => .error e (f s)

namespace Eval

variable {α β : Type}

/-- The computation does not look at what was printed before, and keeps it. -/
def Appends (m : Eval α) : Prop :=
  ∀ before st, m (st.printedAfter before) = onState (State.printedAfter before) (m st)

namespace Appends

theorem bind {m : Eval α} {f : α → Eval β} (hm : Appends m) (hf : ∀ a, Appends (f a)) : Appends (m >>= f) := by
  intro before st
  simp only [Bind.bind, EStateM.bind]
  rw [hm before st]
  cases m st with
  | ok a mid => exact hf a before mid
  | error stop mid => rfl

theorem pure (a : α) : Appends (Pure.pure a : Eval α) := fun _ _ => rfl

theorem throw (stop : Stop) : Appends (MonadExcept.throw stop : Eval α) := fun _ _ => rfl

theorem traceAt (level : Nat) (record : Unit → Except Fault String) : Appends (Eval.traceAt level record) := by
  intro before st
  have hstep (st : State) : Eval.traceAt level record st =
      (if level ≤ st.level then Eval.orFault (record ()) >>= fun record =>
        modify fun st => { st with trace := st.trace.write record } else Pure.pure ()) st := rfl
  have hlevel : (st.printedAfter before).level = st.level := rfl
  rw [hstep, hstep, hlevel]
  split
  · cases record () <;> rfl
  · rfl

theorem write (text : String) : Appends (Eval.write text) := by
  intro before st
  have hpush : (before ++ st.output).push text = before ++ st.output.push text := Array.push_append
  exact congrArg (fun output => EStateM.Result.ok () { st with output := output }) hpush

theorem stepClosed : StepClosed @Appends where
  pure := .pure
  throw _ := .throw _
  exhausted := .throw _
  bind := .bind
  call _ hm := .bind (fun _ _ => rfl) fun _ => hm.bind fun _ => .bind (fun _ _ => rfl) fun _ => .pure _
  traceAt record _ _ := .traceAt _ record
  write := .write
  openScope _ _ _ := rfl
  define _ _ _ _ _ := rfl
  look hf before st := hf st.store before st
  closure _ _ _ _ _ _ := rfl
  readClock _ _ := rfl

end Appends

end Eval

/-! ### Runs -/

namespace State

theorem printedAfter_note (before : Array String) (st : State) (record : String) :
    (st.printedAfter before).note record = (st.note record).printedAfter before := by
  unfold note
  split <;> split <;> first | rfl | contradiction

theorem printedAfter_failAt (before : Array String) (st : State) (site : Option Token) (cause : Cause) :
    (st.printedAfter before).failAt site cause =
      ((st.failAt site cause).1, (st.failAt site cause).2.printedAfter before) := by
  have hnote (record : String) : State.note record { st.printedAfter before with calls := [] } =
      (State.note record { st with calls := [] }).printedAfter before := printedAfter_note before { st with calls := [] } record
  cases site with
  | none => rfl
  | some t =>
    unfold failAt
    dsimp only
    split
    · rfl
    · rw [hnote]

theorem printedAfter_stopRun (before : Array String) (st : State) (stop : Stop) :
    (st.printedAfter before).stopRun stop = ((st.stopRun stop).1, (st.stopRun stop).2.printedAfter before) := by
  cases stop with
  | error e => exact printedAfter_failAt before st e.site e.cause
  | exhausted =>
    have hcalls : (st.printedAfter before).calls = st.calls := rfl
    unfold stopRun
    rw [hcalls]
    cases st.calls with
    | nil => rfl
    | cons paren _ => exact printedAfter_failAt before st paren.token? .stackOverflow
  | fault f => rfl
  | outOfFuel => rfl

theorem printedAfter_run (before : Array String) (room : Room) (program : List Node) (st : State) :
    (st.printedAfter before).run room program =
      ((st.run room program).1, (st.run room program).2.printedAfter before) := by
  unfold run
  have htrace : (st.printedAfter before).isUntraceable = st.isUntraceable := rfl
  rw [htrace]
  split
  · rfl
  · dsimp only
    rw [printedAfter_note, Eval.Appends.stepClosed.execAll room program before]
    cases Eval.execAll room program (st.note ("run: " ++ toString program.length ++ " statement(s)")) with
    | ok _ st' =>
      simp only [onState]
      rw [printedAfter_note]
    | error stop st' => exact printedAfter_stopRun before st' stop

end State

end LoxLang
