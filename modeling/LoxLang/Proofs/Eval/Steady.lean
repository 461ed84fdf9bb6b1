import LoxLang.Proofs.Eval.Closed
/-!
# What evaluation leaves as it was

No computation changes how much is traced and whether it can be. One that ends well has also left
every call it entered: the calls in progress after it are those before it. Only a call touches them,
and it enters and leaves around its body. A computation that stops early leaves them as they were at
that moment, for the error to point at.
-/

namespace LoxLang

theorem Trace.write_canOpen (trace : Trace) (record : String) : (trace.write record).canOpen = trace.canOpen := by
  unfold Trace.write
  split <;> rfl

/-- The settings of a session are the same in both states. -/
structure State.SameSettings (st st' : State) : Prop where
  level : st'.level = st.level
  canOpen : st'.trace.canOpen = st.trace.canOpen

theorem State.SameSettings.trans {st mid st' : State} (h : st.SameSettings mid) (h' : mid.SameSettings st') :
    st.SameSettings st' :=
  ⟨h'.level.trans h.level, h'.canOpen.trans h.canOpen⟩

namespace Eval

variable {α β : Type}

/-- What is kept of the state when a computation from it ends. -/
def Kept (st : State) : EStateM.Result Stop State α → Prop
  | .ok _ st' => st.SameSettings st' ∧ st'.calls = st.calls
  | .error _ st' => st.SameSettings st'

/-- The settings are kept, and if the computation ends well, no call that it entered is left in progress. -/
def Steady (m : Eval α) : Prop := ∀ st, Kept st (m st)

namespace Steady

theorem bind {m : Eval α} {f : α → Eval β} (hm : Steady m) (hf : ∀ a, Steady (f a)) : Steady (m >>= f) := by
  intro st
  have hfirst := hm st
  simp only [Bind.bind, EStateM.bind]
  cases hmid : m st with
  | error stop mid =>
    rw [hmid] at hfirst
    exact hfirst
  | ok a mid =>
    rw [hmid] at hfirst
    obtain ⟨hsettings, hcalls⟩ := hfirst
    have hrest := hf a mid
    dsimp only
    cases hlast : f a mid with
    | error stop last =>
      rw [hlast] at hrest
      exact hsettings.trans hrest
    | ok b last =>
      rw [hlast] at hrest
      exact ⟨hsettings.trans hrest.1, hrest.2.trans hcalls⟩

theorem pure (a : α) : Steady (Pure.pure a : Eval α) := fun _ => ⟨⟨rfl, rfl⟩, rfl⟩

theorem throw (stop : Stop) : Steady (MonadExcept.throw stop : Eval α) := fun _ => ⟨rfl, rfl⟩

/-- A step that touches neither the settings nor the calls in progress. -/
theorem modifyGet {g : State → α × State} (h : ∀ st, st.SameSettings (g st).2 ∧ (g st).2.calls = st.calls) :
    Steady (MonadStateOf.modifyGet g : Eval α) := h

theorem traceAt (level : Nat) (record : Unit → Except Fault String) : Steady (Eval.traceAt level record) := by
  intro st
  show Kept st ((if level ≤ st.level then Eval.orFault (record ()) >>= fun record =>
    modify fun st => { st with trace := st.trace.write record } else Pure.pure ()) st)
  split
  · cases record () with
    | ok text => exact ⟨⟨rfl, st.trace.write_canOpen text⟩, rfl⟩
    | error f => exact ⟨rfl, rfl⟩
  · exact ⟨⟨rfl, rfl⟩, rfl⟩

/-- What is entered before a computation is left after it. -/
theorem call {m : Eval α} (hm : Steady m) (paren : Node) :
    Steady (do enterCall paren; let a ← m; leaveCall; Pure.pure a) := by
  intro st
  have hinside := hm { st with calls := paren :: st.calls }
  show Kept st ((m >>= fun a => leaveCall >>= fun _ => Pure.pure a) { st with calls := paren :: st.calls })
  simp only [Bind.bind, EStateM.bind]
  cases hmid : m { st with calls := paren :: st.calls } with
  | error stop mid =>
    rw [hmid] at hinside
    exact ⟨hinside.level, hinside.canOpen⟩
  | ok a mid =>
    rw [hmid] at hinside
    exact ⟨⟨hinside.1.level, hinside.1.canOpen⟩, congrArg List.tail hinside.2⟩

theorem stepClosed : StepClosed @Steady where
  pure := .pure
  throw _ := .throw _
  exhausted := .throw _
  bind := .bind
  call paren hm := hm.call paren
  traceAt record _ _ := .traceAt _ record
  write _ := .modifyGet fun _ => ⟨⟨rfl, rfl⟩, rfl⟩
  openScope _ := .modifyGet fun _ => ⟨⟨rfl, rfl⟩, rfl⟩
  define _ _ _ := .modifyGet fun _ => ⟨⟨rfl, rfl⟩, rfl⟩
  look hf st := hf st.store st
  closure _ _ _ _ := .modifyGet fun _ => ⟨⟨rfl, rfl⟩, rfl⟩
  readClock := .modifyGet fun _ => ⟨⟨rfl, rfl⟩, rfl⟩

end Steady

theorem steadyWithin (fuel : Nat) : StepClosed.Within @Steady fuel := Steady.stepClosed.within fuel

theorem steady_execAll (room : Room) (program : List Node) : Steady (execAll room program) :=
  Steady.stepClosed.execAll room program

end Eval

end LoxLang
