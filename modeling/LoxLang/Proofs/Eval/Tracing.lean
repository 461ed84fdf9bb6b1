import LoxLang.Proofs.Eval.Closed
import Mathlib.Order.Nat
/-!
# Tracing changes nothing else

Two runs of the same tree, one at a low level of tracing and one at a high level. Their states differ
in nothing but the level and the trace, and the trace of the first is a part of that of the second:
records are left out, but none is changed or moved. At level 0 there is no trace at all, and from
level 3 on nothing is left out.

Working out a record can meet a fault of the tree, and then only the run that asks for the record
meets it. So what is shown here is shown up to a fault of the second run. Trees that a parser built
have no faults.
-/

namespace LoxLang

variable {low high : Nat}

/-! ### Traces -/

namespace Trace

/-- The records in the file, none if it was never written. -/
def recorded (trace : Trace) : List String := (trace.records.getD #[]).toList

/-- The trace at a low level as a part of one at a higher level. -/
structure PartOf (low : Nat) (trace trace' : Trace) : Prop where
  records : trace.recorded.Sublist trace'.recorded
  silent : low = 0 → trace.records = none
  same : 3 ≤ low → trace.records = trace'.records

/-- As `PartOf`, while both traces are being written. -/
structure GoesWith (low high : Nat) (trace trace' : Trace) : Prop extends PartOf low trace trace' where
  opened : 1 ≤ low → trace.isOpen = true
  opened' : 1 ≤ high → trace'.isOpen = true

variable {trace trace' : Trace}

theorem write_of_open (h : trace.isOpen = true) (record : String) :
    trace.write record = { trace with records := some ((trace.records.getD #[]).push record) } := by
  rw [write, if_pos h]

theorem recorded_write (h : trace.isOpen = true) (record : String) :
    (trace.write record).recorded = trace.recorded ++ [record] := by
  rw [write_of_open h]
  exact Array.toList_push

theorem isOpen_write (record : String) : (trace.write record).isOpen = true := by
  unfold write
  split
  next h => exact h
  next => rfl

namespace GoesWith

/-- A record that both levels ask for. -/
theorem write (h : GoesWith low high trace trace') (hlow : 1 ≤ low) (hle : low ≤ high) (record : String) :
    GoesWith low high (trace.write record) (trace'.write record) where
  records := by
    rw [recorded_write (h.opened hlow), recorded_write (h.opened' (hlow.trans hle))]
    exact h.records.append (List.Sublist.refl _)
  silent hzero := absurd hzero (Nat.ne_of_gt hlow)
  same hall := by
    rw [write_of_open (h.opened hlow), write_of_open (h.opened' (hlow.trans hle)), h.same hall]
  opened _ := isOpen_write record
  opened' _ := isOpen_write record

/-- A record that only the higher level asks for. -/
theorem write_high (h : GoesWith low high trace trace') (hlow : low < 3) (hhigh : 1 ≤ high) (record : String) :
    GoesWith low high trace (trace'.write record) where
  records := by
    rw [recorded_write (h.opened' hhigh)]
    exact h.records.trans (List.sublist_append_left _ _)
  silent := h.silent
  same hall := absurd hall (Nat.not_le.mpr hlow)
  opened := h.opened
  opened' _ := isOpen_write record

end GoesWith

end Trace

/-! ### States -/

/-- The states are the same but for what is traced. -/
def State.GoesWith (low high : Nat) (st st' : State) : Prop :=
  ∃ trace, st = { st' with level := low, trace := trace } ∧ st'.level = high ∧
    Trace.GoesWith low high trace st'.trace

namespace Eval

variable {α β : Type}

/-- Two ends of a computation are alike: the same result, or the same stop. Nothing is said if the second one is a
fault. -/
inductive EndsAlike (low high : Nat) : EStateM.Result Stop State α → EStateM.Result Stop State α → Prop
  | ok (a : α) {st st' : State} (h : st.GoesWith low high st') : EndsAlike low high (.ok a st) (.ok a st')
  | error (stop : Stop) {st st' : State} (h : st.GoesWith low high st') :
      EndsAlike low high (.error stop st) (.error stop st')
  | fault (r : EStateM.Result Stop State α) (f : Fault) (st' : State) : EndsAlike low high r (.error (.fault f) st')

/-- The computation does not depend on what is traced. -/
def Unaffected (low high : Nat) (m : Eval α) : Prop :=
  ∀ st st' : State, st.GoesWith low high st' → EndsAlike low high (m st) (m st')

namespace Unaffected

/-! ### Single steps -/

theorem bind {m : Eval α} {f : α → Eval β} (hm : Unaffected low high m) (hf : ∀ a, Unaffected low high (f a)) :
    Unaffected low high (m >>= f) := by
  intro st st' h
  have hfirst := hm st st' h
  simp only [Bind.bind, EStateM.bind]
  generalize m st = r at hfirst
  generalize m st' = r' at hfirst
  cases hfirst with
  | ok a h => exact hf a _ _ h
  | error stop h => exact .error stop h
  | fault r f st' => exact .fault _ f st'

theorem pure (a : α) : Unaffected low high (Pure.pure a : Eval α) := fun _ _ h => .ok a h

theorem throw (stop : Stop) : Unaffected low high (MonadExcept.throw stop : Eval α) := fun _ _ h => .error stop h

/-- A step that neither looks at the level nor at the trace. -/
theorem modifyGet {g : State → α × State} (hg : ∀ st trace, g { st with level := low, trace := trace } =
      ((g st).1, { (g st).2 with level := low, trace := trace }) ∧
      (g st).2.level = st.level ∧ (g st).2.trace = st.trace) :
    Unaffected low high (MonadStateOf.modifyGet g : Eval α) := by
  rintro _ st' ⟨trace, rfl, hlevel, htrace⟩
  obtain ⟨hcommutes, hsame, hkept⟩ := hg st' trace
  show EndsAlike low high (.ok (g _).1 (g _).2) (.ok (g st').1 (g st').2)
  rw [hcommutes]
  exact .ok _ ⟨trace, rfl, hsame.trans hlevel, hkept ▸ htrace⟩

/-- A computation that looks at the state, but neither at its level nor at its trace. -/
theorem look {f : Store Value → Eval β} (hf : ∀ store, Unaffected low high (f store)) :
    Unaffected low high (get >>= fun st => f st.store) := by
  rintro _ st' ⟨trace, rfl, hrest⟩
  exact hf st'.store _ st' ⟨trace, rfl, hrest⟩

/-- Records are asked for at levels 1 to 3. -/
theorem traceAt (hle : low ≤ high) {level : Nat} (hleast : 1 ≤ level) (hmost : level ≤ 3)
    (record : Unit → Except Fault String) : Unaffected low high (Eval.traceAt level record) := by
  rintro _ st' ⟨trace, rfl, hlevel, htrace⟩
  have hstep (st : State) : Eval.traceAt level record st =
      (if level ≤ st.level then Eval.orFault (record ()) >>= fun record =>
        modify fun st => { st with trace := st.trace.write record } else Pure.pure ()) st := rfl
  rw [hstep, hstep, hlevel]
  dsimp only
  cases hrecord : record () with
  | error f =>
    by_cases hhigh : level ≤ high
    · rw [if_pos hhigh]
      exact .fault _ f st'
    · rw [if_neg hhigh, if_neg fun hlow => hhigh (hlow.trans hle)]
      exact .ok () ⟨trace, rfl, hlevel, htrace⟩
  | ok text =>
    by_cases hlow : level ≤ low
    · rw [if_pos hlow, if_pos (hlow.trans hle)]
      exact .ok () ⟨trace.write text, rfl, hlevel, htrace.write (hleast.trans hlow) hle text⟩
    rw [if_neg hlow]
    by_cases hhigh : level ≤ high
    · rw [if_pos hhigh]
      have hthree : low < 3 := (Nat.lt_of_not_le hlow).trans_le hmost
      exact .ok () ⟨trace, rfl, hlevel, htrace.write_high hthree (hleast.trans hhigh) text⟩
    · rw [if_neg hhigh]
      exact .ok () ⟨trace, rfl, hlevel, htrace⟩

/-! ### Evaluation -/

theorem stepClosed (hle : low ≤ high) : StepClosed fun _ => Unaffected low high where
  pure := .pure
  throw _ := .throw _
  exhausted := .throw _
  bind := .bind
  call _ hm := .bind (.modifyGet fun _ _ => ⟨rfl, rfl, rfl⟩) fun _ => hm.bind fun a =>
    .bind (.modifyGet fun _ _ => ⟨rfl, rfl, rfl⟩) fun _ => .pure a
  traceAt record hleast hmost := .traceAt hle hleast hmost record
  write _ := .modifyGet fun _ _ => ⟨rfl, rfl, rfl⟩
  openScope _ := .modifyGet fun _ _ => ⟨rfl, rfl, rfl⟩
  define _ _ _ := .modifyGet fun _ _ => ⟨rfl, rfl, rfl⟩
  look := .look
  closure _ _ _ _ := .modifyGet fun _ _ => ⟨rfl, rfl, rfl⟩
  readClock := .modifyGet fun _ _ => ⟨rfl, rfl, rfl⟩

end Unaffected

theorem unaffected_execAll (hle : low ≤ high) (room : Room) (program : List Node) :
    Unaffected low high (execAll room program) :=
  (Unaffected.stepClosed hle).execAll room program

end Eval

end LoxLang
