import LoxLang.Proofs.Session.Timeline
/-!
# Calls over a session

No call is in progress between two runs of a session, whatever the runs before came to: they may have
ended, failed inside any number of calls, found no trace to write to, or been broken off because the
machine had no room for more. While a run goes on, the calls in progress are those around the point
it has reached. So an error of too many calls is always reported at the innermost call, and never at
one that an earlier run has left behind.
-/

namespace LoxLang

open Eval

/-! ### One run of a session -/

/-- The calls in progress while statements are carried out in a session. -/
structure Session.FollowsCalls (room : Room) (program : List Node) (s : Session) : Prop where
  starts : s.state.calls = []
  /-- The run that is watched is the run. -/
  same : (s.state.watch room program).1 = s.state.run room program
  /-- At every moment the calls in progress are those around it, each known by the token of its parenthesis. -/
  nested : ∀ m ∈ (s.state.watch room program).2, m.state.calls = m.inside ∧ ∀ n ∈ m.inside, ∃ t, n = .token t
  ends : EndsIdle (s.state.run room program)
  /-- The error of too many calls is at the innermost of the calls around the last moment. -/
  overflows : ∀ t, (s.state.run room program).1 = .failed t .stackOverflow →
    ∃ earlier m others, (s.state.watch room program).2 = earlier ++ [m] ∧ m.inside = .token t :: others ∧
      Act.execute room program s = .ok () (s.overflow m)
  /-- Wherever a run is broken off, the error has the line of the innermost of the calls around. -/
  breaksOff : ∀ m ∈ (s.state.watch room program).2, ∀ t others, m.inside = .token t :: others →
    s.overflow m = { s with
      state := { m.state with calls := [] }
      hadRuntimeError := true
      errors := s.errors.push ("Stack overflow.\n[line " ++ toString t.line ++ "]\n") }

/-- An error of too many calls is one of the last moment. -/
theorem Session.overflows {s : Session} (h : s.state.Idle) (room : Room) (source : String) {t : Token}
    (hfailed : (s.state.run room (parseProgram source).result).1 = .failed t .stackOverflow) :
    ∃ earlier m others, (s.state.watch room (parseProgram source).result).2 = earlier ++ [m] ∧
      m.inside = .token t :: others ∧ Act.execute room (parseProgram source).result s = .ok () (s.overflow m) := by
  rcases h.watch_cases room source with ⟨-, hrun⟩ | ⟨moments, hwatched⟩
  · rw [hrun] at hfailed
    cases hfailed
  · have hseen := hwatched.seen
    rw [Act.execute_eq, hwatched.watch]
    rw [hwatched.run] at hfailed ⊢
    generalize execAll room (parseProgram source).result
      (s.state.note (State.startRecord (parseProgram source).result)) = r at hseen hfailed
    cases r with
    | ok _ st' => cases hfailed
    | error stop stopped =>
      have hblames : stopped.stopRun stop = (.failed t .stackOverflow, (stopped.stopRun stop).2) := Prod.ext hfailed rfl
      cases (State.stopRun_eq_failed_iff.mp hblames).1 with
      | error =>
        -- No step raises this error of its own.
        rcases hseen.ends with hstep | hexhausted
        · cases hstep with
          | error _ hcause => exact absurd rfl hcause
        · cases hexhausted
      | @exhausted _ others hcalls =>
        have hentered : stopped.calls ≠ (s.state.note (State.startRecord (parseProgram source).result)).calls := by
          rw [(h.note _).calls, hcalls]
          exact List.cons_ne_nil _ _
        obtain ⟨earlier, ⟨inside, _⟩, hmoments, rfl, hinside⟩ := hseen.last_moment hentered
        refine ⟨earlier, _, others, hmoments, hinside.trans hcalls, ?_⟩
        dsimp only [Session.overflow, State.endRun, stateOf]
        rw [State.stopRun_exhausted hcalls]
        rfl

theorem State.Idle.followsCalls {s : Session} (h : s.state.Idle) (room : Room) (source : String) :
    s.FollowsCalls room (parseProgram source).result where
  starts := h.calls
  same := h.watch_run room source
  nested m hm := by
    have hnested := h.nested_watch room source m hm
    refine ⟨hnested.calls, fun n hn => ?_⟩
    obtain ⟨t, ht, -⟩ := hnested.isOf.calls n (hnested.calls ▸ hn)
    exact ⟨t, ht⟩
  ends := h.run room source
  overflows t hfailed := Session.overflows h room source hfailed
  breaksOff m hm t others hinside :=
    Session.overflow_inside ((h.nested_watch room source m hm).calls.trans hinside) s

/-- A computation that ends well leaves the calls in progress as it found them. -/
def Eval.Balanced {α : Type} (m : Eval α) : Prop := ∀ st a st', m st = .ok a st' → st'.calls = st.calls

theorem Eval.Steady.balanced {α : Type} {m : Eval α} (h : Steady m) : Balanced m := by
  intro st a st' hrun
  have hkept := h st
  rw [hrun] at hkept
  exact hkept.2

/-- In every session, whatever the runs before came to, no call is in progress when a run starts and when it is over.
While it goes on, the calls in progress are those around the moment, innermost first, so that an error of too many calls
is at the innermost one. Evaluating an expression, carrying out a statement and calling a value leave them as they were
whenever they end well. -/
theorem calls_in_progress (level : Nat) (canTrace : Bool) (clock : Nat → Number) {timeline : List Moment}
    {s : Session} (hs : (Session.start level canTrace clock).Leads timeline s) (room : Room) (source : String) :
    s.FollowsCalls room (parseProgram source).result ∧
    ∀ depth calls,
      (∀ scope e, (Eval.eval depth calls scope e).Balanced) ∧
      (∀ scope statement, (Eval.exec depth calls scope statement).Balanced) ∧
      ∀ callee arguments paren, (Eval.callValue (Eval.invoke depth calls) callee arguments paren).Balanced := by
  refine ⟨(hs.leadsIdle (idle_start level canTrace clock)).idle.followsCalls room source, fun depth calls => ?_⟩
  have hsteady := steadyWithin depth
  refine ⟨fun scope e => (hsteady.eval calls scope e).balanced, fun scope s => (hsteady.exec calls scope s).balanced, ?_⟩
  intro callee arguments paren
  exact (Steady.stepClosed.callValue (hsteady.invoke calls) callee arguments paren).balanced

/-- A function that calls itself endlessly fails inside of a call; then the session goes on and calls it again. -/
theorem calls_in_progress_endless : ∃ timeline s,
    Act.run ⟨3 * callLimit + 3, callLimit⟩ EndlessCalls.source (Session.start 1 true fun _ => .zero) = .ok () s ∧
    s.errors = #["Stack overflow.\n[line 1]\n"] ∧ (Session.start 1 true fun _ => .zero).Leads timeline s ∧
    s.FollowsCalls ⟨3 * callLimit + 3, callLimit⟩ (parseProgram "f();").result ∧
    ∀ depth calls,
      (∀ scope e, (Eval.eval depth calls scope e).Balanced) ∧
      (∀ scope statement, (Eval.exec depth calls scope statement).Balanced) ∧
      ∀ callee arguments paren, (Eval.callValue (Eval.invoke depth calls) callee arguments paren).Balanced := by
  have hclean : (parseProgram EndlessCalls.source).diagnostics = [] := by rw [EndlessCalls.parseProgram_source]
  obtain ⟨st', -, hrun⟩ := EndlessCalls.exists_run callLimit
  generalize (⟨3 * callLimit + 3, callLimit⟩ : Room) = room at hrun ⊢
  let s : Session := .reportFailure EndlessCalls.paren .stackOverflow
    { Session.start 1 true fun _ => .zero with state := st' }
  have hact : Act.run room EndlessCalls.source (Session.start 1 true fun _ => .zero) = .ok () s := by
    rw [Act.run_clean _ hclean rfl, Act.execute_eq, EndlessCalls.parseProgram_source]
    show Act.settle (State.run room EndlessCalls.program (State.initial 1 true fun _ => .zero)).1
      { Session.start 1 true fun _ => .zero with
        state := (State.run room EndlessCalls.program (State.initial 1 true fun _ => .zero)).2 } = _
    rw [hrun]
    rfl
  have hleads := Session.Leads.returned room (.run EndlessCalls.source) .refl hact
  exact ⟨_, s, hact, rfl, hleads, calls_in_progress 1 true (fun _ => .zero) hleads room "f();"⟩

end LoxLang
