import LoxLang.Proofs.Eval.Watching
import LoxLang.Proofs.Session.Records
/-!
# The timeline of a session

A session is given texts to run, and the statements of texts, malformed ones too, to carry out. It
goes on whatever a run has come to: the run may have ended, failed inside any number of calls, found no
trace to write to, or been broken off because the machine had no room for more. The machine may run
out of room at any moment, not only where the bound on calls inside each other is met;
`Session.overflow` is what a session makes of it.

`Session.Leads` says what a session can become, and by which moments: those of its watched runs, and one
at rest behind each request. Between runs no call is in progress and the store is well scoped, so the
moments of the next run follow from the one at rest before it.
-/

namespace LoxLang

open Eval Watch

/-! ### Watched runs -/

/-- A run of statements, and the moments of it. -/
def State.watch (room : Room) (program : List Node) (st : State) : (RunEnd × State) × List Moment :=
  if st.isUntraceable then ((.untraceable, st), [])
  else
    match Watch.execAll room program [] ⟨st.note (State.startRecord program), []⟩ with
    | .ok _ w => ((.finished, w.state.note "run: finished"), w.moments)
    | .error stop w => (w.state.stopRun stop, w.moments)

/-- The names that a parsed text uses are texts. -/
abbrev Token.HasName (t : Token) : Prop := ∃ name, t.lexeme = .str name

/-- A state in which a run can start: no call is in progress, all values come from parsed programs, and all scopes at
hand are allocated. -/
structure State.Idle (st : State) : Prop where
  calls : st.calls = []
  named : st.IsOf Token.HasName
  settled : st.Settled

/-- A run has come to an end with no call in progress, or needs more depth than it is given. -/
inductive EndsIdle : RunEnd × State → Prop
  | finished {st : State} (h : st.Idle) : EndsIdle (.finished, st)
  | failed {st : State} (site : Token) (cause : Cause) (h : st.Idle) : EndsIdle (.failed site cause, st)
  | untraceable {st : State} (h : st.Idle) : EndsIdle (.untraceable, st)
  | outOfFuel (st : State) : EndsIdle (.outOfFuel, st)

/-- The statements are carried out from a state, and what is written down about it is true. -/
structure State.RunsWatched (room : Room) (program : List Node) (st : State) (moments : List Moment) : Prop where
  traceable : st.isUntraceable = false
  watch : st.watch room program = (st.run room program, moments)
  run : st.run room program = endRun (execAll room program (st.note (startRecord program)))
  seen : Watch.Seen Token.HasName id (fun _ _ => True) (st.note (startRecord program)) moments
    (execAll room program (st.note (startRecord program)))

/-! ### Stores -/

namespace State

theorem note_store (record : String) (st : State) : (st.note record).store = st.store := by
  unfold note
  split <;> rfl

theorem failAt_store (site : Option Token) (cause : Cause) (st : State) :
    (st.failAt site cause).2.store = st.store := by
  cases site with
  | none => rfl
  | some t =>
    unfold failAt
    dsimp only
    split
    · rfl
    · exact note_store _ _

theorem stopRun_store (stop : Stop) (st : State) : (st.stopRun stop).2.store = st.store := by
  cases stop with
  | error e => exact failAt_store e.site e.cause st
  | exhausted =>
    unfold stopRun
    cases hcalls : st.calls with
    | nil => rfl
    | cons paren rest => exact failAt_store paren.token? .stackOverflow st
  | fault f => rfl
  | outOfFuel => rfl

theorem endRun_store (r : EStateM.Result Stop State Unit) : (endRun r).2.store = (stateOf r).store := by
  cases r with
  | ok _ st => exact note_store _ st
  | error stop st => exact stopRun_store stop st

theorem Settled.of_store_eq {st st' : State} (h : st.Settled) (hstore : st'.store = st.store) : st'.Settled :=
  ⟨hstore ▸ h.wellScoped, hstore ▸ h.globals⟩

theorem Settled.performAll {st st' : State} {commands : List (Store.Command Value)} (h : st.Settled)
    (hvalid : Store.Command.AllValid st.store commands)
    (hstore : st'.store = Store.Command.performAll st.store commands) : st'.Settled where
  wellScoped := hstore ▸ Store.Command.wellScoped_performAll hvalid h.wellScoped
  globals := hstore ▸ h.globals.trans_le (Store.Command.next_le_performAll st.store commands)

/-- The moments of a run follow from the state before it. -/
theorem RunsWatched.follows {room : Room} {program : List Node} {st : State} {moments : List Moment}
    (h : st.RunsWatched room program moments) :
    FollowsFrom st.store moments ∧ (st.run room program).2.store = (lastState st moments).store := by
  have hfollows := h.seen.follows
  have hlast := congrArg State.store h.seen.last
  rw [note_store] at hfollows
  refine ⟨hfollows, ?_⟩
  rw [h.run, endRun_store, ← hlast, h.seen.follows.performs.2, hfollows.performs.2, note_store]

end State

/-! ### Runs between two states at rest -/

namespace State.Idle

variable {st : State}

theorem note (h : st.Idle) (record : String) : (st.note record).Idle :=
  ⟨(note_calls record st).trans h.calls, h.named.note record, h.settled.of_store_eq (note_store record st)⟩

/-- Either the trace cannot be opened and nothing is run, or the run goes as it is written down. -/
theorem watch_cases (h : st.Idle) (room : Room) (source : String) :
    (st.watch room (parseProgram source).result = ((.untraceable, st), []) ∧
      st.run room (parseProgram source).result = (.untraceable, st)) ∨
    ∃ moments, st.RunsWatched room (parseProgram source).result moments := by
  cases htrace : st.isUntraceable with
  | true => exact .inl ⟨if_pos htrace, if_pos htrace⟩
  | false =>
    have hnoted := h.note (startRecord (parseProgram source).result)
    obtain ⟨moments, hwatched, hseen⟩ := Watch.watches_execAll (fun _ ht => ht) room (parseProgram_named source) _ []
      ⟨hnoted.named, hnoted.settled.wellScoped⟩ hnoted.settled.globals
    have hrun := run_of_traceable room (parseProgram source).result htrace
    refine .inr ⟨moments, htrace, ?_, hrun, hseen⟩
    rw [hnoted.calls, List.nil_append] at hwatched
    rw [hrun, State.watch, if_neg (Bool.eq_false_iff.mp htrace), hwatched]
    change _ = (endRun (execAll room _ (st.note (startRecord (parseProgram source).result))), moments)
    cases execAll room (parseProgram source).result (st.note (startRecord (parseProgram source).result)) <;> rfl

/-- Watching a run changes nothing. -/
theorem watch_run (h : st.Idle) (room : Room) (source : String) :
    (st.watch room (parseProgram source).result).1 = st.run room (parseProgram source).result := by
  rcases h.watch_cases room source with ⟨hwatch, hrun⟩ | ⟨moments, hwatched⟩
  · rw [hwatch, hrun]
  · rw [hwatched.watch]

/-- Every moment of a run is nested. -/
theorem nested_watch (h : st.Idle) (room : Room) (source : String) :
    ∀ m ∈ (st.watch room (parseProgram source).result).2, m.IsNested Token.HasName := by
  rcases h.watch_cases room source with ⟨hwatch, -⟩ | ⟨moments, hwatched⟩
  · rw [hwatch]
    exact nofun
  · rw [hwatched.watch]
    exact hwatched.seen.nested

/-- The moments of a run follow from the state before it and lead to the one behind it. -/
theorem watch_follows (h : st.Idle) (room : Room) (source : String) :
    FollowsFrom st.store (st.watch room (parseProgram source).result).2 ∧
    (st.run room (parseProgram source).result).2.store =
      (lastState st (st.watch room (parseProgram source).result).2).store := by
  rcases h.watch_cases room source with ⟨hwatch, hrun⟩ | ⟨moments, hwatched⟩
  · rw [hwatch, hrun]
    exact ⟨trivial, rfl⟩
  · rw [hwatched.watch]
    exact hwatched.follows

/-- Whatever a run comes to, it leaves no call in progress. -/
theorem run (h : st.Idle) (room : Room) (source : String) : EndsIdle (st.run room (parseProgram source).result) := by
  obtain ⟨hfollows, hstore⟩ := h.watch_follows room source
  obtain ⟨hvalid, hlast⟩ := hfollows.performs
  have hsettled : (st.run room (parseProgram source).result).2.Settled :=
    h.settled.performAll hvalid (hstore.trans hlast)
  rcases h.watch_cases room source with ⟨-, hrun⟩ | ⟨moments, hwatched⟩
  · rw [hrun]
    exact .untraceable h
  · have hseen := hwatched.seen
    obtain ⟨hend, hnamed⟩ :=
      State.IsOf.run (fun _ ht => ht) room (parseProgram_named source) h.named hwatched.traceable
    rw [hwatched.run] at hend hnamed hsettled ⊢
    generalize execAll room (parseProgram source).result
      (st.note (startRecord (parseProgram source).result)) = r at hseen hend hnamed hsettled
    cases r with
    | ok _ st' =>
      exact .finished ⟨(note_calls _ st').trans (hseen.ends.1.trans (h.note _).calls), hnamed, hsettled⟩
    | error stop stopped =>
      dsimp only [endRun] at hend hnamed hsettled ⊢
      generalize hstop : stopped.stopRun stop = ended at hend hnamed hsettled
      obtain ⟨e, st'⟩ := ended
      cases hend with
      | finished => exact absurd (congrArg Prod.fst hstop) (stopRun_ne_finished stop stopped)
      | failed _ _ => exact .failed _ _ ⟨(stopRun_eq_failed_iff.mp hstop).2 ▸ rfl, hnamed, hsettled⟩
      | outOfFuel => exact .outOfFuel st'

end State.Idle

/-! ### Runs that are broken off -/

/-- Nothing more can be called: the error is at the innermost of the calls in progress, and all of them are left. -/
theorem State.stopRun_exhausted {st : State} {t : Token} {others : List Node} (h : st.calls = .token t :: others) :
    st.stopRun .exhausted = (.failed t .stackOverflow, { st with calls := [] }) :=
  stopRun_eq_failed_iff.mpr ⟨.exhausted h, rfl⟩

namespace Session

/-- What is left of a session if the machine has no room for more at a moment of a run. -/
def overflow (m : Moment) (s : Session) : Session :=
  match Act.settle (m.state.stopRun .exhausted).1 { s with state := (m.state.stopRun .exhausted).2 } with
  | .ok _ s' => s'
  | .error _ s' => s'

/-- Inside of a call, the failure of the run is reported on the line of the innermost one. -/
theorem overflow_inside {m : Moment} {t : Token} {others : List Node} (h : m.state.calls = .token t :: others)
    (s : Session) :
    s.overflow m = { s with
      state := { m.state with calls := [] }
      hadRuntimeError := true
      errors := s.errors.push ("Stack overflow.\n[line " ++ toString t.line ++ "]\n") } := by
  have htext : Cause.stackOverflow.message ++ "\n[line " ++ toString t.line ++ "]" ++ "\n" =
      "Stack overflow.\n[line " ++ toString t.line ++ "]\n" := by
    simp [Cause.message, Cause.pieces, String.append_assoc]
  unfold overflow
  rw [State.stopRun_exhausted h]
  show Session.reportFailure t .stackOverflow { s with state := { m.state with calls := [] } } = _
  rw [reportFailure, writeError, htext]

/-- Outside of all calls, there is nothing to report. -/
theorem overflow_outside {m : Moment} (h : m.state.calls = []) (s : Session) : s.overflow m = { s with state := m.state } := by
  unfold overflow
  simp only [State.stopRun, h]
  rfl

end Session

/-! ### Sessions -/

/-- What a session can be asked for. -/
inductive Request where
  | run (source : String)
  /-- The statements of a text are carried out, even if the text is malformed. -/
  | execute (source : String)
  | reset
  | close

def Request.act (room : Room) : Request → Act Unit
  | .run source => Act.run room source
  | .execute source => Act.execute room (parseProgram source).result
  | .reset => modify Session.reset
  | .close => modify Session.close

/-- The moments that a session passes through while it does what it is asked for; a text that is not run has none. -/
def Request.moments (room : Room) (s : Session) : Request → List Moment
  | .run source =>
    if (s.report (parseProgram source).diagnostics).hadError then []
    else (s.state.watch room (parseProgram source).result).2
  | .execute source => (s.state.watch room (parseProgram source).result).2
  | .reset | .close => []

/-- The moment at which a session rests. -/
def Session.resting (s : Session) : Moment := ⟨[], none, s.state⟩

/-- What a session can become by requests, and the moments that lead there. It goes on behind errors, behind a run that
cannot be traced, and behind one that is broken off at any of its moments. -/
inductive Session.Leads (start : Session) : List Moment → Session → Prop
  | refl : Leads start [start.resting] start
  | returned {timeline : List Moment} {s s' : Session} (room : Room) (request : Request) (h : Leads start timeline s)
      (hact : request.act room s = .ok () s') : Leads start (timeline ++ (request.moments room s ++ [s'.resting])) s'
  | untraceable {timeline : List Moment} {s s' : Session} (room : Room) (request : Request)
      (h : Leads start timeline s) (hact : request.act room s = .error .untraceable s') :
      Leads start (timeline ++ (request.moments room s ++ [s'.resting])) s'
  | overflow {timeline earlier later : List Moment} {m : Moment} {s : Session} (room : Room) (source : String)
      (h : Leads start timeline s)
      (hm : (s.state.watch room (parseProgram source).result).2 = earlier ++ m :: later) :
      Leads start (timeline ++ (earlier ++ [m, (s.overflow m).resting])) (s.overflow m)

/-- A session that answers, or gives up for want of a trace, is idle again, and its scopes are those that the moments
before have led to. -/
def Session.RestsIdle (store : Store Value) : EStateM.Result Abort Session Unit → Prop
  | .ok _ s | .error .untraceable s => s.state.Idle ∧ s.state.store = store
  | .error _ _ => True

theorem EndsIdle.settle {ended : RunEnd × State} (h : EndsIdle ended) (s : Session) :
    Session.RestsIdle ended.2.store (Act.settle ended.1 { s with state := ended.2 }) := by
  cases h with
  | finished h => exact ⟨h, rfl⟩
  | failed site cause h => exact ⟨h, rfl⟩
  | untraceable h => exact ⟨h, rfl⟩
  | outOfFuel st => trivial

namespace State.Idle

variable {st : State} {s : Session}

theorem execute (h : s.state.Idle) (room : Room) (source : String) :
    Session.RestsIdle (lastState s.state (s.state.watch room (parseProgram source).result).2).store
      (Act.execute room (parseProgram source).result s) := by
  rw [Act.execute_eq, ← (h.watch_follows room source).2]
  exact (h.run room source).settle s

/-- A request is answered by moments that follow from the session before it. -/
theorem act (h : s.state.Idle) (room : Room) (request : Request) :
    FollowsFrom s.state.store (request.moments room s) ∧
    Session.RestsIdle (lastState s.state (request.moments room s)).store (request.act room s) := by
  cases request with
  | run source =>
    have hreported : (s.report (parseProgram source).diagnostics).state = s.state := by rw [Session.report_eq]
    have hidle : (s.report (parseProgram source).diagnostics).state.Idle := hreported.symm ▸ h
    dsimp only [Request.moments, Request.act]
    rw [Act.run_eq]
    split
    · exact ⟨trivial, hidle, congrArg State.store hreported⟩
    · have hexecute := hidle.execute room source
      rw [hreported] at hexecute
      exact ⟨(h.watch_follows room source).1, hexecute⟩
  | execute source => exact ⟨(h.watch_follows room source).1, h.execute room source⟩
  | reset => exact ⟨trivial, h, rfl⟩
  | close => exact ⟨trivial, ⟨h.calls, ⟨h.named.values, h.named.calls⟩, h.settled.of_store_eq rfl⟩, rfl⟩

theorem overflow {m : Moment} (h : m.IsNested Token.HasName) (hm : m.state.Settled) :
    (s.overflow m).state.Idle ∧ (s.overflow m).state.store = m.state.store := by
  cases hcalls : m.state.calls with
  | nil =>
    rw [Session.overflow_outside hcalls]
    exact ⟨⟨hcalls, h.isOf, hm⟩, rfl⟩
  | cons paren others =>
    obtain ⟨t, rfl, -⟩ := h.isOf.calls paren (by simp [hcalls])
    rw [Session.overflow_inside hcalls]
    exact ⟨⟨rfl, ⟨h.isOf.values, nofun⟩, hm.of_store_eq rfl⟩, rfl⟩

end State.Idle

theorem idle_start (level : Nat) (canTrace : Bool) (clock : Nat → Number) :
    (Session.start level canTrace clock).state.Idle :=
  ⟨rfl, State.isOf_initial level canTrace clock, State.settled_initial level canTrace clock⟩

namespace Session

/-- What holds of the moments that lead to a session: they follow from the first state, and the last one is that of the
session at rest. -/
structure LeadsIdle (start : State) (timeline : List Moment) (s : Session) : Prop where
  follows : FollowsFrom start.store timeline
  last : ∃ earlier, timeline = earlier ++ [s.resting]
  idle : s.state.Idle

/-- Further moments follow from the session at rest. -/
theorem LeadsIdle.goOn {start : State} {timeline moments : List Moment} {s s' : Session}
    (h : LeadsIdle start timeline s) (hmoments : FollowsFrom s.state.store moments) (hidle : s'.state.Idle)
    (hstore : s'.state.store = (lastState s.state moments).store) :
    LeadsIdle start (timeline ++ (moments ++ [s'.resting])) s' where
  follows := by
    have hlast : lastState start timeline = s.state := by
      obtain ⟨earlier, hearlier⟩ := h.last
      rw [hearlier, lastState_append]
      rfl
    have hrests : FollowsFrom (lastState s.state moments).store [s'.resting] := ⟨trivial, hstore, trivial⟩
    exact followsFrom_append.mpr ⟨h.follows, hlast ▸ followsFrom_append.mpr ⟨hmoments, hrests⟩⟩
  last := ⟨timeline ++ moments, (List.append_assoc _ _ _).symm⟩
  idle := hidle

/-- No call is in progress between two requests, and what was written down up to there is true. -/
theorem Leads.leadsIdle {start s : Session} {timeline : List Moment} (h : start.Leads timeline s)
    (hstart : start.state.Idle) : LeadsIdle start.state timeline s := by
  induction h with
  | refl => exact ⟨⟨trivial, rfl, trivial⟩, ⟨[], rfl⟩, hstart⟩
  | returned room request _ hact ih =>
    obtain ⟨hfollows, hrests⟩ := ih.idle.act room request
    rw [hact] at hrests
    exact ih.goOn hfollows hrests.1 hrests.2
  | untraceable room request _ hact ih =>
    obtain ⟨hfollows, hrests⟩ := ih.idle.act room request
    rw [hact] at hrests
    exact ih.goOn hfollows hrests.1 hrests.2
  | @overflow _ earlier later m s room source _ hm ih =>
    obtain ⟨hfollows, -⟩ := ih.idle.watch_follows room source
    have hnested := ih.idle.nested_watch room source m (by simp [hm])
    have hupto : FollowsFrom s.state.store (earlier ++ [m]) := by
      rw [hm, List.append_cons] at hfollows
      exact (followsFrom_append.mp hfollows).1
    obtain ⟨hvalid, hlast⟩ := hupto.performs
    have hstate : lastState s.state (earlier ++ [m]) = m.state := lastState_append _ _ _
    rw [hstate] at hlast
    obtain ⟨hidle, hstore⟩ := State.Idle.overflow hnested (ih.idle.settled.performAll hvalid hlast)
    have hgoesOn := ih.goOn hupto hidle (hstore.trans (congrArg State.store hstate).symm)
    rwa [List.append_assoc] at hgoesOn

end Session

end LoxLang
