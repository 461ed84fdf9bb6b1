import LoxLang.Proofs.Eval.Steady
import LoxLang.Proofs.Grammar.Relabel
import LoxLang.Proofs.Session.Outcome
import LoxLang.Proofs.Token.Join
/-!
# Texts run one by one and as a whole

A session that is given several texts one after the other ends as a new session that is given all of
them at once, with a line break between each and the next. The whole text has the statements of the
texts in a row, on other lines. What passes from one text to the next is the state alone, and that is
what passes from one statement to the next, too.

If the last text fails, the whole text fails with the same error at the same token, moved to its place
in the whole: by the number of lines above the last text if the token is one of that text, and by fewer
if it is one that a function from an earlier text has brought along.

Nothing is said about the traces, since each run writes to the trace how many statements it has.
-/

namespace LoxLang

open Eval Grammar

variable {R : Token → Token → Prop}

/-! ### Runs of like programs -/

theorem Eval.runsLike_execAll (hR : Token.Relabels R) (room : Room) {p p' : List Node}
    (h : List.Forall₂ (Node.Like R) p p') :
    RunsLike True R R (fun _ _ => True) (execAll room p) (execAll room p') := by
  have hwithin : LikeWithin True R R room.depth room.depth := likeWithin hR hR (fun _ _ h => h) le_rfl fun _ => rfl
  apply RunsLike.forM h
  intro n n' hn
  exact (hwithin.exec room.calls State.globals hn).bind fun _ _ _ => .pure trivial

theorem Eval.execAll_append_of_ok {room : Room} {p : List Node} (q : List Node) {st st' : State}
    (h : execAll room p st = .ok () st') : execAll room (p ++ q) st = execAll room q st' := by
  have happend : execAll room (p ++ q) = execAll room p >>= fun _ => execAll room q := List.forM_append
  rw [happend]
  simp only [Bind.bind, EStateM.bind, h]

/-- Ends of runs that are the same but for the token of the error. -/
inductive RunEnd.Like (R : Token → Token → Prop) : RunEnd → RunEnd → Prop
  | finished : Like R .finished .finished
  | failed {t t' : Token} (h : R t t') (cause : Cause) : Like R (.failed t cause) (.failed t' cause)
  | fault (f : Fault) : Like R (.fault f) (.fault f)
  | exhausted : Like R .exhausted .exhausted

/-- What two runs come to, if they go alike: like ends and like states, no end at all, or not even a start. -/
inductive RunsEndAlike (R : Token → Token → Prop) : RunEnd × State → RunEnd × State → Prop
  | ended {e e' : RunEnd} {st st' : State} (h : e.Like R e') (hst : st.Like R R st') : RunsEndAlike R (e, st) (e', st')
  | outOfFuel (st st' : State) : RunsEndAlike R (.outOfFuel, st) (.outOfFuel, st')
  | untraceable (st st' : State) : RunsEndAlike R (.untraceable, st) (.untraceable, st')

namespace State

variable {st st' : State}

theorem SameSettings.isUntraceable (h : st.SameSettings st') : st'.isUntraceable = st.isUntraceable := by
  unfold State.isUntraceable
  rw [h.level, h.canOpen]

theorem sameSettings_note (record : String) (st : State) : st.SameSettings (st.note record) := by
  unfold note
  split
  · exact ⟨rfl, st.trace.write_canOpen record⟩
  · exact ⟨rfl, rfl⟩

namespace Like

/-- Where something is noted, traces are of no account. -/
theorem note_left (h : st.Like R R st') (record : String) : (st.note record).Like R R st' := by
  unfold State.note
  split
  next hloud => exact { h with quiet := fun hquiet => absurd hloud (hquiet ▸ by decide) }
  next => exact h

theorem note_right (h : st.Like R R st') (record : String) : st.Like R R (st'.note record) := by
  unfold State.note
  split
  next hloud => exact { h with quiet := fun hquiet => absurd hloud (h.level ▸ hquiet ▸ by decide) }
  next => exact h

theorem note (h : st.Like R R st') (record record' : String) : (st.note record).Like R R (st'.note record') :=
  (h.note_left record).note_right record'

theorem failAt (h : st.Like R R st') {site site' : Option Token} (hsite : Option.Rel R site site') (cause : Cause) :
    RunsEndAlike R (st.failAt site cause) (st'.failAt site' cause) := by
  have hcleared : State.Like R R { st with calls := [] } { st' with calls := [] } := { h with calls := .nil }
  cases hsite with
  | none => exact .ended (.fault _) hcleared
  | some hsite =>
    unfold State.failAt
    dsimp only
    split
    · exact .ended (.failed hsite cause) hcleared
    · exact .ended (.failed hsite cause) (hcleared.note _ _)

theorem stopRun (h : st.Like R R st') {stop stop' : Stop} (hstop : stop.Like R stop') :
    RunsEndAlike R (st.stopRun stop) (st'.stopRun stop') := by
  cases hstop with
  | error hsite cause => exact h.failAt hsite cause
  | exhausted =>
    have hcalls := h.calls
    unfold State.stopRun
    generalize st.calls = calls at hcalls
    generalize st'.calls = calls' at hcalls
    cases hcalls with
    | nil => exact .ended .exhausted h
    | cons hparen _ => exact h.failAt hparen .stackOverflow
  | fault f => exact .ended (.fault f) h

end Like

theorem like_initial (level : Nat) (canTrace : Bool) (clock : Nat → Number) :
    (initial level canTrace clock).Like R R (initial level canTrace clock) where
  store := by
    have hroot : Store.Like (Value.Like R) Store.root Store.root := by
      refine ⟨rfl, fun s => ?_⟩
      cases s with
      | zero => exact .some ⟨rfl, .nil⟩
      | succ s => exact .none
    exact hroot.define globals "clock" .clock
  nextId := rfl
  output := rfl
  level := rfl
  quiet _ := rfl
  calls := .nil
  clock := rfl
  readings := rfl

/-- What a run makes of the end of its statements. -/
def endRun : EStateM.Result Stop State Unit → RunEnd × State
  | .ok _ st => (.finished, st.note "run: finished")
  | .error stop st => st.stopRun stop

theorem run_of_traceable (room : Room) (p : List Node) (h : st.isUntraceable = false) :
    st.run room p = endRun (execAll room p (st.note ("run: " ++ toString p.length ++ " statement(s)"))) := by
  unfold run
  rw [h]
  rfl

theorem runsEndAlike_endRun {r r' : EStateM.Result Stop State Unit} (h : EndsLike True R R (fun _ _ => True) r r') :
    RunsEndAlike R (endRun r) (endRun r') := by
  cases h with
  | ok hst _ => exact .ended .finished (hst.note _ _)
  | stopped hst hstop => exact hst.stopRun hstop
  | outOfFuel st r' htogether =>
    obtain ⟨st', rfl⟩ := htogether trivial
    exact .outOfFuel st st'

end State

/-! ### The run of one text -/

/-- A text that is run to its end leaves nothing behind but a state. -/
structure Act.Finishes (room : Room) (p : List Node) (s s' : Session) : Prop where
  traceable : s.state.isUntraceable = false
  same : s' = { s with state := s'.state }
  ran : ∃ st, execAll room p (s.state.note ("run: " ++ toString p.length ++ " statement(s)")) = .ok () st ∧
    s'.state = st.note "run: finished"

theorem Act.run_clean (room : Room) {text : String} {s : Session} (hclean : (parseProgram text).diagnostics = [])
    (hs : s.hadError = false) : Act.run room text s = Act.execute room (parseProgram text).result s := by
  rw [Act.run_eq, hclean, Session.report_nil, hs]
  rfl

theorem State.failAt_ne_finished (site : Option Token) (cause : Cause) (st : State) :
    (st.failAt site cause).1 ≠ .finished := by
  cases site with
  | none => exact nofun
  | some t =>
    unfold State.failAt
    dsimp only
    split <;> exact nofun

theorem State.stopRun_ne_finished (stop : Stop) (st : State) : (st.stopRun stop).1 ≠ .finished := by
  cases stop with
  | error e => exact failAt_ne_finished e.site e.cause st
  | exhausted =>
    unfold State.stopRun
    cases st.calls with
    | nil => exact nofun
    | cons paren _ => exact failAt_ne_finished paren.token? .stackOverflow st
  | fault f => exact nofun
  | outOfFuel => exact nofun

/-- A run that does not abort has come to its end, or its failure is remembered. -/
theorem Act.finishes_of_execute {room : Room} {p : List Node} {s s' : Session} (h : Act.execute room p s = .ok () s')
    (hok : s'.hadRuntimeError = false) : Act.Finishes room p s s' := by
  rw [Act.execute_eq] at h
  cases htrace : s.state.isUntraceable with
  | true =>
    rw [State.run, htrace] at h
    cases h
  | false =>
    rw [State.run_of_traceable room p htrace] at h
    cases hrun : execAll room p (s.state.note ("run: " ++ toString p.length ++ " statement(s)")) with
    | ok _ st =>
      rw [hrun] at h
      cases h
      exact ⟨htrace, rfl, st, hrun, rfl⟩
    | error stop st =>
      have hend := State.stopRun_ne_finished stop st
      rw [hrun, State.endRun] at h
      generalize st.stopRun stop = ended at h hend
      obtain ⟨e, st'⟩ := ended
      cases e with
      | finished => exact absurd rfl hend
      | failed t cause =>
        cases h
        cases hok
      | _ => cases h

/-- No run takes a failure back. -/
theorem Act.hadRuntimeError_run {room : Room} {text : String} {s s' : Session} (h : Act.run room text s = .ok () s')
    (hfailed : s.hadRuntimeError = true) : s'.hadRuntimeError = true := by
  rw [Act.run_eq] at h
  have hreport : (s.report (parseProgram text).diagnostics).hadRuntimeError = true := by
    rw [Session.report_eq]
    exact hfailed
  generalize s.report (parseProgram text).diagnostics = mid at h hreport
  split at h
  · cases h
    exact hreport
  · rw [Act.execute_eq] at h
    generalize mid.state.run room (parseProgram text).result = ended at h
    obtain ⟨e, st'⟩ := ended
    cases e with
    | finished =>
      cases h
      exact hreport
    | failed t cause =>
      cases h
      rfl
    | _ => cases h

/-! ### The runs of many texts -/

theorem Act.forM_run_cons {room : Room} {text : String} {rest : List String} {s s' : Session}
    (h : (text :: rest).forM (Act.run room) s = .ok () s') :
    ∃ mid, Act.run room text s = .ok () mid ∧ rest.forM (Act.run room) mid = .ok () s' := by
  have hbind : (Act.run room text >>= fun _ => rest.forM (Act.run room)) s = .ok () s' := h
  simp only [Bind.bind, EStateM.bind] at hbind
  cases hrun : Act.run room text s with
  | ok _ mid =>
    rw [hrun] at hbind
    exact ⟨mid, rfl, hbind⟩
  | error abort mid =>
    rw [hrun] at hbind
    cases hbind

theorem Act.hadRuntimeError_forM {room : Room} {texts : List String} {s s' : Session}
    (h : texts.forM (Act.run room) s = .ok () s') (hfailed : s.hadRuntimeError = true) : s'.hadRuntimeError = true := by
  induction texts generalizing s with
  | nil =>
    cases h
    exact hfailed
  | cons text rest ih =>
    obtain ⟨mid, hmid, hrest⟩ := Act.forM_run_cons h
    exact ih hrest (Act.hadRuntimeError_run hmid hfailed)

theorem Act.Finishes.sameSettings {room : Room} {p : List Node} {s s' : Session} (h : Act.Finishes room p s s') :
    s.state.SameSettings s'.state := by
  obtain ⟨st, hrun, hstate⟩ := h.ran
  have hsteady := steady_execAll room p (s.state.note ("run: " ++ toString p.length ++ " statement(s)"))
  rw [hrun] at hsteady
  rw [hstate]
  exact ((s.state.sameSettings_note _).trans hsteady.1).trans (st.sameSettings_note _)

/-- Like statements can be carried out from a like state. -/
theorem Act.Finishes.execAll_like (hR : Token.Relabels R) {room : Room} {p p' : List Node} {s s' : Session}
    (h : Act.Finishes room p s s') (hp : List.Forall₂ (Node.Like R) p p') {st : State} (hst : s.state.Like R R st) :
    ∃ st', execAll room p' st = .ok () st' ∧ s'.state.Like R R st' := by
  obtain ⟨ended, hrun, hstate⟩ := h.ran
  have hlike := runsLike_execAll hR room hp _ st (hst.note_left ("run: " ++ toString p.length ++ " statement(s)"))
  rw [hrun] at hlike
  generalize execAll room p' st = r at hlike
  cases hlike with
  | ok hended _ => exact ⟨_, rfl, hstate ▸ hended.note_left _⟩

/-- The statements of all texts, in a row. -/
def statementsOf (texts : List String) : List Node := texts.flatMap fun text => (parseProgram text).result

/-- What is left behind by texts that are run one by one to their ends. -/
structure Act.AllFinish (R : Token → Token → Prop) (room : Room) (texts : List String) (s s' : Session) : Prop where
  same : s' = { s with state := s'.state }
  settings : s.state.SameSettings s'.state
  /-- Their statements in a row do the same, whatever their lines. -/
  ran : ∀ p' st, List.Forall₂ (Node.Like R) (statementsOf texts) p' → s.state.Like R R st →
    ∃ st', execAll room p' st = .ok () st' ∧ s'.state.Like R R st'

theorem Act.allFinish (hR : Token.Relabels R) {room : Room} {texts : List String} {s s' : Session}
    (hclean : ∀ text ∈ texts, (parseProgram text).diagnostics = []) (hs : s.hadError = false)
    (hruns : texts.forM (Act.run room) s = .ok () s') (hok : s'.hadRuntimeError = false) :
    Act.AllFinish R room texts s s' := by
  induction texts generalizing s with
  | nil =>
    cases hruns
    refine ⟨rfl, ⟨rfl, rfl⟩, fun p' st hp hst => ?_⟩
    cases hp
    exact ⟨st, rfl, hst⟩
  | cons text rest ih =>
    obtain ⟨hfirst, hrest⟩ := List.forall_mem_cons.mp hclean
    obtain ⟨mid, hmid, hruns⟩ := Act.forM_run_cons hruns
    have hmidOk : mid.hadRuntimeError = false := by
      by_contra hfailed
      rw [Act.hadRuntimeError_forM hruns (Bool.not_eq_false _ ▸ hfailed)] at hok
      cases hok
    rw [Act.run_clean room hfirst hs] at hmid
    have hfinishes := Act.finishes_of_execute hmid hmidOk
    have hmidClean : mid.hadError = false := by rw [hfinishes.same, hs]
    have hlater := ih hrest hmidClean hruns
    refine ⟨?_, hfinishes.sameSettings.trans hlater.settings, fun p' st hp hst => ?_⟩
    · rw [hlater.same, hfinishes.same]
    · -- The first text's statements come first, and the rest begins where they end.
      obtain ⟨p₁, p₂, rfl, hp₁, hp₂⟩ := forall₂_append_left hp
      obtain ⟨st₁, hrun₁, hst₁⟩ := hfinishes.execAll_like hR hp₁ hst
      obtain ⟨st₂, hrun₂, hst₂⟩ := hlater.ran p₂ st₁ hp₂ hst₁
      exact ⟨st₂, (execAll_append_of_ok p₂ hrun₁).trans hrun₂, hst₂⟩

/-! ### The whole text -/

/-- Texts without a mistake are without one as a whole, wherever the last one stands on its own. The whole has the
statements of the earlier texts and then those of the last one, on other lines. -/
theorem parseProgram_joinLines (hR : Token.Relabels R) {texts : List String} {last : String} (lines : Nat)
    (hclean : ∀ text ∈ texts ++ [last], (parseProgram text).diagnostics = [])
    (hearlier : ∀ t t', MovedIn texts t t' → R t t')
    (hlast : ∀ t ∈ (scan last).tokens, R (t.moved lines) (t.moved (texts.map linesOf).sum)) :
    ∃ p p₁ p₂, parseProgram (below lines last) = ⟨p, []⟩ ∧
      parseProgram (joinLines (texts ++ [last])) = ⟨p₁ ++ p₂, []⟩ ∧
      List.Forall₂ (Node.Like R) (statementsOf texts) p₁ ∧ List.Forall₂ (Node.Like R) p p₂ := by
  have hparsed : ∀ text ∈ texts ++ [last], (scan text).diagnostics = [] ∧
      DerivesProgram (scan text).tokens (parseProgram text).result := by
    intro text htext
    apply (parseProgram_eq_iff text _).mp
    rw [← hclean text htext]
  obtain ⟨htexts, hown⟩ := List.forall_mem_append.mp hparsed
  obtain ⟨hscan, hderives⟩ := hown last (List.mem_singleton_self last)
  obtain ⟨hwhole, earlier, htokens, hall⟩ := scan_joinLines (fun text htext => (htexts text htext).1) last
  obtain ⟨hbelow, hbelowTokens⟩ := scan_below lines hscan
  -- The tokens below empty lines are those of the text, moved, and moved once more they are those of the whole.
  obtain ⟨p, hp, -⟩ := hderives.relabel (fun t t' (h : t' = t.moved lines) => h ▸ rfl)
    (List.forall₂_map_right_iff.mpr (List.forall₂_same.mpr fun t _ => rfl))
  obtain ⟨p₂, hp₂, hlike₂⟩ := hp.relabel hR (List.forall₂_map_left_iff.mpr
    (List.forall₂_map_right_iff.mpr (List.forall₂_same.mpr hlast)))
  obtain ⟨p₁, hp₁, hlike₁⟩ := (DerivesProgram.flatMap fun text htext => (htexts text htext).2).relabel hR
    (htokens.imp hearlier)
  refine ⟨p, p₁, p₂, ?_, ?_, hlike₁, hlike₂⟩
  · exact (parseProgram_eq_iff _ p).mpr ⟨hbelow, hbelowTokens ▸ hp⟩
  · exact (parseProgram_eq_iff _ _).mpr ⟨hwhole hscan, hall ▸ hp₁.append hp₂⟩

/-- The last text ends in the session that has been given the earlier ones as the whole does in a new one, below however
many empty lines it stands. -/
theorem runsEndAlike_joinLines (hR : Token.Relabels R) {room : Room} {level : Nat} {canTrace : Bool}
    {clock : Nat → Number} {texts : List String} {last : String} {s : Session} (lines : Nat)
    (hclean : ∀ text ∈ texts ++ [last], (parseProgram text).diagnostics = [])
    (hruns : texts.forM (Act.run room) (Session.start level canTrace clock) = .ok () s)
    (hok : s.hadRuntimeError = false) (hearlier : ∀ t t', MovedIn texts t t' → R t t')
    (hlast : ∀ t ∈ (scan last).tokens, R (t.moved lines) (t.moved (texts.map linesOf).sum)) :
    RunsEndAlike R (s.state.run room (parseProgram (below lines last)).result)
      ((State.initial level canTrace clock).run room (parseProgram (joinLines (texts ++ [last]))).result) := by
  obtain ⟨p, p₁, p₂, hbelow, hwhole, hp₁, hp₂⟩ := parseProgram_joinLines hR lines hclean hearlier hlast
  obtain ⟨hsame, hsettings, hran⟩ := Act.allFinish hR (List.forall_mem_append.mp hclean).1 rfl hruns hok
  rw [hbelow, hwhole]
  have huntraceable : s.state.isUntraceable = (State.initial level canTrace clock).isUntraceable :=
    hsettings.isUntraceable
  cases htrace : (State.initial level canTrace clock).isUntraceable with
  | true =>
    simp only [State.run, huntraceable, htrace]
    exact .untraceable _ _
  | false =>
    rw [State.run_of_traceable _ _ htrace, State.run_of_traceable _ _ (huntraceable.trans htrace)]
    apply State.runsEndAlike_endRun
    -- The whole has done the statements of the earlier texts when it comes to those of the last one.
    have hstart (record : String) : (State.initial level canTrace clock).Like R R
        ((State.initial level canTrace clock).note record) :=
      (State.like_initial level canTrace clock).note_right record
    obtain ⟨st, hbefore, hst⟩ := hran p₁ _ hp₁ (hstart ("run: " ++ toString (p₁ ++ p₂).length ++ " statement(s)"))
    rw [execAll_append_of_ok p₂ hbefore]
    exact runsLike_execAll hR room hp₂ _ _ (hst.note_left _)

/-! ### Where a run fails -/

/-- A token as it stands when the last text is below so many empty lines, and the same in the whole. -/
def MovedBelow (lines : Nat) (texts : List String) (last : String) (t t' : Token) : Prop :=
  MovedIn texts t t' ∨ ∃ own ∈ (scan last).tokens, t = own.moved lines ∧ t' = own.moved (texts.map linesOf).sum

theorem relabels_movedIn (texts : List String) : Token.Relabels (MovedIn texts) := by
  rintro t t' ⟨before, text, after, -, -, rfl⟩
  rfl

theorem relabels_movedBelow (lines : Nat) (texts : List String) (last : String) :
    Token.Relabels (MovedBelow lines texts last) := by
  rintro t t' (h | ⟨own, -, rfl, rfl⟩)
  · exact relabels_movedIn texts t t' h
  · rfl

/-- The token at which the last text fails in a state, and the one at which the whole fails. -/
inductive SitesAgree (room : Room) (st : State) (texts : List String) (last : String) (cause : Cause) :
    Token → Token → Prop
  /-- It is a token of the last text: it goes down with the text, and in the whole it is down by the lines of the
  earlier texts. -/
  | ofLast {t : Token} (ht : t ∈ (scan last).tokens)
      (hmoves : ∀ lines, (st.run room (parseProgram (below lines last)).result).1 = .failed (t.moved lines) cause) :
      SitesAgree room st texts last cause t (t.moved (texts.map linesOf).sum)
  /-- It is a token of an earlier text, which a call has come to: it stays where it is, wherever the last text stands. -/
  | ofEarlier {t t' : Token} (hmoved : MovedIn texts t t')
      (hstays : ∀ lines, (st.run room (parseProgram (below lines last)).result).1 = .failed t cause) :
      SitesAgree room st texts last cause t t'

theorem RunsEndAlike.of_failed {ended ended' : RunEnd × State} (h : RunsEndAlike R ended ended') {t' : Token}
    {cause : Cause} (hfailed : ended'.1 = .failed t' cause) : ∃ t, ended.1 = .failed t cause ∧ R t t' := by
  cases h with
  | ended h =>
    cases h with
    | failed hsite =>
      cases hfailed
      exact ⟨_, rfl, hsite⟩
    | _ => cases hfailed
  | _ => cases hfailed

/-- The lines of the earlier texts end above those of the last one. -/
theorem MovedIn.ne_moved {texts : List String} {last : String} {t t' own : Token} (h : MovedIn texts t t')
    (hown : own ∈ (scan last).tokens) : t' ≠ own.moved (texts.map linesOf).sum := by
  rintro rfl
  have habove := h.line_mem.2
  have hfirst := (scan_token_line hown).1
  simp only [Token.moved] at habove
  omega

/-- The line of the whole at which it fails tells whether the token is one of the last text, and with that how the last
text fails below any number of empty lines. -/
theorem sitesAgree_joinLines {room : Room} {st : State} {texts : List String} {last : String} {ended' : RunEnd × State}
    {t t' : Token} {cause : Cause} (hends : ∀ lines, RunsEndAlike (MovedBelow lines texts last)
      (st.run room (parseProgram (below lines last)).result) ended')
    (hfailed : (st.run room (parseProgram last).result).1 = .failed t cause) (hfailed' : ended'.1 = .failed t' cause) :
    SitesAgree room st texts last cause t t' := by
  have hfails (lines : Nat) := (hends lines).of_failed hfailed'
  obtain ⟨u, hu, hmoved⟩ := hfails 0
  obtain rfl : u = t := by
    rw [below_zero] at hu
    cases hu.symm.trans hfailed
    rfl
  rcases hmoved with hmoved | ⟨own, hown, rfl, rfl⟩
  · refine .ofEarlier hmoved fun lines => ?_
    obtain ⟨v, hv, hmoved' | ⟨own, hown, -, rfl⟩⟩ := hfails lines
    · exact hmoved'.left_unique hmoved ▸ hv
    · exact absurd rfl (hmoved.ne_moved hown)
  · rw [Token.moved_zero]
    refine .ofLast hown fun lines => ?_
    obtain ⟨v, hv, hmoved' | ⟨own', -, rfl, heq⟩⟩ := hfails lines
    · exact absurd rfl (hmoved'.ne_moved hown)
    · exact Token.moved_injective _ heq ▸ hv

/-! ### The sessions -/

/-- How a session ends that has been given texts one by one, the last of them now, and a new one that
is given all at once; `before` is the first session when only the last text is missing. In both the same
has been printed and the same names are bound, to values that are the same but for the lines of
functions. -/
inductive RunsAgree (room : Room) (texts : List String) (last : String) (before start : Session) :
    EStateM.Result Abort Session Unit → EStateM.Result Abort Session Unit → Prop
  | finished {s s' : Session} (hend : (before.state.run room (parseProgram last).result).1 = .finished)
      (hend' : (start.state.run room (parseProgram (joinLines (texts ++ [last]))).result).1 = .finished)
      (hstate : s.state.Like (MovedIn (texts ++ [last])) (MovedIn (texts ++ [last])) s'.state)
      (hcode : s.exitCode = 0 ∧ s'.exitCode = 0) (herrors : s.errors = #[] ∧ s'.errors = #[]) :
      RunsAgree room texts last before start (.ok () s) (.ok () s')
  /-- Both runs fail with the same error, and each reports the line at which it fails. -/
  | failed {s s' : Session} {t t' : Token} (cause : Cause)
      (hend : (before.state.run room (parseProgram last).result).1 = .failed t cause)
      (hend' : (start.state.run room (parseProgram (joinLines (texts ++ [last]))).result).1 = .failed t' cause)
      (hsites : SitesAgree room before.state texts last cause t t')
      (hstate : s.state.Like (MovedIn (texts ++ [last])) (MovedIn (texts ++ [last])) s'.state)
      (hcode : s.exitCode = 70 ∧ s'.exitCode = 70)
      (herror : s.errors = #[cause.message ++ "\n[line " ++ toString t.line ++ "]\n"])
      (herror' : s'.errors = #[cause.message ++ "\n[line " ++ toString t'.line ++ "]\n"]) :
      RunsAgree room texts last before start (.ok () s) (.ok () s')
  /-- Neither ends, or neither can be traced. -/
  | aborted (abort : Abort) (s s' : Session) :
      RunsAgree room texts last before start (.error abort s) (.error abort s')

theorem Session.reportFailure_start (level : Nat) (canTrace : Bool) (clock : Nat → Number) (t : Token) (cause : Cause)
    (st : State) :
    (Session.reportFailure t cause { Session.start level canTrace clock with state := st }).errors =
      #[cause.message ++ "\n[line " ++ toString t.line ++ "]\n"] := by
  simp [Session.reportFailure, Session.writeError, Session.start, String.append_assoc]

/-- Sessions without a failure settle like ends alike. -/
theorem runsAgree_settle {room : Room} {level : Nat} {canTrace : Bool} {clock : Nat → Number} {texts : List String}
    {last : String} {before : Session}
    (hbefore : ∀ st, { before with state := st } = { Session.start level canTrace clock with state := st })
    (h : RunsEndAlike (MovedIn (texts ++ [last])) (before.state.run room (parseProgram last).result)
      ((State.initial level canTrace clock).run room (parseProgram (joinLines (texts ++ [last]))).result))
    (hsites : ∀ t t' cause, (before.state.run room (parseProgram last).result).1 = .failed t cause →
      ((State.initial level canTrace clock).run room (parseProgram (joinLines (texts ++ [last]))).result).1 =
        .failed t' cause → SitesAgree room before.state texts last cause t t') :
    RunsAgree room texts last before (Session.start level canTrace clock)
      (Act.execute room (parseProgram last).result before)
      (Act.execute room (parseProgram (joinLines (texts ++ [last]))).result (Session.start level canTrace clock)) := by
  have hstart : (Session.start level canTrace clock).state = State.initial level canTrace clock := rfl
  rw [Act.execute_eq, Act.execute_eq, hstart, hbefore]
  generalize hended : before.state.run room (parseProgram last).result = ended at h
  generalize hended' : (State.initial level canTrace clock).run room _ = ended' at h
  have hend := congrArg Prod.fst hended
  have hend' := congrArg Prod.fst hended'
  cases h with
  | outOfFuel st st' => exact .aborted .outOfFuel _ _
  | untraceable st st' => exact .aborted .untraceable _ _
  | ended h hst =>
    cases h with
    | finished => exact .finished hend hend' hst ⟨rfl, rfl⟩ ⟨rfl, rfl⟩
    | failed _ cause =>
      apply RunsAgree.failed cause hend hend' (hsites _ _ _ hend hend') hst ⟨rfl, rfl⟩
      · exact Session.reportFailure_start level canTrace clock _ cause _
      · exact Session.reportFailure_start level canTrace clock _ cause _
    | fault f => exact .aborted (.fault f) _ _
    | exhausted => exact .aborted .exhausted _ _

/-- Texts without a mistake, of which all but the last one are run to their ends, are run one by one
as they are run as a whole. -/
theorem run_joinLines {room : Room} {level : Nat} {canTrace : Bool} {clock : Nat → Number} {texts : List String}
    {last : String} {s : Session} (hclean : ∀ text ∈ texts ++ [last], (parseProgram text).diagnostics = [])
    (hruns : texts.forM (Act.run room) (Session.start level canTrace clock) = .ok () s)
    (hok : s.hadRuntimeError = false) :
    RunsAgree room texts last s (Session.start level canTrace clock) (Act.run room last s)
      (Act.run room (joinLines (texts ++ [last])) (Session.start level canTrace clock)) := by
  obtain ⟨hearlier, hlast⟩ := List.forall_mem_append.mp hclean
  have hsame := (Act.allFinish (relabels_movedIn texts) hearlier rfl hruns hok).same
  have hnoError : s.hadError = false := by rw [hsame, Session.start]
  obtain ⟨_, _, _, -, hwhole, -, -⟩ :=
    parseProgram_joinLines (relabels_movedBelow 0 texts last) 0 hclean (fun _ _ h => .inl h) fun t ht => .inr ⟨t, ht, rfl, rfl⟩
  rw [Act.run_clean room (congrArg Parsed.diagnostics hwhole) rfl,
    Act.run_clean room (hlast last (List.mem_singleton_self last)) hnoError]
  apply runsAgree_settle
  · intro st
    rw [hsame]
  · have hends := runsEndAlike_joinLines (relabels_movedIn (texts ++ [last])) 0 hclean hruns hok
      (fun _ _ h => h.append [last]) fun t ht => t.moved_zero.symm ▸ .of_mem ht
    rwa [below_zero] at hends
  · intro t t' cause hfailed hfailed'
    apply sitesAgree_joinLines _ hfailed hfailed'
    exact fun lines => runsEndAlike_joinLines (relabels_movedBelow lines texts last) lines hclean hruns hok
      (fun _ _ h => .inl h) fun t ht => .inr ⟨t, ht, rfl, rfl⟩

/-- The session behind requests, if all of them were answered. -/
def Act.answered? : EStateM.Result Abort Session Unit → Option Session
  | .ok _ s => some s
  | .error _ _ => none

theorem Act.answered?_eq_some_iff {r : EStateM.Result Abort Session Unit} {s : Session} :
    answered? r = some s ↔ r = .ok () s := by
  cases r with
  | ok _ s' => simp [answered?]
  | error abort s' => simp [answered?]

/-- The last text fails at a word that stands in the earlier one, too, on a line with the same number. It is the word of
the last text that the whole reports, one line down. -/
theorem run_joinLines_undefined :
    (∀ text ∈ ["fun f() \x7b nope; \x7d"] ++ ["nope;"], (parseProgram text).diagnostics = []) ∧
      ∃ s, ["fun f() \x7b nope; \x7d"].forM (Act.run ⟨9, callLimit⟩) (Session.start 0 true fun _ => .zero) = .ok () s ∧
        s.hadRuntimeError = false ∧
        (Act.answered? (Act.run ⟨9, callLimit⟩ "nope;" s)).map Session.errors =
          some #["Undefined variable 'nope'.\n[line 1]\n"] ∧
        (Act.answered? (Act.run ⟨9, callLimit⟩ (joinLines (["fun f() \x7b nope; \x7d"] ++ ["nope;"]))
          (Session.start 0 true fun _ => .zero))).map Session.errors =
            some #["Undefined variable 'nope'.\n[line 2]\n"] ∧
        RunsAgree ⟨9, callLimit⟩ ["fun f() \x7b nope; \x7d"] "nope;" s (Session.start 0 true fun _ => .zero)
          (Act.run ⟨9, callLimit⟩ "nope;" s)
          (Act.run ⟨9, callLimit⟩ (joinLines (["fun f() \x7b nope; \x7d"] ++ ["nope;"]))
            (Session.start 0 true fun _ => .zero)) := by
  have hclean : ∀ text ∈ ["fun f() \x7b nope; \x7d"] ++ ["nope;"], (parseProgram text).diagnostics = [] := by
    intro text htext
    rcases List.mem_cons.mp htext with rfl | htext
    · cbv
    · rcases List.mem_singleton.mp htext with rfl
      cbv
  have hboth : (Act.answered? (["fun f() \x7b nope; \x7d"].forM (Act.run ⟨9, callLimit⟩)
      (Session.start 0 true fun _ => .zero))).map (fun s =>
        (s.hadRuntimeError, (Act.answered? (Act.run ⟨9, callLimit⟩ "nope;" s)).map Session.errors)) =
      some (false, some #["Undefined variable 'nope'.\n[line 1]\n"]) := by cbv
  have hwhole : (Act.answered? (Act.run ⟨9, callLimit⟩ (joinLines (["fun f() \x7b nope; \x7d"] ++ ["nope;"]))
      (Session.start 0 true fun _ => .zero))).map Session.errors =
        some #["Undefined variable 'nope'.\n[line 2]\n"] := by cbv
  obtain ⟨s, hanswered, hpair⟩ := Option.map_eq_some_iff.mp hboth
  obtain ⟨hgood, hreports⟩ := Prod.mk.inj hpair
  have hruns := Act.answered?_eq_some_iff.mp hanswered
  exact ⟨hclean, s, hruns, hgood, hreports, hwhole, run_joinLines hclean hruns hgood⟩

end LoxLang
