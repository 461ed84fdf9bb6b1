import LoxLang.Proofs.Eval.Alignment
import LoxLang.Proofs.Node.RoundTrip
import LoxLang.Proofs.Session.Returns
/-!
# What a `for` statement means

There is no node for a `for` statement: the parser builds a loop with blocks around it and inside. Here is
what such a statement means by itself, as `execFor`. One scope is opened for the whole loop; the first
clause is carried out there once, and the condition, the body and the increment all run there, round by
round.

The tree opens other scopes. It has one for the loop only if there is a first clause, and one more for each
round if there is an increment. Neither kind of difference shows: a scope that no declaration runs in stays
empty, and the runs end alike up to empty scopes and the places of new ones.
-/

namespace LoxLang

/-- The parts of a `for` statement. -/
structure ForStatement where
  initial : Option Node
  condition : Option Node
  increment : Option Node
  body : Node

/-- The tree that the parser builds. -/
def ForStatement.tree (loop : ForStatement) : Node :=
  Grammar.desugarFor loop.initial loop.condition loop.increment loop.body

namespace Eval

/-! ### The meaning -/

/-- Whether there is another round. -/
def forTest (fuel calls : Nat) (scope : ScopeId) : Option Node → Eval Bool
  | none => pure true
  | some condition => do
    let value ← eval fuel calls scope condition
    pure value.truthy

/-- The body, and the increment unless the body has returned. -/
def forRound (fuel calls : Nat) (scope : ScopeId) (increment : Option Node) (body : Node) : Eval (Option Value) := do
  match ← exec fuel calls scope body with
  | some value => pure (some value)
  | none =>
    match increment with
    | some increment => do
      let _ ← eval fuel calls scope increment
      pure none
    | none => pure none

/-- Rounds up to the first that returns, as long as the condition holds. -/
def forRounds (calls : Nat) (scope : ScopeId) (loop : ForStatement) : (fuel : Nat) → Eval (Option Value)
  | 0 => throw .outOfFuel
  | fuel + 1 => do
    if ← forTest fuel calls scope loop.condition then
      match ← forRound fuel calls scope loop.increment loop.body with
      | some value => pure (some value)
      | none => forRounds calls scope loop fuel
    else pure none

/-- Carries out a `for` statement in a scope of its own. -/
def execFor (fuel calls : Nat) (scope : ScopeId) (loop : ForStatement) : Eval (Option Value) := do
  let inner ← openScope scope
  match loop.initial with
  | some initial => do
    let _ ← exec fuel calls inner initial
    forRounds calls inner loop fuel
  | none => forRounds calls inner loop fuel

/-! ### One round -/

variable {n : Numbering} {side : Side} {a b : ScopeId} {fuel fuel' calls : Nat}

theorem untilReturn_singleton (step : Node → Eval (Option Value)) (s : Node) : untilReturn step [s] = step s := by
  have hend : untilReturn step [s] = step s >>= pure := by
    apply bind_congr
    intro returned
    cases returned <;> rfl
  rw [hend, bind_pure]

/-- The condition of the tree, evaluated in place of the one that is written. -/
theorem forTest_aligned (condition : Option Node) (hfuel : side.Less 1 fuel fuel') (hsame : n.Same a b) :
    RunsAligned side n (fun _ value another => value.truthy = another)
      (eval fuel calls a (condition.getD (.literal (.bool true)))) (forTest fuel' calls b condition) := by
  cases condition with
  | none =>
    cases fuel with
    | zero => exact .noneLeft hfuel _
    | succ fuel => exact .pure fun _ _ => rfl
  | some condition =>
    rw [← bind_pure (eval fuel calls a _)]
    exact ((alignedWithin hfuel).eval calls condition hsame).bind fun v v' _ _ hv => .pure fun _ _ => hv.truthy

/-- The body of the loop: with an increment it is a block of both. -/
def forBody (increment : Option Node) (body : Node) : Node :=
  match increment with
  | some increment => .block [body, .expression increment]
  | none => body

/-- Behind the body, in whatever scope, the increment comes as a statement of its own. -/
theorem forIncrement_aligned (increment : Node) (hfuel : side.Less 1 fuel fuel') (hsame : n.Same a b) :
    RunsAligned side n AlignedReturn (exec fuel calls a (.expression increment)) (do
      let _ ← eval fuel' calls b increment
      pure none) := by
  cases fuel with
  | zero => exact .noneLeft hfuel _
  | succ fuel =>
    exact ((alignedWithin hfuel.stepLeft).eval calls increment hsame).bind fun _ _ _ _ _ => .pure fun _ _ => .none

theorem forRound_aligned (increment : Option Node) {body : Node} (hbody : body.declared = [])
    (hfuel : side.Less 2 fuel fuel') (hsame : n.Same a b) :
    RunsAligned side n AlignedReturn (exec fuel calls a (forBody increment body))
      (forRound fuel' calls b increment body) := by
  have hnone {a b : ScopeId} {n : Numbering} : ∀ name ∈ body.declared, n.Twins a b := by simp [hbody]
  cases increment with
  | none =>
    rw [← bind_pure (exec fuel calls a _)]
    refine ((alignedWithin hfuel).exec calls body hsame hnone).bind fun o o' _ _ ho => ?_
    cases ho with
    | none => exact .pure fun _ _ => .none
    | some hv => exact .pure fun _ hgrows => .some (hv.mono hgrows)
  | some increment =>
    cases fuel with
    | zero => exact .noneLeft hfuel _
    | succ fuel =>
      have hless : side.Less 1 fuel fuel' := hfuel.stepLeft
      -- The scope of the block is an extra one: the body declares nothing in it.
      refine .openScope_left hsame fun inner n' _ hinner => ?_
      refine ((alignedWithin hless).exec calls body hinner hnone).bind fun o o' n'' hgrows ho => ?_
      cases ho with
      | none =>
        dsimp only
        rw [untilReturn_singleton]
        exact forIncrement_aligned increment hless (hgrows.same hinner)
      | some hv => exact .pure fun _ hgrows => .some (hv.mono hgrows)

/-! ### The loop -/

/-- By induction on the fuel of the tree: a round of the tree is one round, and what remains is the loop again. -/
theorem forRounds_aligned {loop : ForStatement} (hbody : loop.body.declared = [])
    (hsource : ∃ text, (loop.condition.getD (.literal (.bool true))).source = .ok text)
    (hfuel : side.Less 2 fuel fuel') (hsame : n.Same a b) :
    RunsAligned side n AlignedReturn
      (exec fuel calls a (.loop (loop.condition.getD (.literal (.bool true))) (forBody loop.increment loop.body)))
      (forRounds calls b loop fuel') := by
  induction fuel generalizing fuel' n with
  | zero => exact .noneLeft hfuel _
  | succ fuel ih =>
    cases fuel' with
    | zero => exact .noneRight hfuel _
    | succ fuel' =>
      have hless : side.Less 2 fuel fuel' := hfuel.step
      refine (forTest_aligned loop.condition hless.fewer hsame).bind fun value another n₁ hgrows₁ htest => ?_
      subst htest
      split
      · refine .traceAt_left ?_ ?_
        · obtain ⟨text, htext⟩ := hsource
          exact ⟨"while " ++ text, by rw [htext]; rfl⟩
        refine (forRound_aligned loop.increment hbody hless (hgrows₁.same hsame)).bind fun o o' n₂ hgrows₂ ho => ?_
        cases ho with
        | none => exact ih hless (hgrows₂.same (hgrows₁.same hsame))
        | some hv => exact .pure fun _ hgrows => .some (hv.mono hgrows)
      · exact .pure fun _ _ => .none

/-- The tree of a `for` statement does what the statement means. -/
theorem execFor_aligned {loop : ForStatement} (hinitial : ∀ s ∈ loop.initial, s.returns false = [])
    (hbody : loop.body.declared = [])
    (hsource : ∃ text, (loop.condition.getD (.literal (.bool true))).source = .ok text)
    (hfuel : side.Less 3 fuel fuel') (hsame : n.Same a b) :
    RunsAligned side n AlignedReturn (exec fuel calls a loop.tree) (execFor fuel' calls b loop) := by
  obtain ⟨initial, condition, increment, body⟩ := loop
  cases initial with
  | none => exact .openScope_right hsame fun inner _ _ hinner => forRounds_aligned hbody hsource hfuel.fewer hinner
  | some initial =>
    cases fuel with
    | zero => exact .noneLeft hfuel _
    | succ fuel =>
      have hless : side.Less 2 fuel fuel' := hfuel.stepLeft
      refine (RunsAligned.openScope hsame).bind fun inner inner' n' _ hinner => ?_
      have hnever : NeverReturns (exec fuel calls inner initial) := by
        apply exec_neverReturns
        rw [hinitial initial rfl]
        simp
      rw [untilReturn, hnever.bind_none]
      dsimp only
      rw [untilReturn_singleton]
      have hfirst := (alignedWithin hless).exec calls initial hinner.same fun _ _ => hinner
      exact hfirst.bind fun _ _ n'' hgrows _ => forRounds_aligned hbody hsource hless (hgrows.same hinner.same)

/-! ### Ends of runs -/

/-- The run was given fuel enough. -/
def Ended {α : Type} (r : EStateM.Result Stop State α) : Prop := ∀ st, r ≠ .error .outOfFuel st

/-- What two runs from a state with `next` scopes have left behind is the same but for the scopes that are new. -/
structure SameAfter (next : ScopeId) (n : Numbering) (st st' : State) : Prop where
  /-- The scopes from before stand for themselves. -/
  keeps : (Numbering.identity next).Grows n
  output : st.output = st'.output
  bindings : ∀ s < next, BindingsLike (Value.Aligned n) (st.store.bindings s) (st'.store.bindings s)
  /-- The new scopes are aligned as well, and all the rest but the trace is the same. -/
  aligned : st.Aligned n st'

/-- Two runs end the same way: at their ends, with values that were returned, or with one and the same error. -/
inductive SameEnd (next : ScopeId) :
    EStateM.Result Stop State (Option Value) → EStateM.Result Stop State (Option Value) → Prop
  | ended {n : Numbering} {returned returned' : Option Value} {st st' : State} (hafter : SameAfter next n st st')
      (hreturned : AlignedReturn n returned returned') : SameEnd next (.ok returned st) (.ok returned' st')
  | stopped {n : Numbering} {st st' : State} (hafter : SameAfter next n st st') (stop : Stop) :
      SameEnd next (.error stop st) (.error stop st')

theorem SameAfter.of_aligned {next : ScopeId} {n : Numbering} {st st' : State}
    (hgrows : (Numbering.identity next).Grows n) (h : st.Aligned n st') : SameAfter next n st st' where
  keeps := hgrows
  output := h.output
  bindings s hs := h.store.bindings s s (hgrows.twins (Numbering.identity_twins hs))
  aligned := h

theorem SameEnd.ended_iff {next : ScopeId} {r r' : EStateM.Result Stop State (Option Value)} (h : SameEnd next r r') :
    Ended r ↔ Ended r' := by
  cases h with
  | ended => exact iff_of_true nofun nofun
  | stopped _ stop =>
    constructor
    · rintro h _ ⟨⟩
      exact h _ rfl
    · rintro h _ ⟨⟩
      exact h _ rfl

theorem EndsAligned.sameEnd {next : ScopeId} {r r' : EStateM.Result Stop State (Option Value)}
    (h : EndsAligned side (.identity next) AlignedReturn r r') (hleft : side ≠ .right → Ended r)
    (hright : side ≠ .left → Ended r') : SameEnd next r r' := by
  cases h with
  | ok hgrows hst hreturned => exact .ended (.of_aligned hgrows hst) hreturned
  | stopped hgrows hst stop => exact .stopped (.of_aligned hgrows hst) stop
  | outLeft hside st => exact absurd rfl (hleft hside st)
  | outRight hside _ st' => exact absurd rfl (hright hside st')

/-- From the given state the tree comes to an end if the statement does, and they end the same way. -/
structure SameRuns (tree : Node) (loop : ForStatement) (calls : Nat) (scope : ScopeId) (st : State) : Prop where
  ends : (∃ fuel, Ended (exec fuel calls scope tree st)) ↔ ∃ fuel, Ended (execFor fuel calls scope loop st)
  same : ∀ fuel fuel', Ended (exec fuel calls scope tree st) → Ended (execFor fuel' calls scope loop st) →
    SameEnd st.store.next (exec fuel calls scope tree st) (execFor fuel' calls scope loop st)

/-- The tree may be deeper than the statement by two blocks and the statement of the increment. -/
theorem SameRuns.of_aligned {loop : ForStatement} {scope : ScopeId} {st : State}
    (h : ∀ {side fuel fuel'}, Side.Less side 3 fuel fuel' →
      EndsAligned side (.identity st.store.next) AlignedReturn (exec fuel calls scope loop.tree st)
        (execFor fuel' calls scope loop st)) : SameRuns loop.tree loop calls scope st := by
  refine ⟨⟨?_, ?_⟩, ?_⟩
  · rintro ⟨fuel, hended⟩
    have hless : Side.left.Less 3 fuel fuel := Nat.le_refl fuel
    exact ⟨fuel, ((h hless).sameEnd (fun _ => hended) fun hside => absurd rfl hside).ended_iff.mp hended⟩
  · rintro ⟨fuel, hended⟩
    have hless : Side.right.Less 3 (fuel + 3) fuel := Nat.le_refl (fuel + 3)
    exact ⟨fuel + 3, ((h hless).sameEnd (fun hside => absurd rfl hside) fun _ => hended).ended_iff.mpr hended⟩
  · intro fuel fuel' hended hended'
    have hless : Side.either.Less 3 fuel fuel' := trivial
    exact (h hless).sameEnd (fun _ => hended) fun _ => hended'

end Eval

/-! ### Parsed statements -/

namespace Grammar

/-- The tokens of a `for` statement and its parts. -/
inductive DerivesFor (inFunction : Bool) : List Token → ForStatement → Prop where
  | parts {dangling : Bool} {keyword opening semicolon closing : Token} {is cs ns ts : List Token} {loop : ForStatement}
      (hkeyword : keyword.kind = .kwFor) (hopening : opening.kind = .leftParen)
      (hinitial : DerivesInitial is loop.initial) (hcondition : DerivesOptional cs loop.condition)
      (hsemicolon : semicolon.kind = .semicolon) (hincrement : DerivesOptional ns loop.increment)
      (hclosing : closing.kind = .rightParen)
      (hbody : DerivesStatement (.statement dangling) inFunction ts loop.body) :
      DerivesFor inFunction (keyword :: opening :: is ++ cs ++ semicolon :: ns ++ closing :: ts) loop

/-- A statement that starts with the word `for` is derived by the one rule for it. -/
theorem DerivesStatement.parts {dangling f : Bool} {ts : List Token} {s : Node}
    (h : DerivesStatement (.statement dangling) f ts s) (hfor : ∀ t ∈ ts.head?, t.kind = .kwFor) :
    ∃ loop, DerivesFor f ts loop ∧ s = loop.tree := by
  cases h with
  | @forLoop _ _ _ _ _ _ _ _ _ _ initial condition increment body hkeyword hopening hinitial hcondition hsemicolon
      hincrement hclosing hbody =>
    refine ⟨⟨initial, condition, increment, body⟩, ?_, (desugarFor_eq ..).symm⟩
    exact .parts hkeyword hopening hinitial hcondition hsemicolon hincrement hclosing hbody
  | expression h =>
    obtain ⟨t, more, rfl, ht⟩ := Derives.starts h
    rw [hfor t rfl] at ht
    cases ht
  | print hkeyword | ret hkeyword | block _ hkeyword | branch hkeyword | branchElse hkeyword | loop hkeyword =>
    have hkind := hfor _ rfl
    rw [hkeyword] at hkind
    cases hkind

/-- Statements declare nothing in the scope they run in: declarations stand in blocks. -/
theorem DerivesStatement.declared_eq {symbol : Symbol} {f : Bool} {ts : List Token} {s : Node}
    (h : DerivesStatement symbol f ts s) (hsymbol : symbol ≠ .declaration) : s.declared = [] := by
  induction h with
  | statement | var | function => exact absurd rfl hsymbol
  | expression | print | ret | block => rfl
  | branch _ _ _ _ _ ih =>
    rw [Node.declared, ih (by simp)]
    rfl
  | branchElse _ _ _ _ _ _ _ ihyes ihno => rw [Node.declared, ihyes (by simp), ihno (by simp), List.append_nil]
  | loop _ _ _ _ _ ih => exact ih (by simp)
  | @forLoop _ _ _ _ _ _ _ _ _ _ initial condition increment body _ _ _ _ _ _ _ _ ih =>
    cases initial <;> cases condition <;> cases increment <;> first | rfl | exact ih (by simp)

theorem DerivesInitial.returns_eq {ts : List Token} {initial : Option Node} (h : DerivesInitial ts initial) :
    ∀ s ∈ initial, s.returns false = [] := by
  cases h with
  | none => simp
  | var _ h => cases h <;> simp [Node.returns]
  | expression => simp [Node.returns]

theorem DerivesExpression.isExpressionOf {P : Token → Prop} {ts : List Token} {e : Node} (h : DerivesExpression ts e)
    (hts : ∀ t ∈ ts, P t) : e.IsExpressionOf P := by
  let eof : Token := ⟨.eof, .str "", .null, 1⟩
  have hwithin : Within P eof ⟨ts ++ [], eof, []⟩ := ⟨by simpa using hts, rfl, by simp⟩
  have hend : Unwanted Level.assignment.continues [] := by simp [Unwanted]
  exact (expression_yields _ hwithin).2 e _ (h.accepts (Nat.lt_succ_self _) hend eof [])

theorem DerivesOptional.source {P : Token → Prop} (hP : Eval.Named P) {ts : List Token} {condition : Option Node}
    (h : DerivesOptional ts condition) (hts : ∀ t ∈ ts, P t) :
    ∃ text, (condition.getD (.literal (.bool true))).source = .ok text := by
  cases h with
  | none => exact ⟨"true", rfl⟩
  | some h => exact Eval.source_of_isExpressionOf hP (h.isExpressionOf hts)

end Grammar

open Eval in
/-- A `for` statement that is parsed without a report is made into a tree that does what the statement means, from every
well-scoped state and in every scope of it. The tokens have texts, as scanned ones do, and the bound covers each of them
twice, as it does whenever a program is parsed. -/
theorem parsed_for_means_for {bound : Nat} {inFunction : Bool} {c c' : Grammar.Cursor} {tree : Node}
    (hfor : c.isAt .kwFor = true) (hbound : 2 * c.rest.length + 2 ≤ bound) (hnamed : Named (· ∈ c.rest))
    (hparse : Grammar.statement bound inFunction c = .ok tree c') (hclean : c'.reports = c.reports) :
    ∃ used loop, c.rest = used ++ c'.rest ∧ Grammar.DerivesFor inFunction used loop ∧ tree = loop.tree ∧
      ∀ calls scope st, st.store.WellScoped → scope < st.store.next → SameRuns tree loop calls scope st := by
  have hlength : c.rest.length < bound / 2 := by omega
  obtain ⟨used, hused, dangling, hderives, -⟩ :=
    (Grammar.statement_declaration_reads bound inFunction).1.takes c tree c' hlength hparse hclean
  have hhead : ∀ t ∈ used.head?, t.kind = .kwFor := by
    cases used with
    | nil => simp
    | cons t more => simpa [Grammar.Cursor.isAt, hused] using hfor
  obtain ⟨loop, hparts, rfl⟩ := hderives.parts hhead
  refine ⟨used, loop, hused, hparts, rfl, fun calls scope st hw hscope => ?_⟩
  cases hparts with
  | parts _ _ hinitial hcondition _ _ _ hbody =>
    have hsource := hcondition.source hnamed fun t ht => by rw [hused]; simp [ht]
    have hbody := hbody.declared_eq (by simp)
    apply SameRuns.of_aligned
    intro side fuel fuel' hfuel
    apply execFor_aligned hinitial.returns_eq hbody hsource hfuel (Numbering.identity_same hscope)
    · exact .refl _
    · exact State.aligned_self hw

def plainToken (kind : Kind) (text : String) : Token := ⟨kind, .str text, .null, 1⟩

def counterName : Token := plainToken .identifier "i"

/-- The tokens of `for (var i = true; i; i = false) print i;`, clause by clause. -/
def oneRoundTokens : List Token :=
  plainToken .kwFor "for" :: plainToken .leftParen "(" ::
    [plainToken .kwVar "var", counterName, plainToken .equal "=", plainToken .kwTrue "true",
      plainToken .semicolon ";"] ++
    [counterName] ++ plainToken .semicolon ";" :: [counterName, plainToken .equal "=", plainToken .kwFalse "false"] ++
    plainToken .rightParen ")" :: [plainToken .kwPrint "print", counterName, plainToken .semicolon ";"]

def oneRound : ForStatement where
  initial := some (.var (.token counterName) (.literal (.bool true)))
  condition := some (.reference (.token counterName))
  increment := some (.assign (.token counterName) (.literal (.bool false)))
  body := .print (.reference (.token counterName))

open Grammar in
theorem derives_oneRound : DerivesStatement (.statement false) false oneRoundTokens oneRound.tree := by
  have hprimary {t : Token} {e : Node} (h : Derives .primary [t] e) : DerivesExpression [t] e :=
    h.primary_toCall.call_toExpression
  have htrue : DerivesExpression [plainToken .kwTrue "true"] _ := hprimary (.yes rfl)
  have hfalse : DerivesExpression [plainToken .kwFalse "false"] _ := hprimary (.no rfl)
  have hcounter : DerivesExpression [counterName] _ := hprimary (.name rfl)
  have hinitial : DerivesInitial [plainToken .kwVar "var", counterName, plainToken .equal "=",
      plainToken .kwTrue "true", plainToken .semicolon ";"] oneRound.initial :=
    .var (by rfl) (.initial (by rfl) (by rfl) htrue (by rfl))
  have hincrement : DerivesExpression [counterName, plainToken .equal "=", plainToken .kwFalse "false"] _ :=
    .assign rfl rfl hfalse
  have hbody : DerivesStatement (.statement false) false
      [plainToken .kwPrint "print", counterName, plainToken .semicolon ";"] oneRound.body :=
    .print (by rfl) hcounter (by rfl)
  exact .forLoop rfl rfl hinitial (.some hcounter) rfl (.some hincrement) rfl hbody

theorem parsed_for_means_for_oneRound :
    ∃ loop, oneRound.tree = ForStatement.tree loop ∧
      Eval.SameRuns oneRound.tree loop callLimit State.globals (.initial 3 true fun _ => .zero) := by
  have hnamed : Eval.Named (· ∈ oneRoundTokens) := by simp [Eval.Named, oneRoundTokens, counterName, plainToken]
  have hparse := derives_oneRound.accepted 34 [] (by decide) (by simp) (plainToken .eof "") []
  obtain ⟨used, loop, -, -, htree, hruns⟩ := parsed_for_means_for rfl (Nat.le_refl 34) hnamed hparse rfl
  have hinitial := State.settled_initial 3 true fun _ => .zero
  exact ⟨loop, htree, hruns callLimit _ _ hinitial.wellScoped hinitial.globals⟩

end LoxLang
