import LoxLang.Proofs.Grammar.Completeness
import LoxLang.Proofs.Grammar.Tracking
/-!
# Staying inside the list

Whatever the tokens in front of the last one are, a parser with an index never looks outside of its
list, never moves behind the last token, and comes to an end. It comes to the same end as the parser
that takes tokens from the front of a list.

Its loops over declarations go on after panics, so what ends them is that every declaration moves on,
also if it panics without having taken a token, or deep inside of a body, or where no token is left to
move on to. In the first case synchronizing takes a token; in the last one tokens were taken before.
-/

namespace LoxLang.Grammar.Walk

variable {α : Type} {ts : List Token} {eof : Token}

/-! ### Lists -/

section

variable {m n fuel bound : Nat} {item : Walk α} {item' : Parser α}

theorem commaItems_tracks (hended : Ended ts eof) (what : String) (h : Tracks ts eof m 1 item item') (hm : n ≤ m)
    (hfuel : n ≤ fuel) (hbound : n ≤ bound) (count : Nat) : Tracks ts eof n 1
      (commaItems (ts ++ [eof]) what item fuel count) (Grammar.commaItems what item' bound count) := by
  induction n generalizing fuel bound count with
  | zero => exact .zero
  | succ n ih =>
    obtain ⟨fuel, rfl⟩ := Nat.exists_eq_succ_of_ne_zero (Nat.ne_zero_of_lt hfuel)
    obtain ⟨bound, rfl⟩ := Nat.exists_eq_succ_of_ne_zero (Nat.ne_zero_of_lt hbound)
    have hrest := ih (Nat.le_of_succ_le hm) (Nat.le_of_succ_le_succ hfuel) (Nat.le_of_succ_le_succ hbound) (count + 1)
    unfold commaItems Grammar.commaItems
    split
    -- An item too many is reported first; the round goes on in the same way.
    on_goal 1 => refine .peek fun c => (Tracks.report c.peek _).bind_zero fun _ => ?_
    all_goals
      refine (h.mono hm le_rfl).bind fun first => .accept hended (.one _ (by decide)) (fun t => ?_) (.pure _)
      exact (hrest.loose (Nat.sub_le n 1)).bind fun rest => .pure _

theorem commaList_tracks (hended : Ended ts eof) (what : String) (h : Tracks ts eof m 1 item item') (hfuel : m ≤ fuel)
    (hbound : m ≤ bound) :
    Tracks ts eof m 0 (commaList (ts ++ [eof]) fuel what item) (Grammar.commaList bound what item') := by
  refine (Tracks.check hended .rightParen (by decide)).bind_zero fun isClosing => ?_
  cases isClosing with
  | true => exact .pure _
  | false => exact (commaItems_tracks hended what h le_rfl hfuel hbound 0).mono le_rfl (Nat.zero_le 1)

end

/-! ### Expressions -/

section

variable {m n fuel bound : Nat} {inner : Walk Node} {inner' : Parser Node}

theorem primary_tracks (hended : Ended ts eof) (h : Tracks ts eof m 1 inner inner') :
    Tracks ts eof (m + 1) 1 (primary (ts ++ [eof]) inner) (Grammar.primary inner') := by
  refine .choose hended ⟨fun kind => by cases kind <;> simp [startsPrimary], by simp⟩ ?_ (.fail _)
  have hgrouping : Tracks ts eof m 0 (do
      let inner ← inner
      let _ ← expect (ts ++ [eof]) .rightParen "')' after expression"
      return Node.grouping inner) (do
      let inner ← inner'
      let _ ← Grammar.expect .rightParen "')' after expression"
      return Node.grouping inner) :=
    (h.loose le_rfl).bind fun inner => (Tracks.expect_loose hended .rightParen (by decide) _).bind fun _ => .pure _
  simp only [List.forall_mem_cons, List.not_mem_nil, false_imp_iff, implies_true, and_true]
  refine ⟨?_, ?_, ?_, ?_, ?_, ?_, ?_⟩
  all_goals
    intro t hkind
    simp only [hkind]
    first
      | exact .pure _
      | exact hgrouping

theorem callsAfter_tracks (hended : Ended ts eof) (h : Tracks ts eof m 1 inner inner') (hm : n ≤ m + 1)
    (hfuel : n ≤ fuel) (hbound : n ≤ bound) (callee : Node) :
    Tracks ts eof n 0 (callsAfter (ts ++ [eof]) inner fuel callee) (Grammar.callsAfter inner' bound callee) := by
  induction n generalizing fuel bound callee with
  | zero => exact .zero
  | succ n ih =>
    obtain ⟨fuel, rfl⟩ := Nat.exists_eq_succ_of_ne_zero (Nat.ne_zero_of_lt hfuel)
    obtain ⟨bound, rfl⟩ := Nat.exists_eq_succ_of_ne_zero (Nat.ne_zero_of_lt hbound)
    have harguments := commaList_tracks hended "arguments" (h.mono (Nat.le_of_succ_le_succ hm) le_rfl)
      (Nat.le_of_succ_le hfuel) (Nat.le_of_succ_le hbound)
    refine .accept hended (.one _ (by decide)) (fun t => ?_) (.pure _)
    refine harguments.bind fun arguments => (Tracks.expect_loose hended .rightParen (by decide) _).bind fun paren => ?_
    exact ih (Nat.le_of_succ_le hm) (Nat.le_of_succ_le_succ hfuel) (Nat.le_of_succ_le_succ hbound) _

theorem call_tracks (hended : Ended ts eof) (h : Tracks ts eof m 1 inner inner') (hfuel : m ≤ fuel) (hbound : m ≤ bound) :
    Tracks ts eof (m + 1) 1 (call (ts ++ [eof]) fuel inner) (Grammar.call bound inner') :=
  (primary_tracks hended h).bind fun callee => callsAfter_tracks hended h (Nat.le_succ m) hfuel hbound callee

/-- Taking all signs at once is taking them one by one. -/
theorem unary_eq (bound : Nat) (expression : Parser Node) :
    Grammar.unary bound expression = take? isSign >>= fun
      | some sign => do return .unary (.token sign) (← Grammar.unary bound expression)
      | none => Grammar.call bound expression := by
  funext c
  obtain ⟨rest, eof, reports⟩ := c
  unfold Grammar.unary
  rcases unwanted_or_cons isSign rest with hunwanted | ⟨t, after, rfl, hsign⟩
  · have hnone : takeAll isSign ⟨rest, eof, reports⟩ = .ok [] ⟨rest, eof, reports⟩ := by
      cases rest with
      | nil => rfl
      | cons t after => simp [takeAll, hunwanted t rfl]
    rw [Grammar.bind_ok (take?_unwanted hunwanted), Grammar.bind_ok hnone]
    simp only [List.foldr_nil, bind_pure]
  · have hall : takeAll isSign ⟨t :: after, eof, reports⟩ =
        .ok (t :: after.takeWhile fun t => isSign t.kind) ⟨after.dropWhile fun t => isSign t.kind, eof, reports⟩ := by
      simp [takeAll, hsign]
    have hafter : takeAll isSign ⟨after, eof, reports⟩ =
        .ok (after.takeWhile fun t => isSign t.kind) ⟨after.dropWhile fun t => isSign t.kind, eof, reports⟩ := rfl
    rw [Grammar.bind_ok (take?_wanted hsign after eof reports), Grammar.bind_ok hall]
    simp only [bind_assoc, pure_bind, List.foldr_cons]
    rw [Grammar.bind_ok hafter]

theorem unary_tracks (hended : Ended ts eof) {inner : Walk Node} {inner' : Parser Node}
    (h : Tracks ts eof m 1 (call (ts ++ [eof]) n inner) (Grammar.call bound inner')) (hfuel : m ≤ fuel) :
    Tracks ts eof m 1 (unary (ts ++ [eof]) n inner fuel) (Grammar.unary bound inner') := by
  induction m generalizing fuel with
  | zero => exact .zero
  | succ m ih =>
    obtain ⟨fuel, rfl⟩ := Nat.exists_eq_succ_of_ne_zero (Nat.ne_zero_of_lt hfuel)
    have hright := ih (h.mono (Nat.le_succ m) le_rfl) (Nat.le_of_succ_le_succ hfuel)
    rw [unary_eq]
    refine .accept hended ⟨fun kind => by cases kind <;> simp [isSign], by simp⟩ (fun sign => ?_) h
    exact (hright.loose le_rfl).bind fun right => .pure _

theorem operandsAfter_tracks (hended : Ended ts eof) {wanted : Kind → Bool} {operators : List Kind}
    (hkinds : Lists wanted operators) (build : Node → Node → Node → Node) {operand : Walk Node} {operand' : Parser Node}
    (h : Tracks ts eof m 1 operand operand') (hm : n ≤ m + 1) (hfuel : n ≤ fuel) (hbound : n ≤ bound) (left : Node) :
    Tracks ts eof n 0 (operandsAfter (ts ++ [eof]) operators build operand fuel left)
      (Grammar.operandsAfter wanted build operand' bound left) := by
  induction n generalizing fuel bound left with
  | zero => exact .zero
  | succ n ih =>
    obtain ⟨fuel, rfl⟩ := Nat.exists_eq_succ_of_ne_zero (Nat.ne_zero_of_lt hfuel)
    obtain ⟨bound, rfl⟩ := Nat.exists_eq_succ_of_ne_zero (Nat.ne_zero_of_lt hbound)
    refine .accept hended hkinds (fun operator => ?_) (.pure _)
    refine (h.loose (Nat.le_of_succ_le_succ hm)).bind fun right => ?_
    exact ih (Nat.le_of_succ_le hm) (Nat.le_of_succ_le_succ hfuel) (Nat.le_of_succ_le_succ hbound) _

/-- Behind the first operand there is one token less, so the bounds of the loop suffice. -/
theorem leftLevel_tracks (hended : Ended ts eof) {wanted : Kind → Bool} {operators : List Kind}
    (hkinds : Lists wanted operators) (build : Node → Node → Node → Node) {operand : Walk Node} {operand' : Parser Node}
    (h : Tracks ts eof (m + 1) 1 operand operand') (hfuel : m ≤ fuel) (hbound : m ≤ bound) :
    Tracks ts eof (m + 1) 1 (leftLevel (ts ++ [eof]) fuel operators build operand)
      (Grammar.leftLevel bound wanted build operand') :=
  h.bind fun left => operandsAfter_tracks hended hkinds build h (by omega) hfuel hbound left

theorem disjunction_tracks (hended : Ended ts eof) (h : Tracks ts eof m 1 inner inner') (hfuel : m + 1 ≤ fuel)
    (hbound : m ≤ bound) :
    Tracks ts eof (m + 1) 1 (disjunction (ts ++ [eof]) fuel inner) (Grammar.disjunction bound inner') := by
  have hloop : m ≤ fuel := Nat.le_of_succ_le hfuel
  have hunary := unary_tracks hended (call_tracks hended h hloop hbound) hfuel
  have hfactor : Tracks ts eof (m + 1) 1 (factor (ts ++ [eof]) fuel inner) (Grammar.factor bound inner') :=
    leftLevel_tracks hended ⟨fun kind => by cases kind <;> simp [isFactorOperator], by simp⟩ _ hunary hloop hbound
  have hterm : Tracks ts eof (m + 1) 1 (term (ts ++ [eof]) fuel inner) (Grammar.term bound inner') :=
    leftLevel_tracks hended ⟨fun kind => by cases kind <;> simp [isTermOperator], by simp⟩ _ hfactor hloop hbound
  have hcomparison : Tracks ts eof (m + 1) 1 (comparison (ts ++ [eof]) fuel inner) (Grammar.comparison bound inner') :=
    leftLevel_tracks hended ⟨fun kind => by cases kind <;> simp [isComparisonOperator], by simp⟩ _ hterm hloop hbound
  have hequality : Tracks ts eof (m + 1) 1 (equality (ts ++ [eof]) fuel inner) (Grammar.equality bound inner') :=
    leftLevel_tracks hended ⟨fun kind => by cases kind <;> simp [isEqualityOperator], by simp⟩ _ hcomparison hloop hbound
  have hconjunction : Tracks ts eof (m + 1) 1 (conjunction (ts ++ [eof]) fuel inner)
      (Grammar.conjunction bound inner') := leftLevel_tracks hended (.one .kwAnd (by decide)) _ hequality hloop hbound
  exact leftLevel_tracks hended (.one .kwOr (by decide)) _ hconjunction hloop hbound

theorem assignment_tracks (hended : Ended ts eof) (h : Tracks ts eof m 1 inner inner') (hfuel : m + 1 ≤ fuel)
    (hbound : m ≤ bound) :
    Tracks ts eof (m + 1) 1 (assignment (ts ++ [eof]) fuel inner) (Grammar.assignment bound inner') := by
  refine (disjunction_tracks hended h hfuel hbound).bind fun left => ?_
  refine .accept hended (.one _ (by decide)) (fun equals => ?_) (.pure _)
  refine (h.loose (Nat.sub_le m 1)).bind fun value => ?_
  cases left with
  | reference name => exact .pure _
  | _ => exact (Tracks.report equals _).bind fun _ => .pure _

end

theorem expression_tracks (hended : Ended ts eof) {m fuel bound : Nat} (hfuel : m ≤ fuel) (hbound : m ≤ bound) :
    Tracks ts eof m 1 (expression (ts ++ [eof]) fuel) (Grammar.expression bound) := by
  induction m generalizing fuel bound with
  | zero => exact .zero
  | succ m ih =>
    obtain ⟨fuel, rfl⟩ := Nat.exists_eq_succ_of_ne_zero (Nat.ne_zero_of_lt hfuel)
    obtain ⟨bound, rfl⟩ := Nat.exists_eq_succ_of_ne_zero (Nat.ne_zero_of_lt hbound)
    have hinner := ih (Nat.le_of_succ_le_succ hfuel) (Nat.le_of_succ_le_succ hbound)
    exact assignment_tracks hended hinner hfuel (Nat.le_of_succ_le_succ hbound)

/-! ### Simple statements -/

section

variable {m fuel bound : Nat}

theorem expressionStatement_tracks (hended : Ended ts eof) (hfuel : m ≤ fuel) (hbound : m ≤ bound) :
    Tracks ts eof m 1 (expressionStatement (ts ++ [eof]) fuel) (Grammar.expressionStatement bound) := by
  refine (expression_tracks hended hfuel hbound).bind fun value => ?_
  exact (Tracks.expect_loose hended .semicolon (by decide) _).bind fun _ => .pure _

theorem printStatement_tracks (hended : Ended ts eof) (hfuel : m ≤ fuel) (hbound : m ≤ bound) :
    Tracks ts eof m 1 (printStatement (ts ++ [eof]) fuel) (Grammar.printStatement bound) := by
  refine (expression_tracks hended hfuel hbound).bind fun value => ?_
  exact (Tracks.expect_loose hended .semicolon (by decide) _).bind fun _ => .pure _

theorem optionalUnless_tracks (hended : Ended ts eof) (hfuel : m ≤ fuel) (hbound : m ≤ bound) (kind : Kind)
    (hkind : kind ≠ .eof) :
    Tracks ts eof m 0 (optionalUnless (ts ++ [eof]) fuel kind) (Grammar.optionalUnless bound kind) := by
  refine (Tracks.check hended kind hkind).bind fun isThere => ?_
  cases isThere with
  | true => exact .pure _
  | false => exact ((expression_tracks hended hfuel hbound).loose le_rfl).bind fun value => .pure _

theorem returnStatement_tracks (hended : Ended ts eof) (hfuel : m ≤ fuel) (hbound : m ≤ bound) (inFunction : Bool)
    (keyword : Token) : Tracks ts eof m 0 (returnStatement (ts ++ [eof]) fuel inFunction keyword)
      (Grammar.returnStatement bound inFunction keyword) := by
  have hbehind : Tracks ts eof m 0 (returnStatement (ts ++ [eof]) fuel true keyword)
      (Grammar.returnStatement bound true keyword) := by
    refine (optionalUnless_tracks hended hfuel hbound .semicolon (by decide)).bind fun value => ?_
    exact (Tracks.expect_loose hended .semicolon (by decide) _).bind fun _ => .pure _
  cases inFunction with
  | true => exact hbehind
  | false => exact (Tracks.report keyword _).bind fun _ => hbehind

theorem variableDeclaration_tracks (hended : Ended ts eof) (hfuel : m ≤ fuel) (hbound : m ≤ bound) :
    Tracks ts eof m 1 (variableDeclaration (ts ++ [eof]) fuel) (Grammar.variableDeclaration bound) := by
  have hend (name : Token) (initial : Node) (n : Nat) : Tracks ts eof n 0 (do
      let _ ← expect (ts ++ [eof]) .semicolon "';' after variable declaration"
      return Node.var (.token name) initial) (do
      let _ ← Grammar.expect .semicolon "';' after variable declaration"
      return Node.var (.token name) initial) :=
    (Tracks.expect_loose hended .semicolon (by decide) _).bind fun _ => .pure _
  refine (Tracks.expect hended .identifier (by decide) _).bind fun name => ?_
  refine .accept hended (.one _ (by decide)) (fun t => ?_) (hend name .null _)
  exact ((expression_tracks hended hfuel hbound).loose (by omega)).bind fun initial => hend name initial _

/-! ### Statements with parts -/

variable {step : Walk Node} {step' : Parser Node}

theorem ifStatement_tracks (hended : Ended ts eof) (hfuel : m ≤ fuel) (hbound : m ≤ bound)
    (h : Tracks ts eof m 0 step step') :
    Tracks ts eof m 0 (ifStatement (ts ++ [eof]) fuel step) (Grammar.ifStatement bound step') := by
  refine (Tracks.expect_loose hended .leftParen (by decide) _).bind fun _ => ?_
  refine ((expression_tracks hended hfuel hbound).loose le_rfl).bind fun condition => ?_
  refine (Tracks.expect_loose hended .rightParen (by decide) _).bind fun _ => h.bind fun yes => ?_
  exact .accept hended (.one _ (by decide)) (fun t => (h.loose (Nat.sub_le m 1)).bind fun no => .pure _) (.pure _)

theorem whileStatement_tracks (hended : Ended ts eof) (hfuel : m ≤ fuel) (hbound : m ≤ bound)
    (h : Tracks ts eof m 0 step step') :
    Tracks ts eof m 0 (whileStatement (ts ++ [eof]) fuel step) (Grammar.whileStatement bound step') := by
  refine (Tracks.expect_loose hended .leftParen (by decide) _).bind fun _ => ?_
  refine ((expression_tracks hended hfuel hbound).loose le_rfl).bind fun condition => ?_
  exact (Tracks.expect_loose hended .rightParen (by decide) _).bind fun _ => h.bind fun body => .pure _

theorem forInitial_tracks (hended : Ended ts eof) (hfuel : m ≤ fuel) (hbound : m ≤ bound) :
    Tracks ts eof m 0 (forInitial (ts ++ [eof]) fuel) (Grammar.forInitial bound) := by
  refine .choose hended ⟨fun kind => by cases kind <;> simp, by simp⟩ ?_ ?_
  · simp only [List.forall_mem_cons, List.not_mem_nil, false_imp_iff, implies_true, and_true]
    constructor
    · intro t hkind
      simp only [hkind]
      exact .pure _
    · intro t hkind
      simp only [hkind]
      exact ((variableDeclaration_tracks hended hfuel hbound).loose (Nat.sub_le m 1)).bind fun initial => .pure _
  · exact ((expressionStatement_tracks hended hfuel hbound).loose le_rfl).bind fun initial => .pure _

theorem forStatement_tracks (hended : Ended ts eof) (hfuel : m ≤ fuel) (hbound : m ≤ bound)
    (h : Tracks ts eof m 0 step step') :
    Tracks ts eof m 0 (forStatement (ts ++ [eof]) fuel step) (Grammar.forStatement bound step') := by
  refine (Tracks.expect_loose hended .leftParen (by decide) _).bind fun _ => ?_
  refine (forInitial_tracks hended hfuel hbound).bind fun initial => ?_
  refine (optionalUnless_tracks hended hfuel hbound .semicolon (by decide)).bind fun condition => ?_
  refine (Tracks.expect_loose hended .semicolon (by decide) _).bind fun _ => ?_
  refine (optionalUnless_tracks hended hfuel hbound .rightParen (by decide)).bind fun increment => ?_
  exact (Tracks.expect_loose hended .rightParen (by decide) _).bind fun _ => h.bind fun body => .pure _

end

/-! ### Recovery -/

/-- Behind the last token taken, skipping goes on as long as there are tokens to skip. -/
theorem skip_eq (hended : Ended ts eof) {w : Position} {fuel index : Nat} {last : Token} (hcurrent : w.current = index + 1)
    (hlast : ts[index]? = some last) (hinside : w.current ≤ ts.length) (hfuel : ts.length < w.current + fuel) :
    ∃ w', skip (ts ++ [eof]) fuel w = .ok () w' ∧
      w'.view ts eof = { w.view ts eof with rest := skipAfter last (w.view ts eof).rest } ∧
      w.current ≤ w'.current ∧ w'.current ≤ ts.length := by
  induction fuel generalizing w index last with
  | zero => omega
  | succ fuel ih =>
    unfold skip
    rw [bind_ok (isAtEnd_eq hended hinside)]
    rcases view_cases hinside with ⟨-, hview⟩ | ⟨t, -, ht, hview⟩
    · refine ⟨w, ?_, ?_, le_rfl, hinside⟩
      · rw [hview]
        rfl
      · rw [hview]
        rfl
    · have hnext : (w.view ts eof).atEnd = false := by rw [hview]; rfl
      rw [hnext, if_neg Bool.false_ne_true, bind_ok (previous_eq hcurrent hlast)]
      by_cases hsemicolon : (last.kind == .semicolon) = true
      · refine ⟨w, ?_, ?_, le_rfl, hinside⟩
        · rw [if_pos hsemicolon]
          rfl
        · rw [hview, skipAfter, hsemicolon, Bool.true_or, if_pos rfl]
      rw [if_neg hsemicolon, bind_ok (peek_eq hinside), hview]
      by_cases hstarts : startsStatement t.kind = true
      · refine ⟨w, ?_, ?_, le_rfl, hinside⟩
        · show (if startsStatement t.kind = true then pure () else _ : Walk Unit) w = _
          rw [if_pos hstarts]
          rfl
        · rw [hview, skipAfter, hstarts, Bool.or_true, if_pos rfl]
      obtain ⟨w', hskip, hview', hkept, hinside'⟩ :=
        @ih w.next w.current t rfl ht (List.getElem?_eq_some_iff.mp ht).1 (by show ts.length < w.current + 1 + fuel; omega)
      refine ⟨w', ?_, ?_, Nat.le_of_succ_le hkept, hinside'⟩
      · show (if startsStatement t.kind = true then pure () else _ : Walk Unit) w = _
        rw [if_neg hstarts, bind_ok (advance_eq hended ht)]
        exact hskip
      · rw [hview', skipAfter, if_neg (by simp [hsemicolon, hstarts])]
        rfl

/-- Unless the end is reached, synchronizing moves on by a token at least. -/
theorem synchronize_eq (hended : Ended ts eof) {w : Position} {fuel : Nat} (hinside : w.current ≤ ts.length)
    (hpos : 0 < ts.length) (hfuel : ts.length < w.current + fuel) :
    ∃ w', synchronize (ts ++ [eof]) fuel w = .ok () w' ∧
      w'.view ts eof = { w.view ts eof with rest := Grammar.synchronize (w.view ts eof).rest } ∧
      (w.current < w'.current ∨ w.current = ts.length) ∧ w.current ≤ w'.current ∧ w'.current ≤ ts.length := by
  unfold synchronize
  rcases view_cases hinside with ⟨hend, hview⟩ | ⟨t, -, ht, hview⟩
  · obtain ⟨fuel, rfl⟩ : ∃ less, fuel = less + 1 := Nat.exists_eq_succ_of_ne_zero (by omega)
    obtain ⟨t, hadvance⟩ := advance_atEnd hended hend hpos
    refine ⟨w, ?_, ?_, .inr hend, le_rfl, hinside⟩
    · rw [bind_ok hadvance, skip, bind_ok (isAtEnd_eq hended hinside), hview]
      rfl
    · rw [hview]
      rfl
  · have hlt := (List.getElem?_eq_some_iff.mp ht).1
    obtain ⟨w', hskip, hview', hkept, hinside'⟩ :=
      @skip_eq _ _ hended w.next fuel _ t rfl ht hlt (by show ts.length < w.current + 1 + fuel; omega)
    refine ⟨w', ?_, ?_, .inl hkept, Nat.le_of_succ_le hkept, hinside'⟩
    · rw [bind_ok (advance_eq hended ht)]
      exact hskip
    · rw [hview', hview]
      rfl

/-- At every place with fewer than `m` tokens left, but not at the end, the walk comes to its end as the parser does,
does not panic, and moves on. -/
def Advances (ts : List Token) (eof : Token) (m : Nat) (q : Walk α) (p : Parser α) : Prop :=
  ∀ w : Position, w.current < ts.length → ts.length < w.current + m → ∃ a w', q w = .ok a w' ∧
    p (w.view ts eof) = .ok a (w'.view ts eof) ∧ w.current < w'.current ∧ w'.current ≤ ts.length

/-- A panic without a token taken is stopped one token further. A panic at the end comes behind tokens that were taken. -/
theorem recover_advances (hended : Ended ts eof) {m fuel : Nat} {q : Walk α} {p : Parser α} (h : Tracks ts eof m 1 q p)
    (hfuel : m ≤ fuel) : Advances ts eof m (recover (ts ++ [eof]) fuel q) (Grammar.recover p) := by
  intro w hlt hleft
  generalize hwalk : q w = r
  generalize hparse : p (w.view ts eof) = r'
  have hends := h w hlt.le hleft
  rw [hwalk, hparse] at hends
  cases hends with
  | @ok a w' htaken hinside =>
    refine ⟨some a, w', ?_, ?_, htaken, hinside⟩
    · have hfirst : (q >>= fun a => pure (some a)) w = .ok (some a) w' := bind_ok hwalk
      simp only [recover, orElse, hfirst]
    · simp only [Grammar.recover, hparse]
  | @panicked w' hkept hinside =>
    have hfirst : (q >>= fun a => pure (some a)) w = .error .panic w' := bind_error hwalk
    have hleft' : ts.length < w'.current + fuel := by omega
    obtain ⟨w'', hsync, hview, hmoved, hkept', hinside'⟩ := synchronize_eq hended hinside (by omega) hleft'
    refine ⟨none, w'', ?_, ?_, by omega, hinside'⟩
    · simp only [recover, orElse, hfirst]
      rw [bind_ok hsync]
      rfl
    · simp only [Grammar.recover, hparse, hview]

/-! ### Declarations -/

section

variable {m n fuel bound : Nat} {item : Walk (Option Node)} {item' : Parser (Option Node)}

/-- Each round takes a token, so the items end before the rounds do: where the walk is told to stop, or at the end. -/
theorem itemsUntil_eq (hended : Ended ts eof) (stop : Walk Bool) (stop' : Cursor → Bool)
    (hstop : ∀ w : Position, w.current ≤ ts.length → stop w = .ok (stop' (w.view ts eof)) w)
    (h : Advances ts eof m item item') (hm : n ≤ m) (hfuel : n ≤ fuel) (hbound : n ≤ bound) (w : Position)
    (hinside : w.current ≤ ts.length) (hleft : ts.length < w.current + n) :
    ∃ items w', itemsUntil (ts ++ [eof]) stop item fuel w = .ok items w' ∧
      Grammar.itemsUntil stop' item' bound (w.view ts eof) = .ok items (w'.view ts eof) ∧
      w.current ≤ w'.current ∧ w'.current ≤ ts.length ∧
      (stop' (w'.view ts eof) = true ∨ w'.current = ts.length) := by
  induction n generalizing fuel bound w with
  | zero => omega
  | succ n ih =>
    obtain ⟨fuel, rfl⟩ := Nat.exists_eq_succ_of_ne_zero (Nat.ne_zero_of_lt hfuel)
    obtain ⟨bound, rfl⟩ := Nat.exists_eq_succ_of_ne_zero (Nat.ne_zero_of_lt hbound)
    unfold itemsUntil
    rw [bind_ok (hstop w hinside)]
    cases hstopped : stop' (w.view ts eof) with
    | true => exact ⟨[], w, rfl, itemsUntil_stop (by rw [hstopped, Bool.true_or]), le_rfl, hinside, .inl hstopped⟩
    | false =>
      rw [if_neg Bool.false_ne_true, bind_ok (isAtEnd_eq hended hinside)]
      rcases view_cases hinside with ⟨hend, hview⟩ | ⟨t, -, ht, hview⟩
      · have hatEnd : (w.view ts eof).atEnd = true := by rw [hview]; rfl
        rw [hatEnd]
        exact ⟨[], w, rfl, itemsUntil_stop (by rw [hatEnd, Bool.or_true]), le_rfl, hinside, .inr hend⟩
      · have hnext : (w.view ts eof).atEnd = false := by rw [hview]; rfl
        obtain ⟨first, mid, hwalk, hparse, hmoved, hmid⟩ := h w (List.getElem?_eq_some_iff.mp ht).1 (by omega)
        obtain ⟨rest, w', hwalk', hparse', hkept, hinside', hwhy⟩ :=
          ih (by omega) (Nat.le_of_succ_le_succ hfuel) (Nat.le_of_succ_le_succ hbound) mid hmid (by omega)
        refine ⟨first.toList ++ rest, w', ?_, ?_, hmoved.le.trans hkept, hinside', hwhy⟩
        · rw [hnext, if_neg Bool.false_ne_true, bind_ok hwalk, bind_ok hwalk']
          rfl
        · rw [itemsUntil_step (by rw [hstopped, hnext]; rfl), Grammar.bind_ok hparse, Grammar.bind_ok hparse']
          rfl

theorem block_tracks (hended : Ended ts eof) (h : Advances ts eof m item item') (hfuel : m ≤ fuel) (hbound : m ≤ bound) :
    Tracks ts eof m 0 (block (ts ++ [eof]) fuel item) (Grammar.block bound item') := by
  have hitems : Tracks ts eof m 0 (itemsUntil (ts ++ [eof]) (check (ts ++ [eof]) .rightBrace) item fuel)
      (Grammar.itemsUntil (Cursor.isAt .rightBrace) item' bound) := by
    intro w hinside hleft
    obtain ⟨items, w', hwalk, hparse, hkept, hinside', -⟩ := itemsUntil_eq hended (check (ts ++ [eof]) .rightBrace)
      (Cursor.isAt .rightBrace) (fun w hw => check_eq hended hw (by decide)) h le_rfl hfuel hbound w hinside hleft
    rw [hwalk, hparse]
    exact .ok items hkept hinside'
  exact hitems.bind fun statements => (Tracks.expect_loose hended .rightBrace (by decide) _).bind fun _ => .pure _

theorem functionDeclaration_tracks (hended : Ended ts eof) (h : Advances ts eof m item item') (hfuel : m ≤ fuel)
    (hbound : m ≤ bound) : Tracks ts eof m 0 (functionDeclaration (ts ++ [eof]) fuel item)
      (Grammar.functionDeclaration bound item') := by
  have hparam : Tracks ts eof m 1 (expect (ts ++ [eof]) .identifier "parameter name")
      (Grammar.expect .identifier "parameter name") := .expect hended .identifier (by decide) _
  refine (Tracks.expect_loose hended .identifier (by decide) _).bind fun name => ?_
  refine (Tracks.expect_loose hended .leftParen (by decide) _).bind fun _ => ?_
  refine (commaList_tracks hended "parameters" hparam hfuel hbound).bind fun params => ?_
  refine (Tracks.expect_loose hended .rightParen (by decide) _).bind fun _ => ?_
  refine (Tracks.expect_loose hended .leftBrace (by decide) _).bind fun _ => ?_
  exact (block_tracks hended h hfuel hbound).bind fun body => .pure _

end

section

variable {m fuel bound : Nat} {inFunction : Bool}

/-- Inside of a statement there is one token less. -/
theorem statement_succ_tracks (hended : Ended ts eof) (hfuel : m + 1 ≤ fuel) (hbound : m + 1 ≤ bound)
    (hstep : Tracks ts eof m 0 (statement (ts ++ [eof]) fuel inFunction) (Grammar.statement bound inFunction))
    (hitem : Advances ts eof m (declaration (ts ++ [eof]) fuel inFunction) (Grammar.declaration bound inFunction)) :
    Tracks ts eof (m + 1) 1 (statement (ts ++ [eof]) (fuel + 1) inFunction)
      (Grammar.statement (bound + 1) inFunction) := by
  have hless : m ≤ fuel := Nat.le_of_succ_le hfuel
  have hless' : m ≤ bound := Nat.le_of_succ_le hbound
  refine .choose hended ⟨fun kind => by cases kind <;> simp [startsPlainStatement], by simp⟩ ?_
    (expressionStatement_tracks hended hfuel hbound)
  simp only [List.forall_mem_cons, List.not_mem_nil, false_imp_iff, implies_true, and_true]
  refine ⟨?_, ?_, ?_, ?_, ?_, ?_⟩
  all_goals
    intro t hkind
    simp only [hkind]
  · exact ifStatement_tracks hended hless hless' hstep
  · exact (printStatement_tracks hended hless hless').loose le_rfl
  · exact whileStatement_tracks hended hless hless' hstep
  · exact forStatement_tracks hended hless hless' hstep
  · exact returnStatement_tracks hended hless hless' inFunction t
  · exact (block_tracks hended hitem hless hless').bind fun statements => .pure _

/-- Inside of a function there is one token less, but a declaration may be a statement with all of its tokens. -/
theorem declaration_succ_advances (hended : Ended ts eof) (hfuel : m + 1 ≤ fuel) (hbound : m + 1 ≤ bound)
    (hstep : Tracks ts eof (m + 1) 1 (statement (ts ++ [eof]) fuel inFunction) (Grammar.statement bound inFunction))
    (hbody : Advances ts eof m (declaration (ts ++ [eof]) fuel true) (Grammar.declaration bound true)) :
    Advances ts eof (m + 1) (declaration (ts ++ [eof]) (fuel + 1) inFunction)
      (Grammar.declaration (bound + 1) inFunction) := by
  have hless : m ≤ fuel := Nat.le_of_succ_le hfuel
  have hless' : m ≤ bound := Nat.le_of_succ_le hbound
  refine recover_advances hended (.choose hended ⟨fun kind => by cases kind <;> simp, by simp⟩ ?_ hstep) hfuel
  simp only [List.forall_mem_cons, List.not_mem_nil, false_imp_iff, implies_true, and_true]
  refine ⟨?_, ?_⟩
  all_goals
    intro t hkind
    simp only [hkind]
  · exact functionDeclaration_tracks hended hbody hless hless'
  · exact (variableDeclaration_tracks hended hless hless').loose le_rfl

end

/-- Statements and declarations contain each other, and only a statement that is a declaration has as many tokens as that.
So two steps inwards take a token at least, and twice the number of tokens is fuel enough. -/
theorem statement_tracks_declaration_advances (hended : Ended ts eof) (m : Nat) :
    (∀ fuel bound inFunction, 2 * m ≤ fuel → 2 * m ≤ bound →
      Tracks ts eof m 1 (statement (ts ++ [eof]) fuel inFunction) (Grammar.statement bound inFunction)) ∧
    (∀ fuel bound inFunction, 2 * m + 1 ≤ fuel → 2 * m + 1 ≤ bound →
      Advances ts eof m (declaration (ts ++ [eof]) fuel inFunction) (Grammar.declaration bound inFunction)) := by
  induction m with
  | zero => exact ⟨fun _ _ _ _ _ => .zero, fun _ _ _ _ _ w hlt hleft => by omega⟩
  | succ m ih =>
    obtain ⟨ihstatement, ihdeclaration⟩ := ih
    have hstatement (fuel bound : Nat) (inFunction : Bool) (hfuel : 2 * (m + 1) ≤ fuel) (hbound : 2 * (m + 1) ≤ bound) :
        Tracks ts eof (m + 1) 1 (statement (ts ++ [eof]) fuel inFunction) (Grammar.statement bound inFunction) := by
      obtain ⟨fuel, rfl⟩ : ∃ less, fuel = less + 1 := Nat.exists_eq_succ_of_ne_zero (by omega)
      obtain ⟨bound, rfl⟩ : ∃ less, bound = less + 1 := Nat.exists_eq_succ_of_ne_zero (by omega)
      exact statement_succ_tracks hended (by omega) (by omega)
        ((ihstatement fuel bound inFunction (by omega) (by omega)).loose le_rfl)
        (ihdeclaration fuel bound inFunction (by omega) (by omega))
    refine ⟨hstatement, fun fuel bound inFunction hfuel hbound => ?_⟩
    obtain ⟨fuel, rfl⟩ : ∃ less, fuel = less + 1 := Nat.exists_eq_succ_of_ne_zero (by omega)
    obtain ⟨bound, rfl⟩ : ∃ less, bound = less + 1 := Nat.exists_eq_succ_of_ne_zero (by omega)
    exact declaration_succ_advances hended (by omega) (by omega)
      (hstatement fuel bound inFunction (by omega) (by omega)) (ihdeclaration fuel bound true (by omega) (by omega))

/-! ### Whole lists -/

theorem program_eq (hended : Ended ts eof) {fuel : Nat} (hfuel : boundFor ts ≤ fuel) :
    program (ts ++ [eof]) fuel ⟨0, []⟩ =
      .ok (parseProgramTokens ts eof).result ⟨ts.length, (parseProgramTokens ts eof).diagnostics⟩ := by
  have hbound : 2 * (ts.length + 1) + 1 ≤ boundFor ts := by rw [boundFor]; omega
  have hrounds : ts.length + 1 ≤ boundFor ts := by omega
  have hitem := (statement_tracks_declaration_advances hended (ts.length + 1)).2 fuel (boundFor ts) false
    (hbound.trans hfuel) hbound
  obtain ⟨items, w', hwalk, hparse, -, -, hwhy⟩ := itemsUntil_eq hended (pure false) (fun _ => false) (fun _ _ => rfl)
    hitem le_rfl (hrounds.trans hfuel) hrounds ⟨0, []⟩ (Nat.zero_le _) (by show ts.length < 0 + (ts.length + 1); omega)
  have hend : w'.current = ts.length := hwhy.resolve_left Bool.false_ne_true
  have hprogram : Grammar.program (boundFor ts) ⟨ts, eof, []⟩ = .ok items (w'.view ts eof) := hparse
  have hparsed : parseProgramTokens ts eof = ⟨items, w'.reports⟩ := by
    simp only [parseProgramTokens, parseTokens, hprogram, Option.getD_some, Position.view]
  rw [hparsed, ← hend]
  exact hwalk

/-- Behind an expression there is a previous token, so the one that marks the end can be asked for. -/
theorem expect_eof_eq (hended : Ended ts eof) {w : Position} (hpos : 0 < w.current) (hinside : w.current ≤ ts.length)
    (what : String) :
    ((w.view ts eof).atEnd = true ∧ ∃ t, expect (ts ++ [eof]) .eof what w = .ok t w) ∨
      ((w.view ts eof).atEnd = false ∧ expect (ts ++ [eof]) .eof what w = fail (ts ++ [eof]) (.expected what) w) := by
  rcases view_cases hinside with ⟨hend, hview⟩ | ⟨t, hmem, -, hview⟩
  · obtain ⟨t, hadvance⟩ := advance_atEnd hended hend (hend ▸ hpos)
    have hcheck : check (ts ++ [eof]) .eof w = .ok true w := by
      rw [check, bind_ok (isAtEnd_eq hended hinside), hview]
      rfl
    refine .inl ⟨by rw [hview]; rfl, t, ?_⟩
    rw [expect, bind_ok hcheck]
    exact hadvance
  · have hcheck : check (ts ++ [eof]) .eof w = .ok false w := by
      rw [check, bind_ok (isAtEnd_eq hended hinside), hview]
      show (peek (ts ++ [eof]) >>= fun t => pure (t.kind == .eof)) w = _
      rw [bind_ok (peek_eq hinside), hview]
      exact congrArg (EStateM.Result.ok · w) (beq_false_of_ne (hended.only t hmem))
    refine .inr ⟨by rw [hview]; rfl, ?_⟩
    rw [expect, bind_ok hcheck]
    rfl

theorem wholeExpression_eq (hended : Ended ts eof) {fuel : Nat} (hfuel : boundFor ts ≤ fuel) :
    ∃ place ≤ ts.length, wholeExpression (ts ++ [eof]) fuel ⟨0, []⟩ =
      .ok (parseExpressionTokens ts eof).result ⟨place, (parseExpressionTokens ts eof).diagnostics⟩ := by
  have hbound : ts.length + 1 ≤ boundFor ts := by rw [boundFor]; omega
  have hends := expression_tracks hended (hbound.trans hfuel) hbound ⟨0, []⟩ (Nat.zero_le _)
    (by show ts.length < 0 + (ts.length + 1); omega)
  change Ends ts eof 1 ⟨0, []⟩ _ (Grammar.expression (boundFor ts) ⟨ts, eof, []⟩) at hends
  generalize hwalk : expression (ts ++ [eof]) fuel ⟨0, []⟩ = r at hends
  generalize hparse : Grammar.expression (boundFor ts) ⟨ts, eof, []⟩ = r' at hends
  unfold wholeExpression orElse parseExpressionTokens parseTokens Grammar.wholeExpression
  cases hends with
  | @panicked w' hkept hinside =>
    refine ⟨w'.current, hinside, ?_⟩
    rw [bind_error hwalk, Grammar.bind_error hparse]
    rfl
  | @ok value w' htaken hinside =>
    refine ⟨w'.current, hinside, ?_⟩
    have hlook (f : Cursor → Parser Node) : (get >>= f) (w'.view ts eof) = f (w'.view ts eof) (w'.view ts eof) := rfl
    rw [bind_ok hwalk, Grammar.bind_ok hparse, hlook]
    rcases expect_eof_eq hended (by omega) hinside "end of expression" with ⟨hatEnd, t, hexpect⟩ | ⟨hnext, hexpect⟩
    · rw [bind_ok hexpect, hatEnd]
      rfl
    · have hfail : (fail (ts ++ [eof]) (.expected "end of expression") : Walk Token) w' = .error .panic
          { w' with reports := w'.reports ++ [(w'.view ts eof).peek.complain (.expected "end of expression")] } := by
        rw [fail, bind_ok (peek_eq hinside)]
        rfl
      rw [bind_error (hexpect.trans hfail), hnext]
      rfl

end LoxLang.Grammar.Walk

namespace LoxLang

open Grammar

/-- For every list whose last token is the only one that marks an end, and whenever there is fuel enough: parsing a program
comes to its end at the last token, parsing an expression comes to its end inside the list, and a declaration that starts
before the last token ends further on and inside the list, whatever is wrong with it. All of them give what the other
parser gives, and none of them ever asks for a token outside of the list or moves to a place outside of it. -/
theorem walks_stay_inside (ts : List Token) (eof : Token) (hended : Ended ts eof) :
    (∀ fuel, boundFor ts ≤ fuel → Walk.program (ts ++ [eof]) fuel ⟨0, []⟩ =
      .ok (parseProgramTokens ts eof).result ⟨ts.length, (parseProgramTokens ts eof).diagnostics⟩) ∧
    (∀ fuel, boundFor ts ≤ fuel → ∃ place ≤ ts.length, Walk.wholeExpression (ts ++ [eof]) fuel ⟨0, []⟩ =
      .ok (parseExpressionTokens ts eof).result ⟨place, (parseExpressionTokens ts eof).diagnostics⟩) ∧
    ∀ (w : Position) (inFunction : Bool), w.current < ts.length → ∀ fuel, 2 * (ts.length - w.current) + 3 ≤ fuel →
      ∃ declared w', Walk.declaration (ts ++ [eof]) fuel inFunction w = .ok declared w' ∧
        Grammar.declaration fuel inFunction (w.view ts eof) = .ok declared (w'.view ts eof) ∧
        w.current < w'.current ∧ w'.current ≤ ts.length := by
  refine ⟨fun _ => Walk.program_eq hended, fun _ => Walk.wholeExpression_eq hended, ?_⟩
  intro w inFunction hlt fuel hfuel
  have hadvances := (Walk.statement_tracks_declaration_advances hended (ts.length - w.current + 1)).2 fuel fuel inFunction
    (by omega) (by omega)
  exact hadvances w hlt (by omega)

/-- A token that cannot start anything, and nothing else: the declaration panics without having taken it. -/
def loneElse : Token := ⟨.kwElse, .str "else", .null, 1⟩

theorem walks_stay_inside_loneElse :
    Walk.program [loneElse, .atEnd 1] 5 ⟨0, []⟩ = .ok [] ⟨1, [loneElse.complain (.expected "expression")]⟩ ∧
    (∃ place ≤ 1, Walk.wholeExpression [loneElse, .atEnd 1] 5 ⟨0, []⟩ =
      .ok none ⟨place, [loneElse.complain (.expected "expression")]⟩) ∧
    ∃ w', Walk.declaration [loneElse, .atEnd 1] 5 false ⟨0, []⟩ = .ok none w' ∧ w'.current = 1 := by
  have hended : Ended [loneElse] (.atEnd 1) := ⟨rfl, by simp [loneElse]⟩
  obtain ⟨hprogram, hexpression, hdeclaration⟩ := walks_stay_inside [loneElse] (.atEnd 1) hended
  refine ⟨hprogram 5 le_rfl, hexpression 5 le_rfl, ?_⟩
  obtain ⟨declared, w', hwalk, hparse, hmoved, hinside⟩ := hdeclaration ⟨0, []⟩ false Nat.zero_lt_one 5 le_rfl
  obtain rfl : none = declared := (EStateM.Result.ok.inj hparse).1
  exact ⟨w', hwalk, le_antisymm hinside hmoved⟩

end LoxLang
