import LoxLang.Proofs.Grammar.Sequence
/-!
# Errors of statements next to each other

A malformed run of tokens that ends in its only semicolon, holds no braces and starts no statement behind its first token
does not disturb its neighbours: however deep inside of an expression a panic arises, it arises before that semicolon, and
skipping ends right behind it. So runs of this kind and runs without a diagnostic parse together as they parse alone.
-/

namespace LoxLang

namespace Grammar

variable {α β : Type}

/-- The last token is the only semicolon, and the others are of these kinds. -/
def OneSemicolon (others : Kind → Prop) (ts : List Token) : Prop :=
  ∃ init last, ts = init ++ [last] ∧ last.kind = .semicolon ∧ ∀ t ∈ init, t.kind ≠ .semicolon ∧ others t.kind

namespace OneSemicolon

variable {others : Kind → Prop} {ts taken more : List Token}

theorem ne_nil (h : OneSemicolon others ts) : ts ≠ [] := by
  obtain ⟨init, last, rfl, -⟩ := h
  simp

theorem of_append (h : OneSemicolon others (taken ++ more)) (htaken : ∀ t ∈ taken, t.kind ≠ .semicolon) :
    OneSemicolon others more := by
  obtain ⟨init, last, hts, hlast, hinit⟩ := h
  rcases List.append_eq_append_iff.mp hts with ⟨between, rfl, rfl⟩ | ⟨between, rfl, hmore⟩
  · exact ⟨between, last, rfl, hlast, fun t ht => hinit t (by simp [ht])⟩
  · cases between with
    | nil => exact ⟨[], last, hmore.symm, hlast, by simp⟩
    | cons t between =>
      obtain ⟨rfl, -⟩ := List.cons.inj hmore
      exact absurd hlast (htaken last (by simp))

/-- The next token is the semicolon, and nothing stands behind it, or it is one of the others. -/
theorem cases_head (h : OneSemicolon others ts) : (∃ last, ts = [last] ∧ last.kind = .semicolon) ∨
    ∃ t rest, ts = t :: rest ∧ t.kind ≠ .semicolon ∧ others t.kind := by
  obtain ⟨init, last, rfl, hlast, hinit⟩ := h
  cases init with
  | nil => exact .inl ⟨last, rfl, hlast⟩
  | cons t init => exact .inr ⟨t, init ++ [last], rfl, hinit t (by simp)⟩

end OneSemicolon

/-! ### Panics before the semicolon -/

/-- With one semicolon ahead, the parser takes all tokens or panics before it has. -/
def Settles (others : Kind → Prop) (m : Nat) (p : Parser α) : Prop :=
  ∀ ⦃c : Cursor⦄, c.rest.length < m → OneSemicolon others c.rest →
    ∃ o taken more new, Run p c o taken more new ∧ (more = [] ↔ o.isSome)

/-- What expressions may take and report. -/
def inside : Limits := ⟨fun k => inExpression k = true, fun _ => True⟩

theorem inside_lenient : inside.Lenient := ⟨fun _ h => h, fun _ _ => trivial⟩

namespace Settles

variable {others : Kind → Prop} {m n k : Nat} {p q : Parser α} {f : α → Parser β}

theorem lower (h : Settles others m p) {m' : Nat} (hm : m' ≤ m) : Settles others m' p := fun _ hc => h (hc.trans_le hm)

/-- What is read inside of a statement does not reach the semicolon. -/
theorem after (hp : Local m n k inside p q) (hf : ∀ a, Settles others m (f a)) : Settles others m (p >>= f) := by
  intro c hc hone
  obtain ⟨o, taken, more, new, hrun, -, htakes, -⟩ := hp.runs hc
  rw [hrun.rest] at hone
  have hmore : OneSemicolon others more := by
    refine hone.of_append fun t ht hkind => ?_
    have := htakes t ht
    rw [hkind] at this
    cases this
  cases o with
  | none => exact ⟨none, taken, more, new, hrun.bind_none, by simp [hmore.ne_nil]⟩
  | some a =>
    obtain ⟨o, taken', more', new', hrun', hends⟩ :=
      hf a (c := c.after more new) (Cursor.length_rest_after_lt hc hrun.rest (Nat.zero_le _)) hmore
    exact ⟨o, _, more', _, hrun.bind_some hrun', hends⟩

theorem semicolon {what : String} {b : Token → β} :
    Settles others m (expect .semicolon what >>= fun t => pure (b t)) := by
  intro c hc hone
  rcases hone.cases_head with ⟨last, hrest, hlast⟩ | ⟨t, rest, hrest, ht, -⟩
  · exact ⟨_, _, _, _, .expect_some hlast hrest (.pure _ _), by simp⟩
  · exact ⟨none, [], c.rest, _, .expect_none (by simp [hrest, Unwanted, ht]), by simp [hrest]⟩

/-- A token that is not there is asked for. -/
theorem refused {kind : Kind} {what : String} {f : Token → Parser β} (hkind : kind ≠ .semicolon)
    (hothers : ∀ k, others k → k ≠ kind) : Settles others m (expect kind what >>= f) := by
  intro c hc hone
  have hunwanted : Unwanted (· == kind) c.rest := by
    rcases hone.cases_head with ⟨last, hrest, hlast⟩ | ⟨t, rest, hrest, -, ht⟩
    · simpa [hrest, Unwanted, hlast] using hkind.symm
    · simpa [hrest, Unwanted] using hothers _ ht
  exact ⟨none, [], c.rest, _, .expect_none hunwanted, by simp [hone.ne_nil]⟩

/-- Behind the semicolon nothing is left that could go wrong. -/
theorem bind (hp : Settles others m p) (hf : ∀ a c, c.rest = [] → ∃ b, Run (f a) c (some b) [] [] []) :
    Settles others m (p >>= f) := by
  intro c hc hone
  obtain ⟨o, taken, more, new, hrun, hends⟩ := hp hc hone
  cases o with
  | none => exact ⟨none, taken, more, new, hrun.bind_none, by simpa using hends⟩
  | some a =>
    obtain rfl : more = [] := hends.mpr rfl
    obtain ⟨b, hb⟩ := hf a (c.after [] new) rfl
    exact ⟨some b, _, [], _, hrun.bind_some hb, by simp⟩

theorem map (hp : Settles others m p) {g : α → β} : Settles others m (p >>= fun a => pure (g a)) :=
  hp.bind fun a c hc => ⟨g a, by simpa [hc] using Run.pure (g a) c⟩

end Settles

section Statements

variable {others : Kind → Prop} {b m : Nat} {inner : Parser Node} {item : Parser (Option Node)}

theorem semicolon_settles (hb : m ≤ b) {what : String} {build : Node → Node} : Settles others m
    (expression b >>= fun value => expect .semicolon what >>= fun _ => pure (build value)) :=
  .after ((expression_local inside_lenient b b).lower hb hb le_rfl) fun _ => .semicolon

theorem returnStatement_settles (hb : m ≤ b) {inFunction : Bool} {keyword : Token} :
    Settles others m (returnStatement b inFunction keyword) := by
  have hvalue : Settles others m (returnStatement b true keyword) :=
    .after (optionalUnless_local inside_lenient hb hb) fun _ => .semicolon
  cases inFunction with
  | true => exact hvalue
  | false => exact .after (n := m) (Local.report trivial) fun _ => hvalue

theorem variableDeclaration_settles (hb : m ≤ b) : Settles others m (variableDeclaration b) := by
  have hequal : Local m m 0 inside (take? (· == .equal)) (take? (· == .equal)) :=
    .takeOne fun k hk => by rw [eq_of_beq hk]; rfl
  refine .after (n := m) (.expectOne rfl) fun name => .after hequal fun o => ?_
  cases o with
  | none => exact .semicolon
  | some t => exact semicolon_settles hb

theorem ifStatement_settles (hb : m ≤ b) (h : Settles others m inner) : Settles others m (ifStatement b inner) := by
  refine .after (n := m) (.expectOne rfl) fun _ =>
    .after ((expression_local inside_lenient b b).lower hb hb le_rfl) fun condition =>
    .after (n := m) (.expectOne rfl) fun _ => h.bind fun yes c hc => ?_
  have hnone : Unwanted (· == .kwElse) c.rest := by simp [hc, Unwanted]
  refine ⟨.branch condition yes .null, .take?_none hnone ?_⟩
  simpa [hc] using Run.pure (Node.branch condition yes .null) c

theorem whileStatement_settles (hb : m ≤ b) (h : Settles others m inner) : Settles others m (whileStatement b inner) :=
  .after (n := m) (.expectOne rfl) fun _ =>
    .after ((expression_local inside_lenient b b).lower hb hb le_rfl) fun _ =>
    .after (n := m) (.expectOne rfl) fun _ => h.map

theorem functionDeclaration_settles (hb : m ≤ b) (hothers : ∀ k, others k → k ≠ .leftBrace) :
    Settles others m (functionDeclaration b item) :=
  .after (n := m) (.expectOne rfl) fun _ => .after (n := m) (.expectOne rfl) fun _ =>
    .after (commaList_local inside_lenient (.expectOne rfl) hb hb) fun _ => .after (n := m) (.expectOne rfl) fun _ =>
    .refused (by decide) hothers

end Statements

/-- The kinds that do not start a statement other than an expression. -/
def plainKind (k : Kind) : Prop := startsStatement k = false ∧ k ≠ .leftBrace

theorem startsPlainStatement_of_plainKind {k : Kind} (h : plainKind k) : startsPlainStatement k = false := by
  obtain ⟨hstarts, hbrace⟩ := h
  cases k <;> first | rfl | exact absurd rfl hbrace | exact absurd hstarts (by decide)

/-- Among tokens that start no statement, a statement is an expression. -/
theorem statement_settles (b : Nat) (inFunction : Bool) : Settles plainKind (b / 2) (statement b inFunction) := by
  cases b with
  | zero => exact fun c hc => absurd hc (by omega)
  | succ b =>
    intro c hc hone
    have hunwanted : Unwanted startsPlainStatement c.rest := by
      rcases hone.cases_head with ⟨last, hrest, hlast⟩ | ⟨t, rest, hrest, -, ht⟩
      · simp [hrest, Unwanted, hlast, startsPlainStatement]
      · simpa [hrest, Unwanted] using startsPlainStatement_of_plainKind ht
    have hexpression : Settles plainKind ((b + 1) / 2) (expressionStatement b) := semicolon_settles (by omega)
    obtain ⟨o, taken, more, new, hrun, hends⟩ := hexpression hc hone
    exact ⟨o, taken, more, new, .take?_none hunwanted hrun, hends⟩

/-! ### Runs with one semicolon -/

/-- A run of tokens that one declaration could be, as far as its first and its last token show. -/
structure ClosedRun (ts : List Token) : Prop where
  braces : ∀ t ∈ ts, t.kind ≠ .leftBrace ∧ t.kind ≠ .rightBrace
  closed : EndsInSemicolon ts
  once : ∀ t ∈ ts.dropLast, t.kind ≠ .semicolon
  first : ∀ t ∈ ts.head?, t.kind ≠ .kwFor ∧ t.kind ≠ .kwElse
  behind : ∀ t ∈ ts.tail, startsStatement t.kind = false

namespace ClosedRun

variable {ts : List Token}

theorem oneSemicolon (h : ClosedRun ts) : OneSemicolon (fun _ => True) ts := by
  obtain ⟨last, hlast, hkind⟩ := h.closed
  obtain ⟨init, rfl⟩ := List.getLast?_eq_some_iff.mp hlast
  refine ⟨init, last, rfl, hkind, fun t ht => ⟨h.once t ?_, trivial⟩⟩
  rwa [List.dropLast_concat]

/-- Behind a first token that is not the semicolon only plain kinds stand. -/
theorem oneSemicolon_tail {t : Token} {rest : List Token} (h : ClosedRun (t :: rest)) (ht : t.kind ≠ .semicolon) :
    OneSemicolon plainKind rest := by
  have hone : OneSemicolon (fun _ => True) ([t] ++ rest) := h.oneSemicolon
  obtain ⟨init, last, hrest, hlast, hinit⟩ := hone.of_append (by simpa using ht)
  refine ⟨init, last, hrest, hlast, fun s hs => ⟨(hinit s hs).1, h.behind s ?_, (h.braces s ?_).1⟩⟩
  · rw [hrest]
    exact List.mem_append_left _ hs
  · rw [hrest]
    exact List.mem_cons_of_mem _ (List.mem_append_left _ hs)

/-- A run that is one declaration is taken as a whole, and any other one is not. -/
theorem settles (h : ClosedRun ts) {b : Nat} {c : Cursor} (hrest : c.rest = ts) (hc : c.rest.length < b / 2)
    (inFunction : Bool) :
    ∃ o taken more new, Run (bareDeclaration b inFunction) c o taken more new ∧ (more = [] ↔ o.isSome) := by
  obtain ⟨b, rfl⟩ : ∃ b', b = b' + 1 := ⟨b - 1, by omega⟩
  -- What follows the first token is read as inside of a statement.
  have hstep {wanted : Kind → Bool} {f : Option Token → Parser Node} {t : Token} {after : List Token}
      (ht : wanted t.kind = true) (hwanted : wanted .semicolon = false) (hcons : c.rest = t :: after)
      (hf : Settles plainKind ((b + 1) / 2 - 1) (f (some t))) :
      ∃ o taken more new, Run (take? wanted >>= f) c o taken more new ∧ (more = [] ↔ o.isSome) := by
    have hone : OneSemicolon plainKind after := by
      rw [← hrest, hcons] at h
      refine h.oneSemicolon_tail fun hkind => ?_
      rw [hkind, hwanted] at ht
      cases ht
    obtain ⟨o, taken, more, new, hrun, hends⟩ := hf (Cursor.length_rest_after_cons_lt hc hcons) hone
    exact ⟨o, t :: taken, more, new, .take?_some ht hcons hrun, hends⟩
  rcases unwanted_or_cons (fun k => k == .kwFun || k == .kwVar) c.rest with hplain | ⟨t, after, hcons, ht⟩
  · have hstatement : ∃ o taken more new, Run (statement (b + 1) inFunction) c o taken more new ∧
        (more = [] ↔ o.isSome) := by
      rw [statement_succ]
      rcases unwanted_or_cons startsPlainStatement c.rest with hunwanted | ⟨t, after, hcons, ht⟩
      · have hexpression : Settles (fun _ => True) ((b + 1) / 2) (expressionStatement b) := semicolon_settles (by omega)
        obtain ⟨o, taken, more, new, hrun, hends⟩ := hexpression hc (hrest ▸ h.oneSemicolon)
        exact ⟨o, taken, more, new, .take?_none hunwanted hrun, hends⟩
      · have hfirst : t.kind ≠ .kwFor ∧ t.kind ≠ .leftBrace := by
          rw [← hrest, hcons] at h
          exact ⟨(h.first t rfl).1, (h.braces t (by simp)).1⟩
        refine hstep ht rfl hcons ?_
        dsimp only
        split
        · exact ifStatement_settles (by omega) ((statement_settles b inFunction).lower (by omega))
        · exact semicolon_settles (by omega)
        · exact whileStatement_settles (by omega) ((statement_settles b inFunction).lower (by omega))
        next hkind => exact absurd hkind hfirst.1
        · exact returnStatement_settles (by omega)
        next hif hprint hwhile hfor hreturn =>
          exact absurd (leftBrace_of_startsPlainStatement ht hif hprint hwhile hfor hreturn) hfirst.2
    obtain ⟨o, taken, more, new, hrun, hends⟩ := hstatement
    exact ⟨o, taken, more, new, .take?_none hplain hrun, hends⟩
  · refine hstep ht rfl hcons ?_
    dsimp only
    split
    · exact functionDeclaration_settles (by omega) fun k hk => hk.2
    · exact variableDeclaration_settles (by omega)

/-- Skipping from within a run ends behind its semicolon. -/
theorem synchronize_eq_nil {taken more : List Token} (h : ClosedRun (taken ++ more)) : synchronize more = [] := by
  cases more with
  | nil => rfl
  | cons t more =>
    have hskip {last : Token} {ts : List Token} (hts : ∀ s ∈ (last :: ts).dropLast, s.kind ≠ .semicolon)
        (hstarts : ∀ s ∈ ts, startsStatement s.kind = false) : skipAfter last ts = [] := by
      induction ts generalizing last with
      | nil => rfl
      | cons s ts ih =>
        obtain ⟨hlast, hts⟩ := List.forall_mem_cons.mp hts
        obtain ⟨hs, hstarts⟩ := List.forall_mem_cons.mp hstarts
        rw [skipAfter, if_neg (by simp [hlast, hs])]
        exact ih hts hstarts
    refine hskip (fun s hs => h.once s ?_) fun s hs => h.behind s ?_
    · rw [List.dropLast_append_of_ne_nil (by simp)]
      exact List.mem_append_right _ hs
    · cases taken with
      | nil => exact hs
      | cons t' taken => exact List.mem_append_right _ (List.mem_cons_of_mem _ hs)

/-- One declaration is read off a run, or none if it is malformed, also with other tokens behind it. -/
theorem declaration_run (h : ClosedRun ts) (eof : Token) : ∃ o new, ∀ behind eof' b, Unwanted (· == .kwElse) behind →
    (ts ++ behind).length < b / 2 →
    Run (declaration (b + 1) false) ⟨ts ++ behind, eof', []⟩ (some o) ts behind new := by
  obtain ⟨o, taken, more, new, hrun⟩ := Grammar.declaration_run (b := 2 * ts.length + 2) (c := ⟨ts, eof, []⟩) false
    (by simp only; omega)
  obtain ⟨o₁, taken₁, more₁, new₁, hbare, hends⟩ := h.settles (b := 2 * ts.length + 2) (c := ⟨ts, eof, []⟩) rfl
    (by simp only; omega) false
  obtain rfl : more = [] := by
    cases o₁ with
    | some a =>
      obtain ⟨-, -, rfl, -⟩ := hrun.unique hbare.recover_some
      exact hends.mpr rfl
    | none =>
      obtain ⟨skipped, hskipped⟩ := exists_skipped more₁
      obtain ⟨-, -, rfl, -⟩ := hrun.unique (hbare.recover_none hskipped)
      obtain rfl : ts = taken₁ ++ more₁ := hbare.rest
      exact h.synchronize_eq_nil
  obtain rfl : ts = taken := by simpa using hrun.rest
  refine ⟨o, new, fun behind eof' b hbehind hb => ?_⟩
  refine declaration_append (c := ⟨ts, eof, []⟩) (by simp only; omega) hb h.closed rfl hbehind ?_ hrun
  intro taken new hpanic
  obtain ⟨rfl, -, rfl, -⟩ := hpanic.unique hbare
  simp at hends

/-- A run parses in front of other tokens as it parses alone. -/
theorem parse_append (h : ClosedRun ts) {behind : List Token} (hbehind : Unwanted (· == .kwElse) behind) (eof eof' : Token) :
    parseProgramTokens (ts ++ behind) eof = (parseProgramTokens ts eof').append (parseProgramTokens behind eof) := by
  have hne : ts ≠ [] := h.oneSemicolon.ne_nil
  obtain ⟨o, new, hrun⟩ := h.declaration_run eof'
  have halone := hrun [] eof' (2 * ts.length + 2) (by simp [Unwanted]) (by rw [List.append_nil]; omega)
  rw [List.append_nil] at halone
  rw [parseProgramTokens_eq_append (b := 2 * (ts ++ behind).length + 2) (by simp [hne]) (by omega)
      (hrun behind eof _ hbehind (by omega)),
    parseProgramTokens_eq_append (b := 2 * ts.length + 2) hne (by omega) halone, parseProgramTokens_nil]
  simp [Parsed.append]

theorem unwanted_else (h : ClosedRun ts) (behind : List Token) : Unwanted (· == .kwElse) (ts ++ behind) := by
  cases ts with
  | nil => exact absurd rfl h.oneSemicolon.ne_nil
  | cons t ts =>
    have := (h.first t rfl).2
    simpa [Unwanted] using this

end ClosedRun

end Grammar

open Grammar

/-- **Isolation of statements.** Runs of tokens that each parse without a diagnostic, or are closed, parse together as they
parse alone: the statements and the diagnostics of the whole are those of the runs, one after the other. -/
theorem parseProgramTokens_flatten (runs : List (List Token)) (ends : List Token → Token) (eof : Token)
    (h : ∀ ts ∈ runs, (parseProgramTokens ts (ends ts)).diagnostics = [] ∨ ClosedRun ts) :
    parseProgramTokens runs.flatten eof =
      ⟨runs.flatMap fun ts => (parseProgramTokens ts (ends ts)).result,
        runs.flatMap fun ts => (parseProgramTokens ts (ends ts)).diagnostics⟩ := by
  have hstart (runs : List (List Token))
      (h : ∀ ts ∈ runs, (parseProgramTokens ts (ends ts)).diagnostics = [] ∨ ClosedRun ts) :
      Unwanted (· == .kwElse) runs.flatten := by
    induction runs with
    | nil => simp [Unwanted]
    | cons ts runs ih =>
      obtain ⟨hts, hruns⟩ := List.forall_mem_cons.mp h
      rcases hts with hclean | hclosed
      · exact unwanted_else_of_clean hclean (ih hruns)
      · exact hclosed.unwanted_else _
  induction runs with
  | nil => rfl
  | cons ts runs ih =>
    obtain ⟨hts, hruns⟩ := List.forall_mem_cons.mp h
    have hcut : parseProgramTokens (ts ++ runs.flatten) eof =
        (parseProgramTokens ts (ends ts)).append (parseProgramTokens runs.flatten eof) := by
      rcases hts with hclean | hclosed
      · exact parseProgramTokens_append_of_clean hclean (hstart runs hruns) eof
      · exact hclosed.parse_append (hstart runs hruns) eof (ends ts)
    rw [List.flatten_cons, hcut, ih hruns]
    rfl

/-- A malformed run between two statements. -/
theorem parseProgramTokens_flatten_threeRuns :
    let token (k : Kind) : Token := ⟨k, .str k.name, .null, 1⟩
    let statement := [token .kwPrint, token .kwNil, token .semicolon]
    let malformed := [token .kwVar, token .plus, token .semicolon]
    (parseProgramTokens statement (.atEnd 1)).diagnostics = [] ∧ ClosedRun malformed ∧
      parseProgramTokens [statement, malformed, statement].flatten (.atEnd 1) =
        ⟨[.print (.literal .null), .print (.literal .null)], [⟨1, .at "PLUS", .expected "variable name"⟩]⟩ := by
  intro token statement malformed
  have hstatement : (parseProgramTokens statement (.atEnd 1)).diagnostics = [] := rfl
  have hmalformed : ClosedRun malformed :=
    ⟨by decide, ⟨token .semicolon, rfl, rfl⟩, by decide, by decide, by decide⟩
  refine ⟨hstatement, hmalformed, ?_⟩
  rw [parseProgramTokens_flatten [statement, malformed, statement] (fun _ => .atEnd 1) (.atEnd 1)]
  · rfl
  · intro ts hts
    rcases hts with _ | ⟨_, _ | ⟨_, _ | ⟨_, ⟨⟩⟩⟩⟩
    · exact .inl hstatement
    · exact .inr hmalformed
    · exact .inl hstatement

end LoxLang
