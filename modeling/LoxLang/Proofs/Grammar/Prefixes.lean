import LoxLang.Proofs.Grammar.Completion
import LoxLang.Proofs.Grammar.Sequence
/-!
# The first token that cannot stand where it stands

The first panic of a parse is met at the first token that no program has behind the tokens before it. The tokens before
it can be completed to a program, and with the token itself nothing can be.

Panics are counted by a parser that gives up at the first one. It is the same grammar with a guard that stops nothing, and
up to its panic it does what the parser does that goes on.
-/

namespace LoxLang

open Grammar

namespace Grammar

variable {α β : Type}

/-! ### Up to the first panic -/

/-- The second parser does what the first one does, but may go on where that one panics. -/
structure Follows (p q : Parser α) : Prop where
  keeps : ∀ c, c.reports <+: (endOf (q c)).reports
  ok : ∀ {c c' : Cursor} {a : α}, p c = .ok a c' → q c = .ok a c'
  panic : ∀ {c c' : Cursor} {e : Panic}, p c = .error e c' → c'.reports <+: (endOf (q c)).reports

namespace Follows

variable {p q : Parser α} {f g : α → Parser β}

theorem self (h : ∀ c, c.reports <+: (endOf (p c)).reports) : Follows p p where
  keeps := h
  ok h := h
  panic h := by rw [h]; exact List.prefix_rfl

theorem reads {b : Nat} {R : List Token → α → List Token → Prop} (h : Reads b R p) : Follows p p := self h.keeps

theorem pure {a : α} : Follows (Pure.pure a) (Pure.pure a) := self fun _ => List.prefix_rfl

theorem bind (hp : Follows p q) (hf : ∀ a, Follows (f a) (g a)) : Follows (p >>= f) (q >>= g) where
  keeps c := by
    have hfirst := hp.keeps c
    cases hq : q c with
    | error e c' =>
      rw [hq] at hfirst
      rw [bind_error hq]
      exact hfirst
    | ok a c' =>
      rw [hq] at hfirst
      rw [bind_ok hq]
      exact hfirst.trans ((hf a).keeps c')
  ok {c _ _} h := by
    cases hrun : p c with
    | error e c' =>
      rw [bind_error hrun] at h
      cases h
    | ok a c' =>
      rw [bind_ok hrun] at h
      rw [bind_ok (hp.ok hrun)]
      exact (hf a).ok h
  panic {c _ _} h := by
    cases hrun : p c with
    | ok a c' =>
      rw [bind_ok hrun] at h
      rw [bind_ok (hp.ok hrun)]
      exact (hf a).panic h
    | error e c' =>
      rw [bind_error hrun] at h
      cases h
      have hfirst := hp.panic hrun
      -- The second parser may have gone on, and what it did then is only known to keep the reports.
      cases hq : q c with
      | error e c' =>
        rw [hq] at hfirst
        rw [bind_error hq]
        exact hfirst
      | ok a c' =>
        rw [hq] at hfirst
        rw [bind_ok hq]
        exact hfirst.trans ((hf a).keeps c')

theorem look {f g : Cursor → Parser β} (h : ∀ c, Follows (f c) (g c)) : Follows (get >>= f) (get >>= g) where
  keeps c := (h c).keeps c
  ok {c _ _} := (h c).ok
  panic {c _ _} := (h c).panic

theorem take? {wanted : Kind → Bool} {f g : Option Token → Parser β} (h : ∀ o, Follows (f o) (g o)) :
    Follows (Grammar.take? wanted >>= f) (Grammar.take? wanted >>= g) := by
  have htake : Reads 0 (fun _ _ _ => True) (Grammar.take? wanted >>= Pure.pure) :=
    .take? (fun _ _ => .pure fun _ => trivial) (.pure fun _ _ => trivial)
  rw [bind_pure] at htake
  exact (reads htake).bind h

theorem expect {kind : Kind} {what : String} {f g : Token → Parser β} (h : ∀ t, Follows (f t) (g t)) :
    Follows (Grammar.expect kind what >>= f) (Grammar.expect kind what >>= g) := by
  have hexpect : Reads 0 _ (Grammar.expect kind what) := expect_reads
  exact (reads hexpect).bind h

theorem strictly_recover {p q : Parser Node} (h : Follows p q) : Follows (strictly p) (recover q) where
  keeps c := by
    have := h.keeps c
    cases hq : q c <;> simpa only [recover, hq, endOf] using this
  ok {c _ _} hok := by
    cases hrun : p c with
    | error e c' =>
      rw [strictly, bind_error hrun] at hok
      cases hok
    | ok a c' =>
      rw [strictly, bind_ok hrun] at hok
      cases hok
      simp only [recover, h.ok hrun]
  panic {c _ _} hpanic := by
    cases hrun : p c with
    | ok a c' =>
      rw [strictly, bind_ok hrun] at hpanic
      cases hpanic
    | error e c' =>
      rw [strictly, bind_error hrun] at hpanic
      cases hpanic
      have := h.panic hrun
      cases hq : q c <;> simpa only [recover, hq, endOf] using this

end Follows

section Round

variable {b : Nat} {inner inner' : Parser Node} {item item' : Parser (Option Node)}

theorem itemsUntil_follows {stop : Cursor → Bool} (h : Follows item item') :
    Follows (itemsUntil stop item b) (itemsUntil stop item' b) := by
  induction b with
  | zero => exact .pure
  | succ b ih =>
    refine .look fun c => .look fun c' => ?_
    split
    · exact .pure
    · exact h.bind fun _ => ih.bind fun _ => .pure

theorem expression_follows : Follows (expression b) (expression b) := .reads (expression_reads b)

theorem block_follows (h : Follows item item') : Follows (block b item) (block b item') :=
  (itemsUntil_follows h).bind fun _ => .expect fun _ => .pure

theorem ifStatement_follows (h : Follows inner inner') : Follows (ifStatement b inner) (ifStatement b inner') := by
  refine .expect fun _ => expression_follows.bind fun _ => .expect fun _ => h.bind fun _ => .take? fun o => ?_
  cases o with
  | none => exact .pure
  | some t => exact h.bind fun _ => .pure

theorem whileStatement_follows (h : Follows inner inner') : Follows (whileStatement b inner) (whileStatement b inner') :=
  .expect fun _ => expression_follows.bind fun _ => .expect fun _ => h.bind fun _ => .pure

theorem forStatement_follows (h : Follows inner inner') : Follows (forStatement b inner) (forStatement b inner') := by
  have hclause {kind : Kind} : Follows (optionalUnless b kind) (optionalUnless b kind) :=
    .reads (optionalUnless_reads le_rfl)
  exact .expect fun _ => (Follows.reads (forInitial_reads le_rfl)).bind fun _ => hclause.bind fun _ => .expect fun _ =>
    hclause.bind fun _ => .expect fun _ => h.bind fun _ => .pure

theorem functionDeclaration_follows (h : Follows item item') :
    Follows (functionDeclaration b item) (functionDeclaration b item') :=
  .expect fun _ => .expect fun _ => (Follows.reads (commaList_reads le_rfl expect_reads)).bind fun _ => .expect fun _ =>
    .expect fun _ => (block_follows h).bind fun _ => .pure

theorem statementBody_follows (h : Follows inner inner') (hitem : Follows item item') {inFunction : Bool} :
    Follows (statementBody b inFunction inner item) (statementBody b inFunction inner' item') := by
  refine .take? fun o => ?_
  cases o with
  | none => exact .reads (semicolon_reads le_rfl)
  | some t =>
    dsimp only
    split
    · exact ifStatement_follows h
    · exact .reads (semicolon_reads le_rfl)
    · exact whileStatement_follows h
    · exact forStatement_follows h
    next hkind => exact .reads (returnStatement_reads hkind le_rfl)
    · exact (block_follows hitem).bind fun _ => .pure

theorem declarationBody_follows (h : Follows inner inner') (hitem : Follows item item') :
    Follows (declarationBody b inner item) (declarationBody b inner' item') := by
  refine .take? fun o => ?_
  cases o with
  | none => exact h
  | some t =>
    dsimp only
    split
    · exact functionDeclaration_follows hitem
    · exact .reads (variableDeclaration_reads le_rfl)

end Round

theorem statement_declaration_follows (b : Nat) (inFunction : Bool) :
    Follows (statementWith strictly b inFunction) (statement b inFunction) ∧
      Follows (declarationWith strictly b inFunction) (declaration b inFunction) := by
  induction b generalizing inFunction with
  | zero => exact ⟨.self fun _ => List.prefix_rfl, .self fun _ => List.prefix_rfl⟩
  | succ b ih =>
    obtain ⟨hstatement, hdeclaration⟩ := ih inFunction
    obtain ⟨-, hinner⟩ := ih true
    exact ⟨statementBody_follows hstatement hdeclaration, (declarationBody_follows hstatement hinner).strictly_recover⟩

/-! ### Programs without recovery -/

/-- The declarations of a program up to the first panic. -/
def strictDeclarations (bound rounds : Nat) : Parser (List Node) :=
  itemsUntil (fun _ => false) (declarationWith strictly bound false) rounds

theorem strictDeclarations_follows (b r : Nat) : Follows (strictDeclarations b r) (declarations b r) :=
  itemsUntil_follows (statement_declaration_follows b false).2

theorem strictDeclarations_local {b b' r r' m n : Nat} (hb : m ≤ (b - 1) / 2) (hb' : n ≤ (b' - 1) / 2) (hr : m ≤ r)
    (hr' : n ≤ r') : Local m n 0 soft (strictDeclarations b r) (strictDeclarations b' r') := by
  obtain ⟨-, hdeclaration, hprogress⟩ := statementWith_declarationWith_local soft_open guards_strictly b b' false
  exact itemsUntil_local (fun _ _ _ => rfl) hdeclaration hprogress hb hb' hr hr'

theorem strictDeclarations_completes {b r m : Nat} (hb : m ≤ (b - 1) / 2) (hr : m ≤ r) :
    Completes m 2 0 (· = none) isName (strictDeclarations b r) := by
  refine itemsUntil_completes (statement_declaration_completes b false).2 (fun c => ?_) ?_ nofun nofun hb hr
  · simp only [atEnd_eq_nextKind, Bool.false_or, beq_iff_eq]
  · rintro _ rfl
    nofun

end Grammar

/-! ### Panics of a parse -/

/-- No diagnostic is one of a panic. -/
def PanicFree (ts : List Token) (eof : Token) : Prop := ∀ d ∈ (parseProgramTokens ts eof).diagnostics, d.isPanic = false

/-- The parse that gives up at the first panic. -/
def strictProgram (ts : List Token) : Parser (List Node) := strictDeclarations (boundFor ts) (boundFor ts)

/-- How many tokens stand before the one at which a parse panics for the first time. -/
def firstPanic? (ts : List Token) (eof : Token) : Option Nat :=
  match strictProgram ts ⟨ts, eof, []⟩ with
  | .ok _ _ => none
  | .error _ c => some (ts.length - c.rest.length)

section Runs

variable {ts taken more : List Token} {eof : Token} {new : List Diagnostic}

/-- The bounds of a parse can be exchanged for any others that are enough. -/
theorem strictProgram_local {b r n : Nat} (ts : List Token) (hb : n ≤ (b - 1) / 2) (hr : n ≤ r) :
    Local (ts.length + 1) n 0 soft (strictProgram ts) (strictDeclarations b r) ∧
      Local n (ts.length + 1) 0 soft (strictDeclarations b r) (strictProgram ts) := by
  have hbound : ts.length + 1 ≤ (boundFor ts - 1) / 2 := by simp only [boundFor]; omega
  have hrounds : ts.length + 1 ≤ boundFor ts := by simp only [boundFor]; omega
  exact ⟨strictDeclarations_local hbound hb hrounds hr, strictDeclarations_local hb hbound hr hrounds⟩

theorem strictProgram_run (ts : List Token) (eof : Token) : ∃ o taken more new,
    Run (strictProgram ts) ⟨ts, eof, []⟩ o taken more new ∧ Reported soft.reports (more.headD eof) o new := by
  have hlocal := (strictProgram_local ts (Nat.zero_le ((0 - 1) / 2)) (Nat.zero_le 0)).1
  obtain ⟨o, taken, more, new, hrun, hreported, -⟩ := hlocal.runs (c := ⟨ts, eof, []⟩) (Nat.lt_succ_self _)
  exact ⟨o, taken, more, new, hrun, hreported⟩

/-- If the strict parse ends with a result, so does the other one: it takes all tokens and does not panic. -/
theorem panicFree_of_run {statements : List Node}
    (hrun : Run (strictProgram ts) ⟨ts, eof, []⟩ (some statements) taken more new) : more = [] ∧ PanicFree ts eof := by
  have hbound : ts.length < (2 * ts.length + 2) / 2 := by omega
  have hparse : Run (declarations (boundFor ts) (boundFor ts)) ⟨ts, eof, []⟩ (some statements) taken more new :=
    ⟨hrun.rest, (strictDeclarations_follows _ _).ok hrun.ends⟩
  obtain ⟨statements', new', hparse'⟩ := declarations_run (b := 2 * ts.length + 2) (r := boundFor ts) (c := ⟨ts, eof, []⟩)
    hbound (by simp only [boundFor]; omega)
  obtain ⟨-, -, hmore, -⟩ := hparse.unique hparse'
  obtain ⟨o, taken', more', new'', hrun', hreported⟩ := strictProgram_run ts eof
  obtain ⟨rfl, rfl, rfl, rfl⟩ := hrun.unique hrun'
  refine ⟨hmore, ?_⟩
  rw [PanicFree, parseProgramTokens_eq_of_run hbound (by simp only [boundFor]; omega) hparse]
  exact hreported

/-- The first panic of a parse is where the strict one ends. -/
theorem diagnostics_of_run (hrun : Run (strictProgram ts) ⟨ts, eof, []⟩ none taken more new) : ∃ before what after,
    (parseProgramTokens ts eof).diagnostics = before ++ (more.headD eof).complain (.expected what) :: after ∧
      ∀ d ∈ before, d.isPanic = false := by
  have hbound : ts.length < (2 * ts.length + 2) / 2 := by omega
  obtain ⟨o, taken', more', new', hrun', hreported⟩ := strictProgram_run ts eof
  obtain ⟨rfl, rfl, rfl, rfl⟩ := hrun.unique hrun'
  obtain ⟨before, what, rfl, hbefore⟩ := hreported
  obtain ⟨statements, new, hparse⟩ := declarations_run (b := 2 * ts.length + 2) (r := boundFor ts) (c := ⟨ts, eof, []⟩)
    hbound (by simp only [boundFor]; omega)
  obtain ⟨after, hafter⟩ := (strictDeclarations_follows _ _).panic hrun.ends
  refine ⟨before, what, after, ?_, hbefore⟩
  rw [parseProgramTokens_eq_of_run hbound (by simp only [boundFor]; omega) hparse]
  have hends : (endOf (declarations (boundFor ts) (boundFor ts) ⟨ts, eof, []⟩)).reports = [] ++ new :=
    congrArg (fun r => (endOf r).reports) hparse.ends
  rw [hends] at hafter
  simpa [Cursor.after] using hafter.symm

theorem not_panicFree_of_run (hrun : Run (strictProgram ts) ⟨ts, eof, []⟩ none taken more new) : ¬ PanicFree ts eof := by
  obtain ⟨before, what, after, hdiagnostics, -⟩ := diagnostics_of_run hrun
  intro hfree
  have := hfree ((more.headD eof).complain (.expected what)) (by simp [hdiagnostics])
  cases this

theorem firstPanic?_of_run (hrun : Run (strictProgram ts) ⟨ts, eof, []⟩ none taken more new) :
    firstPanic? ts eof = some taken.length := by
  have hlength : ts.length = taken.length + more.length := by rw [← List.length_append, ← hrun.rest]
  rw [firstPanic?, hrun.ends]
  simp only [ending, Cursor.rest_after]
  rw [hlength, Nat.add_sub_cancel]

/-- What the strict parse has taken when it panics can be completed. -/
theorem exists_completion_of_run (hrun : Run (strictProgram ts) ⟨ts, eof, []⟩ none taken more new) :
    ∃ z, (∀ t ∈ z, t.kind ≠ .eof) ∧ ∀ eof', PanicFree (taken ++ z) eof' := by
  -- A bound that is enough for the completed list.
  obtain ⟨m, hm⟩ : ∃ m, m = 9 * ts.length + 3 := ⟨_, rfl⟩
  have hlength : ts.length = taken.length + more.length := by rw [← List.length_append, ← hrun.rest]
  have hcompletes : Completes m 2 0 (· = none) isName (strictDeclarations (2 * m + 1) m) :=
    strictDeclarations_completes (by omega) le_rfl
  have hlarge := (strictProgram_local (b := 2 * m + 1) (r := m) (n := m) ts (by omega) le_rfl).1.same (Nat.lt_succ_self _)
    (d := ⟨ts, eof, []⟩) (by dsimp only; omega) hrun hrun.rest ⟨rfl, fun _ => rfl⟩
  obtain ⟨z, statements, hz, hkinds, -, haccepts⟩ := hcompletes.completes (by dsimp only; omega) hlarge
  refine ⟨z, hkinds, fun eof' => ?_⟩
  have hshort : (taken ++ z).length < m := by
    rw [List.length_append]
    omega
  have hwhole : (Cursor.mk (taken ++ z) eof' []).rest = taken ++ z ++ [] := (List.append_nil _).symm
  obtain ⟨new', hrun'⟩ := haccepts hshort hwhole rfl
  have hsame := (strictProgram_local (b := 2 * m + 1) (r := m) (n := m) (taken ++ z) (by omega) le_rfl).2.same hshort
    (d := ⟨taken ++ z, eof', []⟩) (Nat.lt_succ_self _) hrun' hrun'.rest ⟨rfl, fun _ => rfl⟩
  exact (panicFree_of_run hsame).2

/-- With the token before which the strict parse panics, nothing can be completed. -/
theorem not_panicFree_of_front {t : Token} (hrun : Run (strictProgram ts) ⟨ts, eof, []⟩ none taken (t :: more) new)
    (behind : List Token) (eof' : Token) : ¬ PanicFree (taken ++ t :: behind) eof' := by
  have hlocal := (strictProgram_local (n := (taken ++ t :: behind).length + 1) (b := boundFor (taken ++ t :: behind))
    (r := boundFor (taken ++ t :: behind)) ts (by simp only [boundFor]; omega) (by simp only [boundFor]; omega)).1
  have hsame : Run (strictProgram (taken ++ t :: behind)) ⟨taken ++ t :: behind, eof', []⟩ none taken (t :: behind) new :=
    hlocal.same (Nat.lt_succ_self _) (Nat.lt_succ_self _) hrun rfl (.of_front (List.cons_ne_nil t []) more behind)
  exact not_panicFree_of_run hsame

/-- If the strict parse panics at the end, the tokens are no program, whatever marks their end. -/
theorem not_panicFree_of_end (hrun : Run (strictProgram ts) ⟨ts, eof, []⟩ none taken [] new) (eof' : Token) :
    ¬ PanicFree ts eof' := by
  obtain ⟨o, taken', more', new', hrun', -⟩ := strictProgram_run ts eof'
  cases o with
  | none => exact not_panicFree_of_run hrun'
  | some statements =>
    -- What is taken without a panic is so before any end.
    obtain ⟨rfl, -⟩ := panicFree_of_run hrun'
    obtain rfl : ts = taken' := hrun'.rest.trans (List.append_nil taken')
    have hcompletes : Completes (ts.length + 1) 2 0 (· = none) isName (strictProgram ts) :=
      strictDeclarations_completes (by simp only [boundFor]; omega) (by simp only [boundFor]; omega)
    obtain ⟨new'', hok⟩ := hcompletes.free (Nat.lt_succ_self _) hrun' (d := ⟨ts, eof, []⟩) (Nat.lt_succ_self _)
      hrun'.rest rfl
    obtain ⟨⟨⟩, -⟩ := hrun.unique hok

end Runs

/-- The first panic names the first token that cannot stand where it stands: the tokens before it can be completed to a list
that parses without a panic, and nothing that starts with those and the token itself parses so. -/
theorem parseProgramTokens_firstPanic (ts : List Token) (eof : Token) (h : ¬ PanicFree ts eof) :
    ∃ i ≤ ts.length, firstPanic? ts eof = some i ∧
      (∃ before what after, (parseProgramTokens ts eof).diagnostics =
          before ++ ((ts.drop i).headD eof).complain (.expected what) :: after ∧ ∀ d ∈ before, d.isPanic = false) ∧
      (∃ more, (∀ t ∈ more, t.kind ≠ .eof) ∧ ∀ eof', PanicFree (ts.take i ++ more) eof') ∧
      (i < ts.length → ∀ more eof', ¬ PanicFree (ts.take (i + 1) ++ more) eof') ∧
      (i = ts.length → ∀ eof', ¬ PanicFree ts eof') := by
  obtain ⟨o, taken, more, new, hrun, -⟩ := strictProgram_run ts eof
  cases o with
  | some statements => exact absurd (panicFree_of_run hrun).2 h
  | none =>
    have hrest : ts = taken ++ more := hrun.rest
    have htake : ts.take taken.length = taken := by simp [hrest]
    have hdrop : ts.drop taken.length = more := by simp [hrest]
    refine ⟨taken.length, by simp [hrest], firstPanic?_of_run hrun, ?_, ?_, fun hfront behind eof' => ?_, fun hend => ?_⟩
    · rw [hdrop]
      exact diagnostics_of_run hrun
    · rw [htake]
      exact exists_completion_of_run hrun
    · cases more with
      | nil => simp [hrest] at hfront
      | cons t more =>
        have htake' : ts.take (taken.length + 1) = taken ++ [t] := by
          rw [List.take_succ_eq_append_getElem hfront, htake]
          simp [hrest]
        rw [htake', List.append_assoc]
        exact not_panicFree_of_front hrun behind eof'
    · obtain rfl : more = [] := by simpa [hrest] using hend
      exact not_panicFree_of_end hrun

/-- In a parenthesis that is left open the semicolon is the first token that cannot stand where it stands. -/
theorem parseProgramTokens_firstPanic_openParenthesis :
    let token (k : Kind) : Token := ⟨k, .str k.name, .null, 1⟩
    let front := [token .leftParen, token .kwNil]
    let ts := front ++ [token .semicolon, token .kwPrint, token .kwNil, token .semicolon]
    ¬ PanicFree ts (.atEnd 1) ∧ firstPanic? ts (.atEnd 1) = some 2 ∧
      (∃ more, (∀ t ∈ more, t.kind ≠ .eof) ∧ ∀ eof, PanicFree (front ++ more) eof) ∧
      ∀ more eof, ¬ PanicFree (front ++ [token .semicolon] ++ more) eof := by
  intro token front ts
  have hpanics : ¬ PanicFree ts (.atEnd 1) := fun hfree =>
    absurd (hfree ⟨1, .at "SEMICOLON", .expected "')' after expression"⟩ (.head _)) nofun
  obtain ⟨i, -, hfirst, -, hcomplete, himpossible, -⟩ := parseProgramTokens_firstPanic ts (.atEnd 1) hpanics
  have htwo : firstPanic? ts (.atEnd 1) = some 2 := rfl
  rw [htwo] at hfirst
  cases hfirst
  exact ⟨hpanics, htwo, hcomplete, himpossible (by decide)⟩

end LoxLang
