import LoxLang.Proofs.Grammar.Guarded
/-!
# How statements close

A statement that parses ends in a semicolon or a closing brace, and once it has taken that token it looks at nothing more,
but for an `else`. So whatever stands behind it may be replaced, as long as no `else` comes to stand there.

`Closes` says both of a parser. Its first argument says whether a token that closes a statement has been taken just before:
only then may the parser take nothing.
-/

namespace LoxLang.Grammar

variable {α β : Type}

/-- The tokens that a statement can end in. -/
def closesStatement (k : Kind) : Bool := k == .semicolon || k == .rightBrace

/-- No limits. -/
def anything : Limits := ⟨fun _ => True, fun _ => True⟩

theorem anything_open : anything.Open := ⟨fun _ => trivial, fun _ _ => trivial⟩

/-- The last token taken closes a statement; if none is taken, one before did. -/
def ClosedBy (had : Bool) (taken : List Token) : Prop :=
  match taken.getLast? with
  | none => had = true
  | some t => closesStatement t.kind = true

theorem ClosedBy.append {had : Bool} {taken taken' : List Token} (h : ClosedBy had taken) (h' : ClosedBy true taken') :
    ClosedBy had (taken ++ taken') := by
  unfold ClosedBy at *
  rw [List.getLast?_append]
  cases hlast : taken'.getLast? with
  | none => exact h
  | some t => simpa [hlast] using h'

/-- Where the last token closes a statement, what was taken before does not matter. -/
theorem ClosedBy.after {had : Bool} {taken' : List Token} (h' : ClosedBy false taken') (taken : List Token) :
    ClosedBy had (taken ++ taken') := by
  unfold ClosedBy at *
  rw [List.getLast?_append]
  cases hlast : taken'.getLast? with
  | none => simp [hlast] at h'
  | some t => simpa [hlast] using h'

theorem ClosedBy.cons {had : Bool} {t : Token} {taken : List Token} (h : ClosedBy (closesStatement t.kind) taken) :
    ClosedBy had (t :: taken) := by
  unfold ClosedBy at *
  rw [List.getLast?_cons]
  cases hlast : taken.getLast? with
  | none => simpa [hlast] using h
  | some t => simpa [hlast] using h

theorem ClosedBy.ne_nil {taken : List Token} (h : ClosedBy false taken) : taken ≠ [] := by
  rintro rfl
  simp [ClosedBy] at h

/-- A parser of the end of a statement, with two bounds. -/
structure Closes (had : Bool) (m n : Nat) (p q : Parser α) : Prop extends Local m n 0 anything p q where
  last : ∀ {c : Cursor} {a : α} {taken more : List Token} {new : List Diagnostic}, c.rest.length < m →
    Run p c (some a) taken more new → ClosedBy had taken
  free : ∀ {c d : Cursor} {a : α} {taken more more' : List Token} {new : List Diagnostic}, c.rest.length < m →
    d.rest.length < n → Run p c (some a) taken more new → d.rest = taken ++ more' → Unwanted (· == .kwElse) more' →
    Run q d (some a) taken more' new

namespace Closes

variable {had : Bool} {m n k : Nat} {p q : Parser α} {f g : α → Parser β}

theorem lower (h : Closes had m n p q) {m' n' : Nat} (hm : m' ≤ m) (hn : n' ≤ n) : Closes had m' n' p q where
  toLocal := h.toLocal.lower hm hn le_rfl
  last hc := h.last (hc.trans_le hm)
  free hc hd := h.free (hc.trans_le hm) (hd.trans_le hn)

theorem weaken (h : Closes false m n p q) : Closes had m n p q where
  toLocal := h.toLocal
  last hc hrun := by simpa using (h.last hc hrun).after []
  free := h.free

theorem zero : Closes had 0 n p q where
  toLocal := .zero
  last hc := absurd hc (by omega)
  free hc := absurd hc (by omega)

theorem ofZero {n' : Nat} {q' : Parser α} (h : Closes had m n p q) (hn : n' = 0) : Closes had m n' p q' where
  toLocal := h.toLocal.ofZero hn
  last := h.last
  free _ hd := absurd hd (by omega)

/-- A result is left alone also by tokens behind those that it leaves. -/
theorem extend (h : Closes had m n p q) {c d : Cursor} {a : α} {taken more behind : List Token} {new : List Diagnostic}
    (hc : c.rest.length < m) (hd : d.rest.length < n) (hrun : Run p c (some a) taken more new)
    (hrest : d.rest = c.rest ++ behind) (hbehind : Unwanted (· == .kwElse) behind) :
    Run q d (some a) taken (more ++ behind) new := by
  rw [hrun.rest, List.append_assoc] at hrest
  by_cases hmore : more = []
  · subst hmore
    exact h.free hc hd hrun hrest hbehind
  · refine h.same hc hd hrun hrest ?_
    simpa using Cursor.ShowsSame.of_front hmore [] behind

theorem pure {a : α} : Closes true m n (Pure.pure a) (Pure.pure a) where
  toLocal := .pure
  last {c} _ _ _ _ _ hrun := by
    obtain ⟨-, rfl, -⟩ := hrun.unique (.pure a c)
    rfl
  free {c d} _ _ _ more' _ _ _ hrun hrest _ := by
    obtain ⟨ha, rfl, -, rfl⟩ := hrun.unique (.pure a c)
    obtain rfl : d.rest = more' := hrest
    rw [ha]
    exact .pure a d

/-- Two parsers in a row, of which the second closes. -/
theorem bind_last (hp : Local m n k anything p q) (hf : ∀ a, Closes false (m - k) (n - k) (f a) (g a)) :
    Closes had m n (p >>= f) (q >>= g) where
  toLocal := (hp.both fun a => (hf a).toLocal).lower le_rfl le_rfl (Nat.zero_le _)
  last hc hrun := by
    obtain ⟨⟨⟩, -⟩ | ⟨a, taken₁, taken₂, more₁, new₁, new₂, rfl, rfl, hk, hrun₁, hrun₂⟩ :=
      hp.cut (fun a => (hf a).toLocal) hc hrun
    exact ((hf a).last (Cursor.length_rest_after_lt hc hrun₁.rest hk) hrun₂).after taken₁
  free {c d} _ _ more more' _ hc hd hrun hrest hmore' := by
    obtain ⟨⟨⟩, -⟩ | ⟨a, taken₁, taken₂, more₁, new₁, new₂, rfl, rfl, hk, hrun₁, hrun₂⟩ :=
      hp.cut (fun a => (hf a).toLocal) hc hrun
    rw [List.append_assoc] at hrest
    have hless : (c.after more₁ new₁).rest.length < m - k := Cursor.length_rest_after_lt hc hrun₁.rest hk
    have hshows : c.ShowsSame d more₁ (taken₂ ++ more') := by
      rw [show more₁ = taken₂ ++ more from hrun₂.rest]
      exact .of_front ((hf a).last hless hrun₂).ne_nil more more'
    exact (hp.same hc hd hrun₁ hrest hshows).bind_some
      ((hf a).free hless (Cursor.length_rest_after_lt hd hrest hk) hrun₂ rfl hmore')

/-- Two parsers in a row, of which the first closes and the second may find that nothing is to be added. -/
theorem bind (hp : Closes had m n p q) (hf : ∀ a, Closes true m n (f a) (g a)) : Closes had m n (p >>= f) (q >>= g) where
  toLocal := hp.toLocal.bind fun a => (hf a).toLocal
  last hc hrun := by
    obtain ⟨⟨⟩, -⟩ | ⟨a, taken₁, taken₂, more₁, new₁, new₂, rfl, rfl, hk, hrun₁, hrun₂⟩ :=
      hp.toLocal.cut (fun a => (hf a).toLocal) hc hrun
    exact (hp.last hc hrun₁).append ((hf a).last (Cursor.length_rest_after_lt hc hrun₁.rest hk) hrun₂)
  free {c d} _ _ more more' _ hc hd hrun hrest hmore' := by
    obtain ⟨⟨⟩, -⟩ | ⟨a, taken₁, taken₂, more₁, new₁, new₂, rfl, rfl, hk, hrun₁, hrun₂⟩ :=
      hp.toLocal.cut (fun a => (hf a).toLocal) hc hrun
    rw [List.append_assoc] at hrest
    have hfirst : Run q d (some a) taken₁ (taken₂ ++ more') new₁ := by
      by_cases htaken₂ : taken₂ = []
      · subst htaken₂
        exact hp.free hc hd hrun₁ hrest hmore'
      · refine hp.same hc hd hrun₁ hrest ?_
        rw [show more₁ = taken₂ ++ more from hrun₂.rest]
        exact .of_front htaken₂ more more'
    exact hfirst.bind_some ((hf a).free (Cursor.length_rest_after_lt hc hrun₁.rest hk)
      (Cursor.length_rest_after_lt hd hrest hk) hrun₂ rfl hmore')

/-- A step to take a token. Where nothing may follow, it can only be for an `else`. -/
theorem take? {wanted : Kind → Bool} {f g : Option Token → Parser β}
    (hwanted : had = true → ∀ k, wanted k = true → (k == .kwElse) = true)
    (hsome : ∀ t, wanted t.kind = true → Closes (closesStatement t.kind) (m - 1) (n - 1) (f (some t)) (g (some t)))
    (hnone : Closes had m n (f none) (g none)) :
    Closes had m n (Grammar.take? wanted >>= f) (Grammar.take? wanted >>= g) where
  toLocal := .take? (fun _ _ => trivial) (fun t ht => (hsome t ht).toLocal) hnone.toLocal
  last hc hrun := by
    obtain ⟨-, hrun₁⟩ | ⟨t, after, taken', ht, hcons, rfl, hrun₁⟩ :=
      Local.cut_take? (fun t ht => (hsome t ht).toLocal) hc hrun
    · exact hnone.last hc hrun₁
    · exact ((hsome t ht).last (Cursor.length_rest_after_cons_lt hc hcons) hrun₁).cons
  free {c d} _ taken _ more' _ hc hd hrun hrest hmore' := by
    obtain ⟨hunwanted, hrun₁⟩ | ⟨t, after, taken', ht, hcons, rfl, hrun₁⟩ :=
      Local.cut_take? (fun t ht => (hsome t ht).toLocal) hc hrun
    · refine .take?_none ?_ (hnone.free hc hd hrun₁ hrest hmore')
      rw [hrest]
      cases taken with
      | nil => exact hmore'.mono (hwanted (hnone.last hc hrun₁))
      | cons t taken =>
        rw [hrun.rest] at hunwanted
        exact hunwanted
    · exact .take?_some ht hrest ((hsome t ht).free (Cursor.length_rest_after_cons_lt hc hcons)
        (Cursor.length_rest_after_cons_lt hd hrest) hrun₁ rfl hmore')

theorem fail {what : String} :
    Closes had m n (Grammar.fail (.expected what) : Parser α) (Grammar.fail (.expected what)) where
  toLocal := .fail
  last {c} _ _ _ _ _ hrun := by
    obtain ⟨⟨⟩, -⟩ := hrun.unique (.fail what c)
  free {c _} _ _ _ _ _ _ _ hrun := by
    obtain ⟨⟨⟩, -⟩ := hrun.unique (.fail what c)

theorem expect {kind : Kind} {what : String} {f g : Token → Parser β}
    (h : ∀ t, Closes (closesStatement kind) (m - 1) (n - 1) (f t) (g t)) :
    Closes had m n (Grammar.expect kind what >>= f) (Grammar.expect kind what >>= g) := by
  rw [Grammar.expect, bind_assoc, bind_assoc]
  refine weaken (take? (fun h => absurd h Bool.false_ne_true) (fun t ht => ?_) ?_)
  · rw [pure_bind, pure_bind, eq_of_beq ht]
    exact h t
  · rw [fail_bind, fail_bind]
    exact fail

end Closes

/-! ### Statements -/

section Statements

variable {had : Bool} {b b' m n : Nat} {inner inner' : Parser Node} {item item' : Parser (Option Node)}

/-- What is read in front of the end of a statement. -/
theorem expression_anything (hb : m ≤ b) (hb' : n ≤ b') : Local m n 0 anything (expression b) (expression b') :=
  (expression_local anything_open.lenient b b').lower hb hb' (Nat.zero_le _)

theorem semicolon_closes (hb : m ≤ b) (hb' : n ≤ b') {what : String} {build : Node → Node} : Closes had m n
    (expression b >>= fun value => expect .semicolon what >>= fun _ => pure (build value))
    (expression b' >>= fun value => expect .semicolon what >>= fun _ => pure (build value)) :=
  .bind_last (expression_anything hb hb') fun _ => .expect fun _ => .pure

theorem returnStatement_closes (hb : m ≤ b) (hb' : n ≤ b') {inFunction : Bool} {keyword : Token} :
    Closes had m n (returnStatement b inFunction keyword) (returnStatement b' inFunction keyword) := by
  have hvalue {had : Bool} : Closes had m n (returnStatement b true keyword) (returnStatement b' true keyword) :=
    .bind_last (optionalUnless_local anything_open.lenient hb hb') fun _ => .expect fun _ => .pure
  cases inFunction with
  | true => exact hvalue
  | false => exact .bind_last (Local.report trivial) fun _ => hvalue

theorem variableDeclaration_closes (hb : m ≤ b) (hb' : n ≤ b') :
    Closes had m n (variableDeclaration b) (variableDeclaration b') := by
  refine .expect fun name => .take? nofun (fun _ _ => ?_) (.expect fun _ => .pure)
  exact semicolon_closes (by omega) (by omega)

theorem ifStatement_closes (hb : m ≤ b) (hb' : n ≤ b') (h : Closes false m n inner inner') :
    Closes had m n (ifStatement b inner) (ifStatement b' inner') := by
  refine .expect fun _ => .bind_last (expression_anything (by omega) (by omega)) fun condition => .expect fun _ => ?_
  refine (h.lower (by omega) (by omega)).bind fun yes => .take? (fun _ _ h => h) (fun t ht => ?_) .pure
  refine .weaken ((h.lower (by omega) (by omega)).bind fun no => .pure)

theorem whileStatement_closes (hb : m ≤ b) (hb' : n ≤ b') (h : Closes false m n inner inner') :
    Closes had m n (whileStatement b inner) (whileStatement b' inner') := by
  refine .expect fun _ => .bind_last (expression_anything (by omega) (by omega)) fun condition => .expect fun _ => ?_
  exact (h.lower (by omega) (by omega)).bind fun _ => .pure

theorem forStatement_closes (hb : m ≤ b) (hb' : n ≤ b') (h : Closes false m n inner inner') :
    Closes had m n (forStatement b inner) (forStatement b' inner') := by
  have hclause {m' n' : Nat} (hm : m' ≤ m) (hn : n' ≤ n) {kind : Kind} :
      Local m' n' 0 anything (optionalUnless b kind) (optionalUnless b' kind) :=
    optionalUnless_local anything_open.lenient (hm.trans hb) (hn.trans hb')
  have hinitial : Local (m - 1) (n - 1) 1 anything (forInitial b) (forInitial b') :=
    forInitial_local anything_open (by omega) (by omega)
  refine .expect fun _ => .bind_last hinitial fun initial => .bind_last (hclause ?_ ?_) fun condition => .expect fun _ =>
    .bind_last (hclause ?_ ?_) fun increment => .expect fun _ => (h.lower ?_ ?_).bind fun body => .pure
  all_goals omega

theorem block_closes (hb : m ≤ b) (hb' : n ≤ b') (h : Local m n 0 anything item item') (hprogress : Progresses m item) :
    Closes had m n (block b item) (block b' item') :=
  .bind_last (itemsUntil_local (fun _ _ h => h.isAt .rightBrace) h hprogress le_rfl le_rfl hb hb') fun _ =>
    .expect fun _ => .pure

theorem functionDeclaration_closes (hb : m ≤ b) (hb' : n ≤ b') (h : Local m n 0 anything item item')
    (hprogress : Progresses m item) : Closes had m n (functionDeclaration b item) (functionDeclaration b' item') := by
  refine .expect fun name => .expect fun _ => ?_
  refine .bind_last (commaList_local anything_open.lenient (.expectOne trivial) ?_ ?_) fun params =>
    .expect fun _ => .expect fun _ => ?_
  · omega
  · omega
  exact ((block_closes hb hb' h hprogress).lower (by omega) (by omega)).bind fun body => .pure

theorem statementBody_closes (hb : m ≤ b) (hb' : n ≤ b') (h : Closes false (m - 1) (n - 1) inner inner')
    (hitem : Local (m - 1) (n - 1) 0 anything item item') (hprogress : Progresses (m - 1) item) {inFunction : Bool} :
    Closes false m n (statementBody b inFunction inner item) (statementBody b' inFunction inner' item') := by
  refine .take? nofun (fun t _ => ?_) (semicolon_closes hb hb')
  have hm : m - 1 ≤ b := by omega
  have hn : n - 1 ≤ b' := by omega
  dsimp only
  split
  · exact ifStatement_closes hm hn h
  · exact semicolon_closes hm hn
  · exact whileStatement_closes hm hn h
  · exact forStatement_closes hm hn h
  · exact returnStatement_closes hm hn
  · exact (block_closes hm hn hitem hprogress).bind fun _ => .pure

theorem declarationBody_closes (hb : m ≤ b) (hb' : n ≤ b') (h : Closes false m n inner inner')
    (hitem : Local (m - 1) (n - 1) 0 anything item item') (hprogress : Progresses (m - 1) item) :
    Closes false m n (declarationBody b inner item) (declarationBody b' inner' item') := by
  refine .take? nofun (fun t _ => ?_) h
  dsimp only
  split
  · exact functionDeclaration_closes (by omega) (by omega) hitem hprogress
  · exact variableDeclaration_closes (by omega) (by omega)

end Statements

/-! ### Declarations -/

/-- A declaration whose panic is not stopped yet. -/
def bareDeclaration (bound : Nat) (inFunction : Bool) : Parser Node :=
  declarationBody bound (statement bound inFunction) (declaration bound true)

theorem declaration_eq_recover (bound : Nat) (inFunction : Bool) :
    declaration (bound + 1) inFunction = recover (bareDeclaration bound inFunction) := rfl

theorem statement_declaration_local (b b' : Nat) (inFunction : Bool) :
    Local (b / 2) (b' / 2) 1 anything (statement b inFunction) (statement b' inFunction) ∧
      Local ((b - 1) / 2) ((b' - 1) / 2) 0 anything (declaration b inFunction) (declaration b' inFunction) ∧
      Progresses ((b - 1) / 2) (declaration b inFunction) := by
  have h := statementWith_declarationWith_local anything_open (guards_recover (fun _ => trivial) fun _ => trivial) b b'
    inFunction
  rwa [(statementWith_declarationWith_recover b).1, (statementWith_declarationWith_recover b).2,
    (statementWith_declarationWith_recover b').1, (statementWith_declarationWith_recover b').2] at h

theorem statement_closes (b b' : Nat) (inFunction : Bool) :
    Closes false (b / 2) (b' / 2) (statement b inFunction) (statement b' inFunction) := by
  induction b generalizing b' with
  | zero => exact .zero
  | succ b ih =>
    have hround (b' : Nat) : Closes false ((b + 1) / 2) ((b' + 1) / 2) (statement (b + 1) inFunction)
        (statement (b' + 1) inFunction) := by
      obtain ⟨-, hdeclaration, hprogress⟩ := statement_declaration_local b b' inFunction
      refine statementBody_closes ?_ ?_ ((ih b').lower ?_ ?_) (hdeclaration.lower ?_ ?_ le_rfl)
        fun c a taken more new hne hlt hrun => hprogress hne ?_ hrun
      all_goals omega
    cases b' with
    | zero => exact (hround b).ofZero rfl
    | succ b' => exact hround b'

theorem bareDeclaration_closes (b b' : Nat) (inFunction : Bool) :
    Closes false (b / 2) (b' / 2) (bareDeclaration b inFunction) (bareDeclaration b' inFunction) := by
  obtain ⟨-, hdeclaration, hprogress⟩ := statement_declaration_local b b' true
  refine declarationBody_closes ?_ ?_ (statement_closes b b' inFunction) (hdeclaration.lower ?_ ?_ le_rfl)
    fun c a taken more new hne hlt hrun => hprogress hne ?_ hrun
  all_goals omega

/-- A declaration that panics is left out. -/
theorem declaration_ok (b : Nat) (inFunction : Bool) (c : Cursor) : ∃ o c', declaration (b + 1) inFunction c = .ok o c' := by
  rw [declaration_eq_recover]
  cases h : bareDeclaration b inFunction c with
  | ok a c' => exact ⟨some a, c', by simp only [recover, h]⟩
  | error e c' => exact ⟨none, _, by simp only [recover, h]; rfl⟩

end LoxLang.Grammar
