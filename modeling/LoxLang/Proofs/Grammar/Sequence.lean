import LoxLang.Proofs.Grammar.Closing
import LoxLang.Proofs.Grammar.Exact
/-!
# One declaration after the other

A parse of a list of tokens is the first declaration and then the parse of what that leaves. So a declaration that does the
same with more tokens behind its own cuts the parse of the whole in two: this is so of declarations without a diagnostic,
and of malformed ones whose panic is met before the tokens end.
-/

namespace LoxLang

open Grammar

namespace Grammar

/-! ### Runs of declarations -/

theorem declaration_run {b : Nat} {c : Cursor} (inFunction : Bool) (hc : c.rest.length < b / 2) :
    ∃ o taken more new, Run (declaration (b + 1) inFunction) c (some o) taken more new := by
  obtain ⟨o, taken, more, new, hrun, -⟩ := (statement_declaration_local (b + 1) 0 inFunction).2.1.runs (c := c) hc
  obtain ⟨o', c', hok⟩ := declaration_ok b inFunction c
  cases o with
  | some o => exact ⟨o, taken, more, new, hrun⟩
  | none =>
    rw [hrun.ends] at hok
    cases hok

/-- The declarations of a program. -/
def declarations (bound rounds : Nat) : Parser (List Node) :=
  itemsUntil (fun _ => false) (declaration bound false) rounds

theorem declarations_local {b b' r r' m n : Nat} (hb : m ≤ (b - 1) / 2) (hb' : n ≤ (b' - 1) / 2) (hr : m ≤ r)
    (hr' : n ≤ r') : Local m n 0 anything (declarations b r) (declarations b' r') := by
  obtain ⟨-, hdeclaration, hprogress⟩ := statement_declaration_local b b' false
  exact itemsUntil_local (fun _ _ _ => rfl) hdeclaration hprogress hb hb' hr hr'

/-- All tokens are taken, since a declaration that panics is left out. -/
theorem declarations_run {b r : Nat} {c : Cursor} (hb : c.rest.length < b / 2) (hr : c.rest.length < r) :
    ∃ statements new, Run (declarations (b + 1) r) c (some statements) c.rest [] new := by
  induction r generalizing c with
  | zero => omega
  | succ r ih =>
    cases hc : c.rest with
    | nil =>
      have hstop : Run (declarations (b + 1) (r + 1)) c (some []) [] c.rest [] :=
        .itemsUntil_stop (by simp [Cursor.atEnd, hc])
      rw [hc] at hstop
      exact ⟨[], [], hstop⟩
    | cons t after =>
      obtain ⟨o, taken, more, new, hrun⟩ := declaration_run (c := c) false hb
      have htaken : 1 ≤ taken.length :=
        (statement_declaration_local (b + 1) 0 false).2.2 (c := c) (by simp [hc]) hb hrun
      have hlength := congrArg List.length hrun.rest
      rw [List.length_append] at hlength
      obtain ⟨statements, new', hrun'⟩ := ih (c := c.after more new) (by rw [Cursor.rest_after]; omega)
        (by rw [Cursor.rest_after]; omega)
      have hstep : Run (declarations (b + 1) (r + 1)) c _ _ _ _ :=
        .itemsUntil_step (by simp [Cursor.atEnd, hc]) hrun hrun'
      rw [Cursor.rest_after, ← hrun.rest, hc] at hstep
      exact ⟨_, _, hstep⟩

end Grammar

/-- A parse is a run of declarations with any bounds that are enough. -/
theorem parseProgramTokens_eq_of_run {b r : Nat} {ts taken more : List Token} {eof : Token} {reports new : List Diagnostic}
    {statements : List Node} (hb : ts.length < (b - 1) / 2) (hr : ts.length < r)
    (hrun : Run (declarations b r) ⟨ts, eof, reports⟩ (some statements) taken more new) :
    parseProgramTokens ts eof = ⟨statements, new⟩ := by
  have hlocal : Local (ts.length + 1) (ts.length + 1) 0 anything (declarations b r) (program (boundFor ts)) :=
    declarations_local (by omega) (by simp only [boundFor]; omega) (by omega) (by simp only [boundFor]; omega)
  have hsame := hlocal.same (c := ⟨ts, eof, reports⟩) (d := ⟨ts, eof, []⟩) (Nat.lt_succ_self _) (Nat.lt_succ_self _) hrun
    hrun.rest ⟨rfl, fun _ => rfl⟩
  simp only [parseProgramTokens, parseTokens, hsame.ends]
  rfl

theorem parseProgramTokens_nil (eof : Token) : parseProgramTokens [] eof = ⟨[], []⟩ := rfl

/-- The statements and diagnostics of one parse in front of those of another. -/
def Parsed.append (p q : Parsed (List Node)) : Parsed (List Node) := ⟨p.result ++ q.result, p.diagnostics ++ q.diagnostics⟩

/-- A parse is the first declaration and the parse of what is left. -/
theorem parseProgramTokens_eq_append {b : Nat} {ts taken more : List Token} {eof : Token} {reports new : List Diagnostic}
    {o : Option Node} (hts : ts ≠ []) (hb : ts.length < b / 2)
    (hrun : Run (declaration (b + 1) false) ⟨ts, eof, reports⟩ (some o) taken more new) :
    parseProgramTokens ts eof = Parsed.append ⟨o.toList, new⟩ (parseProgramTokens more eof) := by
  have htaken : 1 ≤ taken.length := (statement_declaration_local (b + 1) 0 false).2.2 hts hb hrun
  have hlength : ts.length = taken.length + more.length := by rw [← List.length_append, ← hrun.rest]
  obtain ⟨statements, new', hrun'⟩ := declarations_run (b := b) (r := ts.length)
    (c := (Cursor.mk ts eof reports).after more new) (by rw [Cursor.rest_after]; omega) (by rw [Cursor.rest_after]; omega)
  have hgo : (false || (Cursor.mk ts eof reports).atEnd) = false := by simpa [Cursor.atEnd] using hts
  have hwhole : Run (declarations (b + 1) (ts.length + 1)) ⟨ts, eof, reports⟩ _ _ _ _ := .itemsUntil_step hgo hrun hrun'
  rw [parseProgramTokens_eq_of_run (by simpa using hb) (Nat.lt_succ_self _) hwhole,
    parseProgramTokens_eq_of_run (b := b + 1) (r := ts.length) (by simp only [Nat.add_sub_cancel]; omega) (by omega) hrun']
  rfl

/-! ### Declarations without a diagnostic -/

theorem derivesProgram_of_clean {ts : List Token} {eof : Token} (h : (parseProgramTokens ts eof).diagnostics = []) :
    DerivesProgram ts (parseProgramTokens ts eof).result := by
  have hreads : Reads (ts.length + 1) (fun u p r => r = [] ∧ DerivesProgram u p) (program (boundFor ts)) :=
    program_reads (by simp only [boundFor]; omega)
  obtain ⟨p, hp⟩ := parseTokens_result_of_clean hreads h
  have hparse : parseTokens program ts eof = ⟨some p, []⟩ := by
    rw [← hp, ← show (parseTokens program ts eof).diagnostics = [] from h]
  have hderives := (parseTokens_eq_iff hreads fun h => program_accepts h le_rfl).mp hparse
  rwa [parseProgramTokens, hp, Option.getD_some]

theorem unwanted_else_of_derives {f : Bool} {ts : List Token} {s : Node} (h : DerivesStatement .declaration f ts s)
    (behind : List Token) : Unwanted (· == .kwElse) (ts ++ behind) :=
  .of_starts h.starts (by intro k; cases k <;> decide) behind

theorem parseProgramTokens_append_of_derives {ts behind : List Token} {p : List Node} (h : DerivesProgram ts p)
    (hbehind : Unwanted (· == .kwElse) behind) (eof : Token) :
    parseProgramTokens (ts ++ behind) eof = Parsed.append ⟨p, []⟩ (parseProgramTokens behind eof) := by
  obtain ⟨items, rfl, rfl, hitems⟩ := h
  induction items with
  | nil => rfl
  | cons x items ih =>
    obtain ⟨hx, hitems⟩ := List.forall_mem_cons.mp hitems
    rw [List.flatMap_cons, List.append_assoc]
    have hnext : Unwanted (· == .kwElse) (items.flatMap Phrase.tokens ++ behind) := by
      cases items with
      | nil => exact hbehind
      | cons y items =>
        rw [List.flatMap_cons, List.append_assoc]
        exact unwanted_else_of_derives (hitems y (by simp)) _
    have hrun : Run (declaration (boundFor (x.tokens ++ (items.flatMap Phrase.tokens ++ behind))) false)
        ⟨x.tokens ++ (items.flatMap Phrase.tokens ++ behind), eof, []⟩ (some (some x.tree)) x.tokens
        (items.flatMap Phrase.tokens ++ behind) [] := ⟨rfl, hx.accepted _ _ le_rfl hnext eof []⟩
    have hne : x.tokens ++ (items.flatMap Phrase.tokens ++ behind) ≠ [] := by
      obtain ⟨t, more, htokens, -⟩ := hx.starts
      simp [htokens]
    rw [parseProgramTokens_eq_append hne (by omega) hrun, ih hitems]
    rfl

/-- Declarations that parse without a diagnostic parse so in front of others. -/
theorem parseProgramTokens_append_of_clean {ts behind : List Token} {eof' : Token}
    (h : (parseProgramTokens ts eof').diagnostics = []) (hbehind : Unwanted (· == .kwElse) behind) (eof : Token) :
    parseProgramTokens (ts ++ behind) eof = (parseProgramTokens ts eof').append (parseProgramTokens behind eof) := by
  rw [parseProgramTokens_append_of_derives (derivesProgram_of_clean h) hbehind, ← h]

theorem unwanted_else_of_clean {ts : List Token} {eof : Token} (h : (parseProgramTokens ts eof).diagnostics = [])
    {behind : List Token} (hbehind : Unwanted (· == .kwElse) behind) : Unwanted (· == .kwElse) (ts ++ behind) := by
  obtain ⟨items, rfl, -, hitems⟩ := derivesProgram_of_clean h
  cases items with
  | nil => exact hbehind
  | cons x items =>
    rw [List.flatMap_cons, List.append_assoc]
    exact unwanted_else_of_derives (hitems x (by simp)) _

/-! ### Malformed declarations -/

namespace Grammar

/-- The last token is a semicolon. -/
def EndsInSemicolon (ts : List Token) : Prop := ∃ t ∈ ts.getLast?, t.kind = .semicolon

theorem EndsInSemicolon.of_append {ts ts' : List Token} (h : EndsInSemicolon (ts ++ ts')) (hne : ts' ≠ []) :
    EndsInSemicolon ts' := by
  obtain ⟨t, ht, hkind⟩ := h
  rw [List.getLast?_append_of_ne_nil ts hne] at ht
  exact ⟨t, ht, hkind⟩

/-- Skipping that ends behind the last semicolon at the latest does not look behind it. -/
theorem skipAfter_append {last : Token} {ts : List Token} (h : EndsInSemicolon (last :: ts)) (behind : List Token) :
    skipAfter last (ts ++ behind) = skipAfter last ts ++ behind := by
  induction ts generalizing last with
  | nil =>
    obtain ⟨t, ht, hkind⟩ := h
    obtain rfl : last = t := by simpa using ht
    cases behind with
    | nil => rfl
    | cons t behind => simp [skipAfter, hkind]
  | cons t ts ih =>
    rw [List.cons_append, skipAfter, skipAfter]
    split
    · rfl
    · have hlast : EndsInSemicolon ([last] ++ t :: ts) := h
      exact ih (hlast.of_append (by simp))

theorem synchronize_append {ts : List Token} (h : EndsInSemicolon ts) (behind : List Token) :
    synchronize (ts ++ behind) = synchronize ts ++ behind := by
  cases ts with
  | nil =>
    obtain ⟨t, ht, -⟩ := h
    cases ht
  | cons t ts => exact skipAfter_append h behind

/-- A declaration does the same with other tokens behind its own, if these end in a semicolon and it does not panic at
their end. -/
theorem declaration_append {b b' : Nat} {f : Bool} {c d : Cursor} {o : Option Node} {taken more behind : List Token}
    {new : List Diagnostic} (hc : c.rest.length < b / 2) (hd : d.rest.length < b' / 2) (hlast : EndsInSemicolon c.rest)
    (hrest : d.rest = c.rest ++ behind) (hbehind : Unwanted (· == .kwElse) behind)
    (hshort : ∀ taken new, ¬ Run (bareDeclaration b f) c none taken [] new)
    (hrun : Run (declaration (b + 1) f) c (some o) taken more new) :
    Run (declaration (b' + 1) f) d (some o) taken (more ++ behind) new := by
  have hcloses := bareDeclaration_closes b b' f
  rw [declaration_eq_recover] at hrun ⊢
  obtain ⟨o₁, taken₁, more₁, new₁, hrun₁, -⟩ := hcloses.runs hc
  cases o₁ with
  | some a =>
    obtain ⟨ho, rfl, rfl, rfl⟩ := hrun.unique hrun₁.recover_some
    rw [ho]
    exact (hcloses.extend hc hd hrun₁ hrest hbehind).recover_some
  | none =>
    obtain ⟨skipped, hskipped⟩ := exists_skipped more₁
    obtain ⟨ho, rfl, rfl, rfl⟩ := hrun.unique (hrun₁.recover_none hskipped)
    have hmore₁ : more₁ ≠ [] := by
      rintro rfl
      exact hshort _ _ hrun₁
    rw [hrun₁.rest] at hlast hrest
    rw [List.append_assoc] at hrest
    have hstop := synchronize_append (hlast.of_append hmore₁) behind
    have hshows : c.ShowsSame d more₁ (more₁ ++ behind) := by
      simpa using Cursor.ShowsSame.of_front hmore₁ [] behind
    have hpanic := (hcloses.same hc hd hrun₁ hrest hshows).recover_none
      (show more₁ ++ behind = skipped ++ synchronize (more₁ ++ behind) by rw [hstop, ← List.append_assoc, ← hskipped])
    rw [hstop] at hpanic
    rw [ho]
    exact hpanic

end Grammar

end LoxLang
