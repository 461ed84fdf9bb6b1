import LoxLang.Proofs.Grammar.Completeness
/-!
# The parsers decide the grammar

A list of tokens is parsed without a diagnostic exactly if the rules derive it, and then the result is
the tree of the derivation. So the rules give a list of tokens at most one tree.
-/

namespace LoxLang.Grammar

/-- A parser that reads what a relation derives and accepts what it derives decides it. -/
theorem parseTokens_eq_iff {α : Type} {R : List Token → α → Prop} {parser : Nat → Parser α} {ts : List Token}
    {eof : Token} {a : α} (hreads : Reads (ts.length + 1) (fun u a r => r = [] ∧ R u a) (parser (boundFor ts)))
    (haccepts : R ts a → Accepts (parser (boundFor ts)) ts a []) :
    parseTokens parser ts eof = ⟨some a, []⟩ ↔ R ts a := by
  constructor
  · intro h
    cases hrun : parser (boundFor ts) ⟨ts, eof, []⟩ with
    | error e c => simp [parseTokens, hrun] at h
    | ok b c =>
      simp only [parseTokens, hrun, Parsed.mk.injEq, Option.some.injEq] at h
      obtain ⟨rfl, hclean⟩ := h
      obtain ⟨used, hused, hnil, hR⟩ := hreads.takes ⟨ts, eof, []⟩ b c (Nat.lt_succ_self _) hrun hclean
      rw [hnil, List.append_nil] at hused
      change ts = used at hused
      rwa [hused]
  · intro h
    have hrun := haccepts h eof []
    rw [List.append_nil] at hrun
    simp only [parseTokens, hrun]

/-- A parser whose panics are reported has a result if nothing was reported. -/
theorem parseTokens_result_of_clean {α : Type} {R : List Token → α → List Token → Prop} {parser : Nat → Parser α}
    {ts : List Token} {eof : Token} (hreads : Reads (ts.length + 1) R (parser (boundFor ts)))
    (hclean : (parseTokens parser ts eof).diagnostics = []) : ∃ a, (parseTokens parser ts eof).result = some a := by
  cases hrun : parser (boundFor ts) ⟨ts, eof, []⟩ with
  | ok a c => exact ⟨a, by simp only [parseTokens, hrun]⟩
  | error e c =>
    simp only [parseTokens, hrun] at hclean
    exact absurd hclean (hreads.panics ⟨ts, eof, []⟩ e c (Nat.lt_succ_self _) hrun)

theorem wholeExpression_reads {bound left : Nat} (hleft : left ≤ bound) :
    Reads left (fun u e r => r = [] ∧ DerivesExpression u e) (wholeExpression bound) := by
  refine ((expression_reads bound).lower hleft).bind fun u e => .look fun c => ?_
  split
  next hend =>
    refine .pure fun r hr he => ⟨?_, ?_⟩
    · rw [List.nil_append] at hr
      rw [hr]
      exact List.isEmpty_iff.mp hend
    · rwa [List.append_nil]
  next => exact .fail

theorem wholeExpression_accepts {bound : Nat} {ts : List Token} {e : Node} (h : DerivesExpression ts e)
    (hbound : ts.length < bound) : Accepts (wholeExpression bound) ts e [] := by
  have he : Accepts (expression bound) ts e [] := h.accepts (by rwa [List.append_nil]) (by simp [Unwanted])
  exact he.bind_nil fun _ _ => rfl

theorem program_reads {bound left : Nat} (hleft : left ≤ (bound - 1) / 2) :
    Reads left (fun u p r => r = [] ∧ DerivesProgram u p) (program bound) := by
  have hitem := (statement_declaration_reads bound false).2.lower hleft
  refine (itemsUntil_reads (by omega) hitem).mono fun u p r h => ?_
  exact ⟨h.2 fun _ => rfl, h.1⟩

theorem program_accepts {bound : Nat} {ts : List Token} {p : List Node} (h : DerivesProgram ts p)
    (hbound : 2 * ts.length + 3 ≤ bound) : Accepts (program bound) ts p [] := by
  obtain ⟨items, rfl, rfl, hitems⟩ := h
  have hcount := DerivesStatement.length_le_flatMap hitems
  refine itemsUntil_accepts (fun _ _ => rfl) (by omega) le_rfl ?_ fun x hx r hr hlength => ?_
  · intro x hx
    obtain ⟨t, more, htokens, -⟩ := (hitems x hx).starts
    exact ⟨t, more, htokens, fun _ _ _ => rfl⟩
  · rw [List.append_nil] at hlength
    apply (hitems x hx).accepted bound r (by omega)
    rcases hr with rfl | ⟨y, hy, more, rfl⟩
    · simp [Unwanted]
    · exact .of_starts (hitems y hy).starts (by intro k; cases k <;> decide) more

end Grammar

open Grammar

/-! ### Expressions -/

private theorem wholeExpression_decides (ts : List Token) (eof : Token) (e : Node) :
    parseTokens wholeExpression ts eof = ⟨some e, []⟩ ↔ DerivesExpression ts e := by
  refine parseTokens_eq_iff (wholeExpression_reads ?_) fun h => wholeExpression_accepts h ?_
  · simp only [boundFor]
    omega
  · simp only [boundFor]
    omega

/-- **The expression grammar.** A list of tokens parses as an expression without a diagnostic exactly if it is
derived, and the result is the tree of its derivation. -/
theorem parseExpressionTokens_eq_iff_derives (ts : List Token) (eof : Token) (e : Node) :
    parseExpressionTokens ts eof = ⟨some e, []⟩ ↔ DerivesExpression ts e :=
  wholeExpression_decides ts eof e

/-- A text parses as an expression without a diagnostic exactly if its scan reports nothing and the tokens are derived. -/
theorem parseExpression_eq_iff (source : String) (e : Node) :
    parseExpression source = ⟨some e, []⟩ ↔ (scan source).diagnostics = [] ∧ DerivesExpression (scan source).tokens e := by
  rw [← wholeExpression_decides _ (scan source).eof]
  constructor
  · intro h
    obtain ⟨hresult, hclean⟩ := Parsed.mk.inj h
    obtain ⟨hscan, hparse⟩ := List.append_eq_nil_iff.mp hclean
    refine ⟨hscan, ?_⟩
    rw [← hresult, ← hparse]
    rfl
  · intro h
    obtain ⟨hscan, hparse⟩ := h
    simp only [parseExpression, parseExpressionTokens, hscan, hparse, List.append_nil]

/-! ### Programs -/

/-- **The program grammar.** A list of tokens parses as a program without a diagnostic exactly if it is a sequence
of derived declarations, and the result is the list of their trees. -/
theorem parseProgramTokens_eq_iff_derives (ts : List Token) (eof : Token) (p : List Node) :
    parseProgramTokens ts eof = ⟨p, []⟩ ↔ DerivesProgram ts p := by
  have hreads : Reads (ts.length + 1) (fun u p r => r = [] ∧ DerivesProgram u p) (program (boundFor ts)) := by
    apply program_reads
    simp only [boundFor]
    omega
  have hiff : parseTokens program ts eof = ⟨some p, []⟩ ↔ DerivesProgram ts p :=
    parseTokens_eq_iff hreads fun h => program_accepts h le_rfl
  rw [← hiff]
  constructor
  · intro h
    obtain ⟨hresult, hclean⟩ := Parsed.mk.inj h
    obtain ⟨q, hq⟩ := parseTokens_result_of_clean hreads hclean
    rw [hq, Option.getD_some] at hresult
    rw [← hresult, ← hclean, ← hq]
  · intro h
    simp only [parseProgramTokens, h, Option.getD_some]

end LoxLang
