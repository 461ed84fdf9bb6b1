import LoxLang.Proofs.Grammar.Sequence
import LoxLang.Proofs.Grammar.Trees
/-!
# Errors inside of a block

A block ends where its declarations leave a closing brace. A malformed declaration skips one token and then on to behind a
semicolon or before a word that starts a statement; a brace does not stop it. So errors stay inside of a block exactly if
the tokens between its braces end in a semicolon, or are none at all, and no panic is met at their end: otherwise skipping
takes the brace along, and with nothing behind it the block is reported as not closed.
-/

namespace LoxLang

open Grammar

/-- Tokens between braces whose errors do not reach the closing one. -/
structure Contained (line : Int) (ts : List Token) : Prop where
  closed : ts = [] ∨ EndsInSemicolon ts
  /-- No diagnostic is about the end when they are parsed alone. -/
  early : ∀ d ∈ (parseProgramTokens ts (.atEnd line)).diagnostics, d.place ≠ .atEnd

namespace Grammar

/-! ### Blocks that close -/

/-- The declarations of contained tokens are read before a closing brace as they are read alone. -/
theorem declarations_before_brace {b r : Nat} {line : Int} {ts behind : List Token} {closing : Token} {c : Cursor}
    (hbraces : ∀ t ∈ ts, t.kind ≠ .rightBrace) (hts : Contained line ts) (hclosing : closing.kind = .rightBrace)
    (hrest : c.rest = ts ++ closing :: behind) (hc : c.rest.length < b / 2) (hr : ts.length < r) :
    Run (itemsUntil (Cursor.isAt .rightBrace) (declaration (b + 1) false) r) c
      (some (parseProgramTokens ts (.atEnd line)).result) ts (closing :: behind)
      (parseProgramTokens ts (.atEnd line)).diagnostics := by
  induction r generalizing ts c with
  | zero => omega
  | succ r ih =>
    by_cases hnil : ts = []
    · subst hnil
      have hstop : Run (itemsUntil (Cursor.isAt .rightBrace) (declaration (b + 1) false) (r + 1)) c (some []) [] c.rest [] :=
        .itemsUntil_stop (by simp [Cursor.isAt, hrest, hclosing])
      rw [hrest] at hstop
      exact hstop
    · have hlength : ts.length < b / 2 := by
        rw [hrest, List.length_append] at hc
        omega
      obtain ⟨o, taken, more, new, hrun⟩ := declaration_run (b := b) (c := ⟨ts, .atEnd line, []⟩) false hlength
      have hparse := parseProgramTokens_eq_append hnil hlength hrun
      have htaken : 1 ≤ taken.length := (statement_declaration_local (b + 1) 0 false).2.2 hnil hlength hrun
      obtain rfl : ts = taken ++ more := hrun.rest
      obtain ⟨hclosed, hearly⟩ := hts
      have hclosed := hclosed.resolve_left hnil
      rw [hparse] at hearly
      obtain ⟨hnew, hearlyMore⟩ := List.forall_mem_append.mp hearly
      -- A panic at the end would have been reported there.
      have hshort (taken' : List Token) (new' : List Diagnostic) :
          ¬ Run (bareDeclaration b false) ⟨taken ++ more, .atEnd line, []⟩ none taken' [] new' := by
        intro hpanic
        obtain ⟨-, -, -, rfl⟩ := hrun.unique hpanic.recover_end
        obtain ⟨o₁, taken₁, more₁, new₁, hrun₁, hreported, -⟩ := (bareDeclaration_closes b 0 false).runs
          (c := ⟨taken ++ more, .atEnd line, []⟩) hlength
        obtain ⟨rfl, -, rfl, rfl⟩ := hrun₁.unique hpanic
        obtain ⟨before, what, rfl, -⟩ := hreported
        exact hnew _ (List.mem_append_right _ (List.mem_singleton.mpr rfl)) rfl
      have hdeclaration : Run (declaration (b + 1) false) c (some o) taken (more ++ closing :: behind) new :=
        declaration_append (c := ⟨taken ++ more, .atEnd line, []⟩) hlength hc hclosed hrest
          (by simp [Unwanted, hclosing]) hshort hrun
      have hmore : Contained line more := by
        refine ⟨?_, hearlyMore⟩
        by_cases hmore : more = []
        · exact .inl hmore
        · exact .inr (hclosed.of_append hmore)
      have hgo : (c.isAt .rightBrace || c.atEnd) = false := by
        cases taken with
        | nil => simp at htaken
        | cons t taken => simpa [Cursor.isAt, Cursor.atEnd, hrest] using hbraces t (by simp)
      rw [hparse]
      rw [List.length_append] at hr
      refine .itemsUntil_step hgo hdeclaration (ih (fun t ht => hbraces t (by simp [ht])) hmore rfl ?_ (by omega))
      exact Cursor.length_rest_after_lt hc hdeclaration.rest (Nat.zero_le _)

theorem block_run {b : Nat} {f : Bool} {c : Cursor} {o : Option (List Node)} {opening : Token}
    {inner taken more : List Token} {new : List Diagnostic} (hopening : opening.kind = .leftBrace)
    (hrest : c.rest = opening :: inner)
    (hblock : Run (block b (declaration b f)) (c.after inner []) o taken more new) :
    Run (bareDeclaration (b + 1) f) c (o.map .block) (opening :: taken) more new := by
  have hplain : Unwanted (fun k => k == .kwFun || k == .kwVar) c.rest := by simp [hrest, Unwanted, hopening]
  refine .take?_none hplain (.take?_some (by rw [hopening]; rfl) hrest ?_)
  simp only [hopening]
  cases o with
  | none => exact hblock.bind_none
  | some statements =>
    have := hblock.bind_some (f := fun statements => pure (Node.block statements)) (.pure _ _)
    simpa using this

/-! ### Blocks that do not close -/

/-- Skipping stops before a word that starts a statement, or else behind a semicolon. -/
theorem endsInSemicolon_skipped {ts skipped more : List Token} {t : Token} (hts : ts = skipped ++ t :: more)
    (hstop : synchronize ts = t :: more) (ht : startsStatement t.kind = false) : EndsInSemicolon skipped := by
  have hskip {last : Token} {ts skipped : List Token} (hts : ts = skipped ++ t :: more)
      (hstop : skipAfter last ts = t :: more) : EndsInSemicolon (last :: skipped) := by
    induction ts generalizing last skipped with
    | nil => cases hstop
    | cons s ts ih =>
      rw [skipAfter] at hstop
      split at hstop
      next hend =>
        obtain rfl : skipped = [] := by
          rw [hstop] at hts
          exact List.append_left_eq_self.mp hts.symm
        obtain ⟨rfl, -⟩ := List.cons.inj hstop
        exact ⟨last, rfl, by simpa [ht] using hend⟩
      next hend =>
        cases skipped with
        | nil =>
          have hlt := (skipAfter_suffix s ts).length_le
          have hlength := congrArg List.length hts
          rw [hstop] at hlt
          simp only [List.nil_append, List.length_cons] at hlength hlt
          omega
        | cons s' skipped =>
          obtain ⟨rfl, hrest⟩ := List.cons.inj hts
          obtain ⟨last', hlast', hkind⟩ := ih hrest hstop
          exact ⟨last', by simpa using hlast', hkind⟩
  cases ts with
  | nil => cases hstop
  | cons s ts =>
    cases skipped with
    | nil =>
      have hlt := length_synchronize_lt (List.cons_ne_nil s ts)
      rw [hstop, hts] at hlt
      simp at hlt
    | cons s' skipped =>
      obtain ⟨rfl, hrest⟩ := List.cons.inj hts
      exact hskip hrest hstop

/-- A declaration that ends before the closing brace is the same without the brace. -/
theorem declaration_without_brace {b b' : Nat} {f : Bool} {c d : Cursor} {o : Option Node} {taken more : List Token}
    {closing : Token} {new : List Diagnostic} (hc : c.rest.length < b / 2) (hd : d.rest.length < b' / 2)
    (hrest : d.rest = taken ++ more) (hbraces : ∀ t ∈ taken, t.kind ≠ .rightBrace) (hclosing : closing.kind = .rightBrace)
    (hrun : Run (declaration (b + 1) f) c (some o) taken (more ++ [closing]) new) :
    Run (declaration (b' + 1) f) d (some o) taken more new ∧ (more = [] → EndsInSemicolon taken) := by
  have hcloses := bareDeclaration_closes b b' f
  rw [declaration_eq_recover] at hrun ⊢
  obtain ⟨o₁, taken₁, more₁, new₁, hrun₁, -⟩ := hcloses.runs hc
  cases o₁ with
  | some a =>
    obtain ⟨ho, rfl, rfl, rfl⟩ := hrun.unique hrun₁.recover_some
    have hlast := hcloses.last hc hrun₁
    rw [ho]
    constructor
    · by_cases hmore : more = []
      · subst hmore
        exact (hcloses.free hc hd hrun₁ hrest (by simp [Unwanted])).recover_some
      · refine (hcloses.same hc hd hrun₁ hrest ?_).recover_some
        simpa using Cursor.ShowsSame.of_front hmore [closing] []
    · intro _
      unfold ClosedBy at hlast
      cases hlast' : taken.getLast? with
      | none => simp [hlast'] at hlast
      | some t =>
        refine ⟨t, hlast', ?_⟩
        simpa [hlast', closesStatement, hbraces t (List.mem_of_getLast? hlast')] using hlast
  | none =>
    obtain ⟨skipped, hskipped⟩ := exists_skipped more₁
    obtain ⟨ho, rfl, hstop, rfl⟩ := hrun.unique (hrun₁.recover_none hskipped)
    have hne : skipped ≠ [] := by
      rintro rfl
      have hmore₁ : more₁ ≠ [] := by
        rintro rfl
        simp [synchronize] at hstop
      have := length_synchronize_lt hmore₁
      rw [← List.nil_append (synchronize _), ← hskipped] at this
      omega
    have hsemicolon : more = [] → EndsInSemicolon skipped := by
      rintro rfl
      have hmore₁ : more₁ = skipped ++ closing :: [] := by
        rw [hskipped, ← hstop]
        rfl
      exact endsInSemicolon_skipped hmore₁ hstop.symm (by rw [hclosing]; rfl)
    have hstop' : synchronize (skipped ++ more) = more := by
      by_cases hmore : more = []
      · subst hmore
        have hall := synchronize_append (hsemicolon rfl) [closing]
        rw [show skipped ++ [closing] = more₁ by rw [hskipped, ← hstop]; rfl, ← hstop] at hall
        simpa using (List.append_left_eq_self.mp hall.symm)
      · refine synchronize_append_of_head hskipped ?_
        rw [← hstop, List.head?_append_of_ne_nil _ hmore]
    rw [List.append_assoc] at hrest
    have hshows : c.ShowsSame d more₁ (skipped ++ more) := by
      rw [hskipped]
      exact .of_front hne _ _
    have hpanic := (hcloses.same hc hd hrun₁ hrest hshows).recover_none
      (show skipped ++ more = skipped ++ synchronize (skipped ++ more) by rw [hstop'])
    rw [hstop', ← ho] at hpanic
    refine ⟨hpanic, fun hmore => ?_⟩
    obtain ⟨t, ht, hkind⟩ := hsemicolon hmore
    exact ⟨t, by rw [List.getLast?_append_of_ne_nil _ hne]; exact ht, hkind⟩

/-- The declarations of a block either end before its closing brace, and then the tokens before that are contained, or they
take the brace along. -/
theorem declarations_until_brace {b r : Nat} {ts : List Token} {closing : Token} {c : Cursor}
    (hbraces : ∀ t ∈ ts, t.kind ≠ .rightBrace) (hclosing : closing.kind = .rightBrace) (hrest : c.rest = ts ++ [closing])
    (hc : c.rest.length < b / 2) (hr : c.rest.length < r) : ∃ statements new,
      ((ts = [] ∨ EndsInSemicolon ts) ∧ ∀ eof, parseProgramTokens ts eof = ⟨statements, new⟩) ∨
      Run (itemsUntil (Cursor.isAt .rightBrace) (declaration (b + 1) false) r) c (some statements) c.rest [] new := by
  induction r generalizing ts c with
  | zero => omega
  | succ r ih =>
    by_cases hnil : ts = []
    · exact ⟨[], [], .inl ⟨.inl hnil, fun eof => by rw [hnil, parseProgramTokens_nil]⟩⟩
    · obtain ⟨o, taken, more, new, hrun⟩ := declaration_run (b := b) (c := c) false hc
      have hne : c.rest ≠ [] := by simp [hrest]
      have htaken : 1 ≤ taken.length := (statement_declaration_local (b + 1) 0 false).2.2 hne hc hrun
      have hlength := congrArg List.length hrun.rest
      rw [List.length_append] at hlength
      have hgo : (c.isAt .rightBrace || c.atEnd) = false := by
        cases ts with
        | nil => exact absurd rfl hnil
        | cons t ts => simpa [Cursor.isAt, Cursor.atEnd, hrest] using hbraces t (by simp)
      -- Either the brace has been taken, or it is the last of what is left.
      rcases List.eq_nil_or_concat' more with rfl | ⟨left, last, rfl⟩
      · obtain ⟨r, rfl⟩ : ∃ r', r = r' + 1 := ⟨r - 1, by simp [hrest] at hr; omega⟩
        have hend : Run (itemsUntil (Cursor.isAt .rightBrace) (declaration (b + 1) false) (r + 1)) (c.after [] new) (some [])
            [] [] [] := .itemsUntil_stop (by simp [Cursor.atEnd])
        have hall := Run.itemsUntil_step hgo hrun hend
        rw [List.append_nil taken, show taken = c.rest by rw [hrun.rest, List.append_nil]] at hall
        exact ⟨_, _, .inr hall⟩
      · obtain ⟨rfl, hlast⟩ := List.append_inj' (hrest.symm.trans (hrun.rest.trans (List.append_assoc ..).symm)) rfl
        obtain rfl : closing = last := List.singleton_inj.mp hlast
        obtain ⟨statements, new', hdone | hrun'⟩ := ih (c := c.after (left ++ [closing]) new)
          (fun t ht => hbraces t (List.mem_append_right taken ht)) rfl (by rw [Cursor.rest_after]; omega)
          (by rw [Cursor.rest_after]; omega)
        · obtain ⟨hleft, hparse⟩ := hdone
          have halone (eof : Token) := declaration_without_brace (d := ⟨taken ++ left, eof, []⟩) hc (by
            rw [hrest, List.length_append] at hc
            exact Nat.lt_of_le_of_lt (Nat.le_add_right _ _) hc) rfl (fun t ht => hbraces t (by simp [ht])) hclosing hrun
          refine ⟨o.toList ++ statements, new ++ new', .inl ⟨.inr ?_, fun eof => ?_⟩⟩
          · by_cases hleftNil : left = []
            · subst hleftNil
              rw [List.append_nil]
              exact (halone closing).2 rfl
            · obtain ⟨t, ht, hkind⟩ := hleft.resolve_left hleftNil
              exact ⟨t, by rw [List.getLast?_append_of_ne_nil _ hleftNil]; exact ht, hkind⟩
          · rw [parseProgramTokens_eq_append hnil (by rw [hrest, List.length_append] at hc; omega) (halone eof).1,
              hparse eof]
            rfl
        · have hall := Run.itemsUntil_step hgo hrun hrun'
          rw [Cursor.rest_after, ← hrun.rest] at hall
          exact ⟨_, _, .inr hall⟩

end Grammar

/-! ### Blocks between other statements -/

/-- Contained tokens are reported at one of their own. -/
theorem Contained.diagnostics {line : Int} {ts : List Token} (h : Contained line ts) :
    ∀ d ∈ (parseProgramTokens ts (.atEnd line)).diagnostics, ∃ t ∈ ts, ∃ complaint, d = t.complain complaint := by
  intro d hd
  obtain ⟨t, complaint, ht | rfl, rfl⟩ := parseProgramTokens_diagnostics ts (.atEnd line) d hd
  · exact ⟨t, ht, complaint, rfl⟩
  · exact absurd rfl (h.early _ hd)

/-- What is reported wherever the tokens end is not about their end. -/
theorem contained_of_any_end {line : Int} {ts : List Token} {statements : List Node} {new : List Diagnostic}
    (hclosed : ts = [] ∨ EndsInSemicolon ts) (heof : ∀ t ∈ ts, t.kind ≠ .eof)
    (h : ∀ eof, parseProgramTokens ts eof = ⟨statements, new⟩) : Contained line ts := by
  refine ⟨hclosed, fun d hd hplace => ?_⟩
  -- A complaint about the end would be on the line of whatever token marks it.
  have hline (l : Int) : d.line = l := by
    rw [h, ← congrArg Parsed.diagnostics (h (.atEnd l))] at hd
    obtain ⟨t, complaint, ht | rfl, rfl⟩ := parseProgramTokens_diagnostics ts (.atEnd l) d hd
    · simp [Token.complain, heof t ht] at hplace
    · rfl
  have := (hline 0).symm.trans (hline 1)
  omega

theorem parse_contained_block {line : Int} {inner behind : List Token} {opening closing : Token} (h : Contained line inner)
    (hopening : opening.kind = .leftBrace) (hclosing : closing.kind = .rightBrace)
    (hbraces : ∀ t ∈ inner, t.kind ≠ .rightBrace) (eof : Token) :
    parseProgramTokens (opening :: (inner ++ closing :: behind)) eof =
      Parsed.append ⟨[.block (parseProgramTokens inner (.atEnd line)).result],
        (parseProgramTokens inner (.atEnd line)).diagnostics⟩ (parseProgramTokens behind eof) := by
  obtain ⟨b, hb⟩ : ∃ b, b = 2 * (inner ++ closing :: behind).length + 2 := ⟨_, rfl⟩
  have hitems := declarations_before_brace (b := b) (r := b + 1) (c := ⟨inner ++ closing :: behind, eof, []⟩) hbraces h
    hclosing rfl (by simp only; omega) (by rw [hb, List.length_append]; omega)
  have hblock : Run (block (b + 1) (declaration (b + 1) false)) ⟨inner ++ closing :: behind, eof, []⟩ _ _ _ _ :=
    hitems.bind_some (.expect_some hclosing rfl (.pure _ _))
  have hrun := (block_run (c := ⟨opening :: (inner ++ closing :: behind), eof, []⟩) hopening rfl hblock).recover_some
  rw [parseProgramTokens_eq_append (List.cons_ne_nil _ _) (by rw [List.length_cons]; omega) hrun, List.append_nil]
  rfl

/-- A block that takes its closing brace along is reported as not closed. -/
theorem parse_open_block {line : Int} {inner : List Token} {opening closing : Token} (h : ¬ Contained line inner)
    (hopening : opening.kind = .leftBrace) (hclosing : closing.kind = .rightBrace)
    (hinner : ∀ t ∈ inner, t.kind ≠ .rightBrace ∧ t.kind ≠ .eof) (eof : Token) :
    ∃ what, eof.complain (.expected what) ∈ (parseProgramTokens (opening :: (inner ++ [closing])) eof).diagnostics := by
  obtain ⟨b, hb⟩ : ∃ b, b = 2 * (inner ++ [closing]).length + 2 := ⟨_, rfl⟩
  obtain ⟨statements, new, ⟨hclosed, hparse⟩ | hitems⟩ := declarations_until_brace (b := b) (r := b + 1)
    (c := ⟨inner ++ [closing], eof, []⟩) (fun t ht => (hinner t ht).1) hclosing rfl (by simp only; omega)
    (by simp only; omega)
  · exact absurd (contained_of_any_end hclosed (fun t ht => (hinner t ht).2) hparse) h
  · have hblock : Run (block (b + 1) (declaration (b + 1) false)) ⟨inner ++ [closing], eof, []⟩ _ _ _ _ :=
      hitems.bind_some (.expect_none (by simp [Unwanted]))
    have hrun := (block_run (c := ⟨opening :: (inner ++ [closing]), eof, []⟩) hopening rfl hblock).recover_end
    rw [parseProgramTokens_eq_append (List.cons_ne_nil _ _) (by rw [List.length_cons]; omega) hrun]
    exact ⟨_, List.mem_append_left _ (List.mem_append_right _ (List.mem_singleton.mpr rfl))⟩

/-- **Errors inside of a block.** Between statements without a diagnostic, a block around contained tokens closes: it holds
the statements of these tokens, the statements around it stay, and every diagnostic is at one of the tokens inside. Any
other block is reported as not closed when it is alone. -/
theorem parseProgramTokens_block (line : Int) {before inner behind : List Token} {opening closing : Token}
    (hbefore : (parseProgramTokens before (.atEnd line)).diagnostics = [])
    (hbehind : (parseProgramTokens behind (.atEnd line)).diagnostics = [])
    (hopening : opening.kind = .leftBrace) (hclosing : closing.kind = .rightBrace)
    (hinner : ∀ t ∈ inner, t.kind ≠ .leftBrace ∧ t.kind ≠ .rightBrace ∧ t.kind ≠ .eof) :
    (Contained line inner →
      parseProgramTokens (before ++ opening :: (inner ++ closing :: behind)) (.atEnd line) =
        ⟨(parseProgramTokens before (.atEnd line)).result ++ .block (parseProgramTokens inner (.atEnd line)).result ::
          (parseProgramTokens behind (.atEnd line)).result, (parseProgramTokens inner (.atEnd line)).diagnostics⟩ ∧
      ∀ d ∈ (parseProgramTokens inner (.atEnd line)).diagnostics, ∃ t ∈ inner, ∃ complaint, d = t.complain complaint) ∧
    (¬ Contained line inner → ∃ what, (Token.atEnd line).complain (.expected what) ∈
      (parseProgramTokens (opening :: (inner ++ [closing])) (.atEnd line)).diagnostics) := by
  constructor
  · intro h
    refine ⟨?_, h.diagnostics⟩
    rw [parseProgramTokens_append_of_clean hbefore (by simp [Unwanted, hopening]),
      parse_contained_block h hopening hclosing fun t ht => (hinner t ht).2.1]
    simp [Parsed.append, hbefore, hbehind]
  · exact fun h => parse_open_block h hopening hclosing (fun t ht => (hinner t ht).2) _

/-- A malformed declaration in a block between two statements. -/
theorem parseProgramTokens_block_malformedInside :
    let token (k : Kind) : Token := ⟨k, .str k.name, .null, 1⟩
    let statement := [token .kwPrint, token .kwNil, token .semicolon]
    let inner := [token .kwVar, token .plus, token .semicolon] ++ statement
    (parseProgramTokens statement (.atEnd 1)).diagnostics = [] ∧
      (∀ t ∈ inner, t.kind ≠ .leftBrace ∧ t.kind ≠ .rightBrace ∧ t.kind ≠ .eof) ∧ Contained 1 inner ∧
      parseProgramTokens (statement ++ token .leftBrace :: (inner ++ token .rightBrace :: statement)) (.atEnd 1) =
        ⟨[.print (.literal .null), .block [.print (.literal .null)], .print (.literal .null)],
          [⟨1, .at "PLUS", .expected "variable name"⟩]⟩ := by
  intro token statement inner
  have hstatement : (parseProgramTokens statement (.atEnd 1)).diagnostics = [] := rfl
  have hinner : ∀ t ∈ inner, t.kind ≠ .leftBrace ∧ t.kind ≠ .rightBrace ∧ t.kind ≠ .eof := by decide
  have hcontained : Contained 1 inner := ⟨.inr ⟨token .semicolon, rfl, rfl⟩, by decide⟩
  refine ⟨hstatement, hinner, hcontained, ?_⟩
  exact ((parseProgramTokens_block 1 hstatement hstatement rfl rfl hinner).1 hcontained).1.trans rfl

/-- Where the last statement of a block lacks its semicolon, the closing brace is skipped, and with it the block is lost:
what stands behind is read as if it were inside. -/
theorem block_lost_with_its_brace :
    let token (k : Kind) : Token := ⟨k, .str k.name, .null, 1⟩
    let inner := [token .kwPrint, token .kwNil]
    let behind := [token .kwPrint, token .kwNil, token .semicolon]
    let parsed := parseProgramTokens (token .leftBrace :: (inner ++ token .rightBrace :: behind)) (.atEnd 1)
    (∀ t ∈ inner, t.kind ≠ .leftBrace ∧ t.kind ≠ .rightBrace ∧ t.kind ≠ .eof) ∧
      (parseProgramTokens behind (.atEnd 1)).diagnostics = [] ∧
      parsed = ⟨[], [⟨1, .at "RIGHT_BRACE", .expected "';' after value"⟩, ⟨1, .atEnd, .expected "'\x7d' after block"⟩]⟩ ∧
      (¬ ∃ body, parsed.result = .block body :: (parseProgramTokens behind (.atEnd 1)).result) ∧
      ∃ d ∈ parsed.diagnostics, ∀ t ∈ inner ++ [token .rightBrace], ∀ complaint, d ≠ t.complain complaint := by
  intro token inner behind parsed
  have hparsed : parsed = ⟨[], [⟨1, .at "RIGHT_BRACE", .expected "';' after value"⟩,
      ⟨1, .atEnd, .expected "'\x7d' after block"⟩]⟩ := rfl
  have hkinds : ∀ t ∈ inner ++ [token .rightBrace], t.kind ≠ .eof := by decide
  refine ⟨by decide, rfl, hparsed, ?_, ⟨1, .atEnd, .expected "'\x7d' after block"⟩, ?_, ?_⟩
  · rintro ⟨body, hbody⟩
    rw [hparsed] at hbody
    cases hbody
  · rw [hparsed]
    simp
  · intro t ht complaint hd
    have hplace := congrArg Diagnostic.place hd
    simp [Token.complain, hkinds t ht] at hplace

end LoxLang
