import LoxLang.Proofs.Grammar.Completeness
import LoxLang.Proofs.Grammar.Returns
import LoxLang.Proofs.Token.Lexeme
/-!
# What a parser looks at

A parser decides by the next token alone. So a run takes some tokens, adds some reports and ends with a result or in a
panic, and all of this stays as it is when what stands behind the tokens taken is replaced by other tokens with the same
first one. `Local` says so of a parser with two bounds, since a longer list comes with a larger bound; it also says which
kinds of tokens are taken, how many at least, and that a panic complains about the token it ends before.

There is one rule for each step a parser can take. The lists and the levels of expressions follow from the rules.
-/

namespace LoxLang

/-- The diagnostics of a parser that cannot go on. -/
def Diagnostic.isPanic (d : Diagnostic) : Bool :=
  match d.complaint with
  | .expected _ => true
  | _ => false

namespace Grammar

variable {α β : Type}

/-! ### Runs -/

/-- The end of a run: with a result, or in a panic. -/
def ending : Option α → Cursor → EStateM.Result Panic Cursor α
  | some a, c => .ok a c
  | none, c => .error .panic c

theorem ending_inj {o o' : Option α} {c c' : Cursor} : ending o c = ending o' c' ↔ o = o' ∧ c = c' := by
  cases o <;> cases o' <;> simp [ending]

namespace Cursor

/-- The cursor when only `rest` is left and there are new reports. -/
def after (c : Cursor) (rest : List Token) (new : List Diagnostic) : Cursor := ⟨rest, c.eof, c.reports ++ new⟩

@[simp] theorem rest_after (c : Cursor) (rest : List Token) (new : List Diagnostic) : (c.after rest new).rest = rest :=
  rfl

@[simp] theorem after_after (c : Cursor) (rest rest' : List Token) (new new' : List Diagnostic) :
    (c.after rest new).after rest' new' = c.after rest' (new ++ new') := by
  simp [after, List.append_assoc]

@[simp] theorem after_self (c : Cursor) : c.after c.rest [] = c := by
  simp [after]

theorem after_inj {c : Cursor} {rest rest' : List Token} {new new' : List Diagnostic} :
    c.after rest new = c.after rest' new' ↔ rest = rest' ∧ new = new' := by
  simp [after]

theorem length_rest_after_lt {c : Cursor} {taken more : List Token} {new : List Diagnostic} {l k : Nat}
    (hc : c.rest.length < l) (hrest : c.rest = taken ++ more) (hk : k ≤ taken.length) :
    (c.after more new).rest.length < l - k := by
  rw [hrest, List.length_append] at hc
  rw [rest_after]
  omega

theorem length_rest_after_cons_lt {c : Cursor} {t : Token} {more : List Token} {new : List Diagnostic} {l : Nat}
    (hc : c.rest.length < l) (hrest : c.rest = t :: more) : (c.after more new).rest.length < l - 1 := by
  rw [hrest, List.length_cons] at hc
  rw [rest_after]
  omega

/-- The token that a parser sees next, when these tokens are left. -/
def next (c : Cursor) (rest : List Token) : Token := rest.headD c.eof

/-- Both cursors show the same to a parser when these tokens are left of theirs: the same next token, or the same end. -/
def ShowsSame (c d : Cursor) (rest rest' : List Token) : Prop :=
  rest.head? = rest'.head? ∧ (rest = [] → c.eof = d.eof)

namespace ShowsSame

variable {c d : Cursor} {rest rest' : List Token}

theorem append (h : ShowsSame c d rest rest') (taken : List Token) :
    ShowsSame c d (taken ++ rest) (taken ++ rest') := by
  cases taken with
  | nil => exact h
  | cons t taken => exact ⟨rfl, nofun⟩

/-- Whatever stands behind a token is not seen. -/
theorem of_front {taken : List Token} (h : taken ≠ []) (rest rest' : List Token) :
    ShowsSame c d (taken ++ rest) (taken ++ rest') := by
  cases taken with
  | nil => exact absurd rfl h
  | cons t taken => exact ⟨rfl, nofun⟩

theorem next (h : ShowsSame c d rest rest') : c.next rest = d.next rest' := by
  obtain ⟨hhead, heof⟩ := h
  cases rest with
  | nil =>
    obtain rfl : rest' = [] := List.head?_eq_none_iff.mp hhead.symm
    exact heof rfl
  | cons t more =>
    obtain ⟨more', rfl⟩ := List.head?_eq_some_iff.mp hhead.symm
    rfl

theorem isAt (h : ShowsSame c d c.rest d.rest) (kind : Kind) : c.isAt kind = d.isAt kind := by
  simp only [Cursor.isAt]
  cases hc : c.rest with
  | nil =>
    have hd : d.rest = [] := List.head?_eq_none_iff.mp (by rw [← h.1, hc]; rfl)
    rw [hd]
  | cons t more =>
    obtain ⟨more', hd⟩ := List.head?_eq_some_iff.mp (show d.rest.head? = some t by rw [← h.1, hc]; rfl)
    rw [hd]

theorem atEnd (h : ShowsSame c d c.rest d.rest) : c.atEnd = d.atEnd := by
  rw [Bool.eq_iff_iff, Cursor.atEnd, Cursor.atEnd, List.isEmpty_iff, List.isEmpty_iff, ← List.head?_eq_none_iff, h.1,
    List.head?_eq_none_iff]

end ShowsSame

end Cursor

/-- The run of a parser from `c` takes the tokens `taken`, leaves `more` and reports what is `new`. -/
structure Run (p : Parser α) (c : Cursor) (o : Option α) (taken more : List Token) (new : List Diagnostic) : Prop where
  rest : c.rest = taken ++ more
  ends : p c = ending o (c.after more new)

namespace Run

variable {p : Parser α} {f : α → Parser β} {c : Cursor} {o : Option α} {taken more : List Token} {new : List Diagnostic}

theorem unique (h : Run p c o taken more new) {o' : Option α} {taken' more' : List Token} {new' : List Diagnostic}
    (h' : Run p c o' taken' more' new') : o = o' ∧ taken = taken' ∧ more = more' ∧ new = new' := by
  have hends := h.ends.symm.trans h'.ends
  rw [ending_inj, Cursor.after_inj] at hends
  obtain ⟨ho, rfl, hnew⟩ := hends
  exact ⟨ho, List.append_cancel_right (h.rest.symm.trans h'.rest), rfl, hnew⟩

/-- A run that takes nothing. -/
theorem still (h : p c = ending o (c.after c.rest new)) : Run p c o [] c.rest new := ⟨rfl, h⟩

theorem pure (a : α) (c : Cursor) : Run (Pure.pure a) c (some a) [] c.rest [] :=
  .still (by rw [Cursor.after_self]; rfl)

theorem bind_some {a : α} (h : Run p c (some a) taken more new) {o : Option β} {taken' more' : List Token}
    {new' : List Diagnostic} (h' : Run (f a) (c.after more new) o taken' more' new') :
    Run (p >>= f) c o (taken ++ taken') more' (new ++ new') where
  rest := by rw [h.rest, show more = taken' ++ more' from h'.rest, List.append_assoc]
  ends := by rw [bind_ok h.ends, h'.ends, Cursor.after_after]

theorem bind_none (h : Run p c none taken more new) : Run (p >>= f) c none taken more new :=
  ⟨h.rest, bind_error h.ends⟩

theorem take?_some {wanted : Kind → Bool} {f : Option Token → Parser β} {t : Token} {after : List Token} {o : Option β}
    (ht : wanted t.kind = true) (hc : c.rest = t :: after) (h : Run (f (some t)) (c.after after []) o taken more new) :
    Run (take? wanted >>= f) c o (t :: taken) more new where
  rest := by rw [hc, show after = taken ++ more from h.rest, List.cons_append]
  ends := by
    have htake : take? wanted c = .ok (some t) (c.after after []) := by
      obtain ⟨rest, eof, reports⟩ := c
      obtain rfl : rest = t :: after := hc
      simp [take?_wanted ht, Cursor.after]
    rw [bind_ok htake, h.ends, Cursor.after_after, List.nil_append]

theorem take?_none {wanted : Kind → Bool} {f : Option Token → Parser β} {o : Option β} (hc : Unwanted wanted c.rest)
    (h : Run (f none) c o taken more new) : Run (take? wanted >>= f) c o taken more new :=
  ⟨h.rest, by rw [bind_ok (take?_unwanted hc), h.ends]⟩

theorem expect_some {kind : Kind} {what : String} {f : Token → Parser β} {t : Token} {after : List Token} {o : Option β}
    (ht : t.kind = kind) (hc : c.rest = t :: after) (h : Run (f t) (c.after after []) o taken more new) :
    Run (expect kind what >>= f) c o (t :: taken) more new := by
  rw [expect, bind_assoc]
  exact take?_some (beq_iff_eq.mpr ht) hc (by rwa [pure_bind])

theorem fail (what : String) (c : Cursor) :
    Run (fail (.expected what) : Parser α) c none [] c.rest [(c.next c.rest).complain (.expected what)] := still rfl

theorem expect_none {kind : Kind} {what : String} {f : Token → Parser β} (hc : Unwanted (· == kind) c.rest) :
    Run (expect kind what >>= f) c none [] c.rest [(c.next c.rest).complain (.expected what)] := by
  rw [expect, bind_assoc]
  exact take?_none hc (by rw [fail_bind]; exact fail what c)

theorem takeAll (wanted : Kind → Bool) (c : Cursor) :
    Run (takeAll wanted) c (some (c.rest.takeWhile fun t => wanted t.kind)) (c.rest.takeWhile fun t => wanted t.kind)
      (c.rest.dropWhile fun t => wanted t.kind) [] where
  rest := List.takeWhile_append_dropWhile.symm
  ends := by simp [Grammar.takeAll, ending, Cursor.after]

theorem takeAll_of_stop {wanted : Kind → Bool} (hrest : c.rest = taken ++ more) (htaken : ∀ t ∈ taken, wanted t.kind = true)
    (hmore : Unwanted wanted more) : Run (Grammar.takeAll wanted) c (some taken) taken more [] := by
  obtain ⟨htake, hdrop⟩ := Segment.takeWhile_append_stop (p := fun t : Token => wanted t.kind) htaken hmore
  have hrun := takeAll wanted c
  rwa [hrest, htake, hdrop] at hrun

theorem itemsUntil_stop {stop : Cursor → Bool} {item : Parser (Option α)} {bound : Nat} (h : (stop c || c.atEnd) = true) :
    Run (itemsUntil stop item (bound + 1)) c (some []) [] c.rest [] :=
  .still (by rw [Grammar.itemsUntil_stop h, Cursor.after_self]; rfl)

theorem itemsUntil_step {stop : Cursor → Bool} {item : Parser (Option α)} {bound : Nat} {first : Option α} {as : List α}
    {taken' more' : List Token} {new' : List Diagnostic} (h : (stop c || c.atEnd) = false)
    (hfirst : Run item c (some first) taken more new)
    (has : Run (itemsUntil stop item bound) (c.after more new) (some as) taken' more' new') :
    Run (itemsUntil stop item (bound + 1)) c (some (first.toList ++ as)) (taken ++ taken') more' (new ++ new') := by
  have hround := hfirst.bind_some (f := fun first => itemsUntil stop item bound >>= fun as => Pure.pure (first.toList ++ as))
    (has.bind_some (.pure _ _))
  rw [List.append_nil, List.append_nil] at hround
  exact ⟨hround.rest, (Grammar.itemsUntil_step h).trans hround.ends⟩

theorem recover_some {a : α} (h : Run p c (some a) taken more new) :
    Run (recover p) c (some (some a)) taken more new :=
  ⟨h.rest, by simp only [recover, h.ends, ending]⟩

/-- A panic that is stopped has skipped some tokens more. -/
theorem recover_none (h : Run p c none taken more new) {skipped : List Token}
    (hskipped : more = skipped ++ synchronize more) :
    Run (recover p) c (some none) (taken ++ skipped) (synchronize more) new where
  rest := by rw [List.append_assoc, ← hskipped, h.rest]
  ends := by simp only [recover, h.ends, ending]; rfl

theorem recover_end (h : Run p c none taken [] new) : Run (recover p) c (some none) taken [] new := by
  have hrun := h.recover_none (show [] = [] ++ synchronize [] from rfl)
  rwa [List.append_nil] at hrun

end Run

/-! ### Where skipping stops -/

theorem exists_skipped (ts : List Token) : ∃ skipped, ts = skipped ++ synchronize ts := by
  obtain ⟨skipped, h⟩ := synchronize_suffix ts
  exact ⟨skipped, h.symm⟩

theorem skipAfter_append_of_head {last : Token} {ts skipped more' : List Token} (hts : ts = skipped ++ skipAfter last ts)
    (hhead : (skipAfter last ts).head? = more'.head?) : skipAfter last (skipped ++ more') = more' := by
  induction ts generalizing last skipped with
  | nil =>
    obtain ⟨rfl, -⟩ : skipped = [] ∧ _ := List.append_eq_nil_iff.mp hts.symm
    obtain rfl : more' = [] := List.head?_eq_none_iff.mp hhead.symm
    rfl
  | cons t rest ih =>
    rw [skipAfter] at hts hhead
    split at hts
    next hstop =>
      rw [if_pos hstop] at hhead
      obtain rfl : skipped = [] := List.append_left_eq_self.mp hts.symm
      obtain ⟨more', rfl⟩ := List.head?_eq_some_iff.mp hhead.symm
      rw [List.nil_append, skipAfter, if_pos hstop]
    next hstop =>
      rw [if_neg hstop] at hhead
      cases skipped with
      | nil =>
        have := (skipAfter_suffix t rest).length_le
        rw [← (show t :: rest = skipAfter t rest from hts), List.length_cons] at this
        omega
      | cons t' skipped =>
        obtain ⟨rfl, hrest⟩ := List.cons.inj hts
        rw [List.cons_append, skipAfter, if_neg hstop]
        exact ih hrest hhead

theorem length_synchronize_lt {ts : List Token} (h : ts ≠ []) : (synchronize ts).length < ts.length := by
  cases ts with
  | nil => exact absurd rfl h
  | cons t rest => exact Nat.lt_succ_of_le (skipAfter_suffix t rest).length_le

/-- Where skipping stops depends on the tokens skipped and on the next one alone. -/
theorem synchronize_append_of_head {ts skipped more' : List Token} (hts : ts = skipped ++ synchronize ts)
    (hhead : (synchronize ts).head? = more'.head?) : synchronize (skipped ++ more') = more' := by
  cases ts with
  | nil =>
    obtain ⟨rfl, -⟩ : skipped = [] ∧ _ := List.append_eq_nil_iff.mp hts.symm
    obtain rfl : more' = [] := List.head?_eq_none_iff.mp hhead.symm
    rfl
  | cons t rest =>
    cases skipped with
    | nil =>
      have hlt := length_synchronize_lt (List.cons_ne_nil t rest)
      rw [← List.nil_append (synchronize _), ← hts] at hlt
      omega
    | cons t' skipped =>
      obtain ⟨rfl, hrest⟩ := List.cons.inj hts
      exact skipAfter_append_of_head hrest hhead

/-! ### Limits -/

/-- What a parser may take and report. -/
structure Limits where
  takes : Kind → Prop
  reports : Diagnostic → Prop

/-- The kinds that occur in expressions. -/
def inExpression (k : Kind) : Bool :=
  startsPrimary k || isSign k || isFactorOperator k || isTermOperator k || isComparisonOperator k || isEqualityOperator k ||
    k == .kwAnd || k == .kwOr || k == .equal || k == .comma || k == .rightParen

/-- Expressions may be read, and whatever is no panic may be reported. -/
structure Limits.Lenient (limits : Limits) : Prop where
  takes : ∀ k, inExpression k = true → limits.takes k
  reports : ∀ d : Diagnostic, d.isPanic = false → limits.reports d

/-- What a run has reported when it ends before `next`: a panic has complained about that token as its last, and all else
is allowed. -/
def Reported (allowed : Diagnostic → Prop) (next : Token) : Option α → List Diagnostic → Prop
  | some _, new => ∀ d ∈ new, allowed d
  | none, new => ∃ before what, new = before ++ [next.complain (.expected what)] ∧ ∀ d ∈ before, allowed d

/-- The run from a cursor keeps within the limits, and takes as many tokens as `least` if it gives a result. -/
def EndsAt (least : Nat) (limits : Limits) (p : Parser α) (c : Cursor) : Prop :=
  ∃ o taken more new, Run p c o taken more new ∧ Reported limits.reports (c.next more) o new ∧
    (∀ t ∈ taken, limits.takes t.kind) ∧ (o.isSome → least ≤ taken.length)

/-- What the first parser does from `c` the second one does from `d`, if the tokens that are taken are the same and the
cursors show the same behind them. -/
def AgreesAt (p q : Parser α) (c d : Cursor) : Prop :=
  ∀ ⦃o : Option α⦄ ⦃taken more more' : List Token⦄ ⦃new : List Diagnostic⦄, Run p c o taken more new →
    d.rest = taken ++ more' → c.ShowsSame d more more' → Run q d o taken more' new

/-- One parser with two bounds, which are enough for fewer than `m` and fewer than `n` tokens. -/
structure Local (m n least : Nat) (limits : Limits) (p q : Parser α) : Prop where
  runs : ∀ {c : Cursor}, c.rest.length < m → EndsAt least limits p c
  same : ∀ {c d : Cursor}, c.rest.length < m → d.rest.length < n → AgreesAt p q c d

section Bind

variable {k j : Nat} {limits : Limits} {p q : Parser α} {f g : α → Parser β} {c d : Cursor}

/-- Two parsers in a row: the second one runs where the first one has given a result. -/
theorem EndsAt.bind (hp : EndsAt k limits p c)
    (hf : ∀ a taken more new, Run p c (some a) taken more new → k ≤ taken.length →
      EndsAt j limits (f a) (c.after more new)) : EndsAt (k + j) limits (p >>= f) c := by
  obtain ⟨o, taken, more, new, hrun, hreported, htakes, hleast⟩ := hp
  cases o with
  | none => exact ⟨none, taken, more, new, hrun.bind_none, hreported, htakes, nofun⟩
  | some a =>
    have hk : k ≤ taken.length := hleast rfl
    obtain ⟨o, taken', more', new', hrun', hreported', htakes', hleast'⟩ := hf a taken more new hrun hk
    refine ⟨o, taken ++ taken', more', new ++ new', hrun.bind_some hrun', ?_, ?_, fun ho => ?_⟩
    · cases o with
      | some b => exact List.forall_mem_append.mpr ⟨hreported, hreported'⟩
      | none =>
        obtain ⟨before, what, rfl, hbefore⟩ := hreported'
        exact ⟨new ++ before, what, (List.append_assoc ..).symm, List.forall_mem_append.mpr ⟨hreported, hbefore⟩⟩
    · exact List.forall_mem_append.mpr ⟨htakes, htakes'⟩
    · rw [List.length_append]
      exact Nat.add_le_add hk (hleast' ho)

theorem AgreesAt.bind (hsame : AgreesAt p q c d) (hp : EndsAt k limits p c)
    (hf : ∀ a taken more new, Run p c (some a) taken more new → k ≤ taken.length →
      EndsAt j limits (f a) (c.after more new))
    (hg : ∀ a taken more more' new, Run p c (some a) taken more new → d.rest = taken ++ more' → k ≤ taken.length →
      AgreesAt (f a) (g a) (c.after more new) (d.after more' new)) : AgreesAt (p >>= f) (q >>= g) c d := by
  intro o taken more more' new hrun hrest' hshows
  obtain ⟨o₁, taken₁, more₁, new₁, hrun₁, -, -, hleast⟩ := hp
  cases o₁ with
  | none =>
    obtain ⟨rfl, rfl, rfl, rfl⟩ := hrun.unique hrun₁.bind_none
    exact (hsame hrun₁ hrest' hshows).bind_none
  | some a =>
    have hk : k ≤ taken₁.length := hleast rfl
    obtain ⟨o₂, taken₂, more₂, new₂, hrun₂, -⟩ := hf a taken₁ more₁ new₁ hrun₁ hk
    obtain ⟨rfl, rfl, rfl, rfl⟩ := hrun.unique (hrun₁.bind_some hrun₂)
    rw [List.append_assoc] at hrest'
    have hfront : c.ShowsSame d more₁ (taken₂ ++ more') := by
      rw [show more₁ = taken₂ ++ more from hrun₂.rest]
      exact hshows.append taken₂
    exact (hsame hrun₁ hrest' hfront).bind_some (hg a taken₁ more₁ _ new₁ hrun₁ hrest' hk hrun₂ rfl hshows)

end Bind

namespace Local

variable {m n k j : Nat} {limits : Limits} {p q : Parser α} {f g : α → Parser β}

theorem lower (h : Local m n k limits p q) {m' n' k' : Nat} (hm : m' ≤ m) (hn : n' ≤ n) (hk : k' ≤ k) :
    Local m' n' k' limits p q where
  runs hc := by
    obtain ⟨o, taken, more, new, hrun, hreported, htakes, hleast⟩ := h.runs (hc.trans_le hm)
    exact ⟨o, taken, more, new, hrun, hreported, htakes, fun ho => hk.trans (hleast ho)⟩
  same hc hd := h.same (hc.trans_le hm) (hd.trans_le hn)

theorem least_le (h : Local m n k limits p q) {c : Cursor} {a : α} {taken more : List Token} {new : List Diagnostic}
    (hc : c.rest.length < m) (hrun : Run p c (some a) taken more new) : k ≤ taken.length := by
  obtain ⟨o, taken', more', new', hrun', -, -, hleast⟩ := h.runs hc
  obtain ⟨rfl, rfl, -⟩ := hrun.unique hrun'
  exact hleast rfl

/-- A parser with bound zero has nothing to agree with. -/
theorem ofZero {n' : Nat} {q' : Parser α} (h : Local m n k limits p q) (hn : n' = 0) : Local m n' k limits p q' where
  runs := h.runs
  same _ hd := absurd hd (by omega)

theorem zero : Local 0 n k limits p q where
  runs hc := absurd hc (by omega)
  same hc := absurd hc (by omega)

theorem both (hp : Local m n k limits p q) (hf : ∀ a, Local (m - k) (n - k) j limits (f a) (g a)) :
    Local m n (k + j) limits (p >>= f) (q >>= g) where
  runs hc := (hp.runs hc).bind fun a _ _ _ hrun hk => (hf a).runs (Cursor.length_rest_after_lt hc hrun.rest hk)
  same hc hd := (hp.same hc hd).bind (hp.runs hc)
    (fun a _ _ _ hrun hk => (hf a).runs (Cursor.length_rest_after_lt hc hrun.rest hk)) fun a _ _ _ _ hrun hrest' hk =>
      (hf a).same (Cursor.length_rest_after_lt hc hrun.rest hk) (Cursor.length_rest_after_lt hd hrest' hk)

/-- A run of two parsers in a row is a panic of the first or a run of each. -/
theorem cut (hp : Local m n k limits p q) (hf : ∀ a, Local (m - k) (n - k) j limits (f a) (g a)) {c : Cursor} {o : Option β}
    {taken more : List Token} {new : List Diagnostic} (hc : c.rest.length < m) (hrun : Run (p >>= f) c o taken more new) :
    (o = none ∧ Run p c none taken more new) ∨ ∃ a taken₁ taken₂ more₁ new₁ new₂, taken = taken₁ ++ taken₂ ∧
      new = new₁ ++ new₂ ∧ k ≤ taken₁.length ∧ Run p c (some a) taken₁ more₁ new₁ ∧
      Run (f a) (c.after more₁ new₁) o taken₂ more new₂ := by
  obtain ⟨o₁, taken₁, more₁, new₁, hrun₁, -, -, hleast⟩ := hp.runs hc
  cases o₁ with
  | none =>
    obtain ⟨rfl, rfl, rfl, rfl⟩ := hrun.unique hrun₁.bind_none
    exact .inl ⟨rfl, hrun₁⟩
  | some a =>
    obtain ⟨o₂, taken₂, more₂, new₂, hrun₂, -⟩ := (hf a).runs (Cursor.length_rest_after_lt hc hrun₁.rest (hleast rfl))
    obtain ⟨rfl, rfl, rfl, rfl⟩ := hrun.unique (hrun₁.bind_some hrun₂)
    exact .inr ⟨a, taken₁, taken₂, more₁, new₁, new₂, rfl, rfl, hleast rfl, hrun₁, hrun₂⟩

/-- Two parsers in a row, of which the first takes as many tokens as are asked for. -/
theorem bind (hp : Local m n k limits p q) (hf : ∀ a, Local (m - k) (n - k) 0 limits (f a) (g a)) :
    Local m n k limits (p >>= f) (q >>= g) := hp.both hf

/-- Two parsers in a row, of which the second takes as many tokens as are asked for. -/
theorem andThen (hp : Local m n 0 limits p q) (hf : ∀ a, Local m n k limits (f a) (g a)) :
    Local m n k limits (p >>= f) (q >>= g) :=
  (hp.both hf).lower le_rfl le_rfl (by omega)

/-- A step that takes nothing and depends on the next token alone. -/
theorem glance {o : Cursor → Option α} {r : Cursor → List Diagnostic}
    (hp : ∀ c, p c = ending (o c) (c.after c.rest (r c))) (hq : ∀ c, q c = ending (o c) (c.after c.rest (r c)))
    (hreported : ∀ c, Reported limits.reports (c.next c.rest) (o c) (r c)) (hleast : ∀ c, (o c).isSome → k = 0)
    (hsame : ∀ c d : Cursor, c.ShowsSame d c.rest d.rest → o c = o d ∧ r c = r d) :
    Local m n k limits p q where
  runs {c} _ := ⟨o c, [], c.rest, r c, .still (hp c), hreported c, by simp, fun ho => by simp [hleast c ho]⟩
  same := by
    intro c d hc hd o taken more more' new hrun hrest' hshows
    obtain ⟨rfl, rfl, rfl, rfl⟩ := hrun.unique (.still (hp c))
    obtain rfl : d.rest = more' := hrest'
    obtain ⟨ho, hreport⟩ := hsame c d hshows
    rw [ho, hreport]
    exact .still (hq d)

theorem pure {a : α} : Local m n 0 limits (Pure.pure a) (Pure.pure a) :=
  glance (fun c => (Run.pure a c).ends) (fun c => (Run.pure a c).ends) (by simp [Reported]) (by simp)
    fun _ _ _ => ⟨rfl, rfl⟩

theorem isAt {kind : Kind} : Local m n 0 limits (Grammar.isAt kind) (Grammar.isAt kind) := by
  have hrun (c : Cursor) : Grammar.isAt kind c = ending (some (c.isAt kind)) (c.after c.rest []) := by
    rw [Cursor.after_self]
    rfl
  exact glance hrun hrun (by simp [Reported]) (by simp) fun _ _ h => ⟨congrArg some (h.isAt kind), rfl⟩

theorem report {t : Token} {complaint : Complaint} (h : limits.reports (t.complain complaint)) :
    Local m n 0 limits (Grammar.report t complaint) (Grammar.report t complaint) :=
  glance (o := fun _ => some ()) (r := fun _ => [t.complain complaint]) (fun _ => rfl) (fun _ => rfl)
    (by simp [Reported, h]) (by simp) fun _ _ _ => ⟨rfl, rfl⟩

/-- A complaint about the next token, whatever it is. -/
theorem reportNext {complaint : Complaint} (h : ∀ t : Token, limits.reports (t.complain complaint))
    {f g : Unit → Parser β} (hf : Local m n k limits (f ()) (g ())) :
    Local m n k limits (get >>= fun c => Grammar.report c.peek complaint >>= f)
      (get >>= fun c => Grammar.report c.peek complaint >>= g) := by
  have hreport : Local m n 0 limits (get >>= fun c => Grammar.report c.peek complaint)
      (get >>= fun c => Grammar.report c.peek complaint) :=
    glance (o := fun _ => some ()) (r := fun c => [(c.next c.rest).complain complaint]) (fun _ => rfl) (fun _ => rfl)
      (by simp [Reported, h]) (by simp) fun _ _ hshows => ⟨rfl, by rw [hshows.next]⟩
  have := hreport.andThen (f := f) (g := g) fun _ => hf
  simpa only [bind_assoc] using this

theorem fail {what : String} :
    Local m n k limits (Grammar.fail (.expected what) : Parser α) (Grammar.fail (.expected what)) :=
  glance (o := fun _ => none) (r := fun c => [(c.next c.rest).complain (.expected what)]) (fun _ => rfl) (fun _ => rfl)
    (fun _ => ⟨[], what, rfl, by simp⟩) (by simp) fun _ _ hshows => ⟨rfl, by rw [hshows.next]⟩

/-- A run that starts with a step to take a token or none is a run of what follows in either case. -/
theorem cut_take? {wanted : Kind → Bool} {f g : Option Token → Parser β}
    (hsome : ∀ t, wanted t.kind = true → Local (m - 1) n k limits (f (some t)) (g (some t))) {c : Cursor}
    {o : Option β} {taken more : List Token} {new : List Diagnostic} (hc : c.rest.length < m)
    (hrun : Run (Grammar.take? wanted >>= f) c o taken more new) :
    (Unwanted wanted c.rest ∧ Run (f none) c o taken more new) ∨ ∃ t after taken', wanted t.kind = true ∧
      c.rest = t :: after ∧ taken = t :: taken' ∧ Run (f (some t)) (c.after after []) o taken' more new := by
  rcases unwanted_or_cons wanted c.rest with h | ⟨t, after, hcons, ht⟩
  · exact .inl ⟨h, hrun.rest, by rw [← hrun.ends, bind_ok (take?_unwanted h)]⟩
  · have hless : (c.after after []).rest.length < m - 1 := Cursor.length_rest_after_cons_lt hc hcons
    obtain ⟨o₁, taken₁, more₁, new₁, hrun₁, -⟩ := (hsome t ht).runs hless
    obtain ⟨rfl, rfl, rfl, rfl⟩ := hrun.unique (.take?_some ht hcons hrun₁)
    exact .inr ⟨t, after, taken₁, ht, hcons, rfl, hrun₁⟩

/-- A step that takes a token of a wanted kind or none. -/
theorem take? {wanted : Kind → Bool} {f g : Option Token → Parser β} (hwanted : ∀ k, wanted k = true → limits.takes k)
    (hsome : ∀ t, wanted t.kind = true → Local (m - 1) (n - 1) (k - 1) limits (f (some t)) (g (some t)))
    (hnone : Local m n k limits (f none) (g none)) :
    Local m n k limits (Grammar.take? wanted >>= f) (Grammar.take? wanted >>= g) where
  runs {c} hc := by
    rcases unwanted_or_cons wanted c.rest with h | ⟨t, after, hcons, ht⟩
    · obtain ⟨o, taken, more, new, hrun, hends⟩ := hnone.runs hc
      exact ⟨o, taken, more, new, .take?_none h hrun, hends⟩
    · have hless : (c.after after []).rest.length < m - 1 := Cursor.length_rest_after_cons_lt hc hcons
      obtain ⟨o, taken, more, new, hrun, hreported, htakes, hleast⟩ := (hsome t ht).runs hless
      refine ⟨o, t :: taken, more, new, .take?_some ht hcons hrun, hreported, ?_, fun ho => ?_⟩
      · simpa using ⟨hwanted _ ht, htakes⟩
      · have := hleast ho
        rw [List.length_cons]
        omega
  same := by
    intro c d hc hd o taken more more' new hrun hrest' hshows
    rcases cut_take? hsome hc hrun with ⟨h, hrun₁⟩ | ⟨t, after, taken', ht, hcons, rfl, hrun₁⟩
    · have h' : Unwanted wanted d.rest := by
        rw [Unwanted, hrest', ← (hshows.append taken).1, ← hrun.rest]
        exact h
      exact .take?_none h' (hnone.same hc hd hrun₁ hrest' hshows)
    · have hless : (c.after after []).rest.length < m - 1 := Cursor.length_rest_after_cons_lt hc hcons
      have hless' : (d.after (taken' ++ more') []).rest.length < n - 1 := Cursor.length_rest_after_cons_lt hd hrest'
      exact .take?_some ht hrest' ((hsome t ht).same hless hless' hrun₁ rfl hshows)

theorem expect {kind : Kind} {what : String} {f g : Token → Parser β} (hkind : limits.takes kind)
    (h : ∀ t, t.kind = kind → Local (m - 1) (n - 1) (k - 1) limits (f t) (g t)) :
    Local m n k limits (Grammar.expect kind what >>= f) (Grammar.expect kind what >>= g) := by
  rw [Grammar.expect, bind_assoc, bind_assoc]
  refine take? (fun k hk => eq_of_beq hk ▸ hkind) (fun t ht => ?_) ?_
  · rw [pure_bind, pure_bind]
    exact h t (eq_of_beq ht)
  · rw [fail_bind, fail_bind]
    exact fail

theorem takeOne {wanted : Kind → Bool} (hwanted : ∀ k, wanted k = true → limits.takes k) :
    Local m n 0 limits (Grammar.take? wanted) (Grammar.take? wanted) := by
  rw [← bind_pure (Grammar.take? wanted)]
  exact take? hwanted (fun _ _ => pure) pure

theorem expectOne {kind : Kind} {what : String} (hkind : limits.takes kind) :
    Local m n 1 limits (Grammar.expect kind what) (Grammar.expect kind what) := by
  rw [← bind_pure (Grammar.expect kind what)]
  exact expect hkind fun _ _ => pure

theorem takeAll {wanted : Kind → Bool} (hwanted : ∀ k, wanted k = true → limits.takes k) :
    Local m n 0 limits (Grammar.takeAll wanted) (Grammar.takeAll wanted) where
  runs {c} _ := by
    refine ⟨_, _, _, _, .takeAll wanted c, by simp [Reported], fun t ht => ?_, fun _ => Nat.zero_le _⟩
    exact hwanted _ (List.all_eq_true.mp List.all_takeWhile t ht)
  same := by
    intro c d hc hd o taken more more' new hrun hrest' hshows
    obtain ⟨rfl, rfl, rfl, rfl⟩ := hrun.unique (.takeAll wanted c)
    refine .takeAll_of_stop hrest' (fun t ht => List.all_eq_true.mp List.all_takeWhile t ht) fun t ht => ?_
    have hstop := List.head?_dropWhile_not (fun t => wanted t.kind) c.rest
    rwa [hshows.1, ht] at hstop

/-- Where panics are stopped anything may be skipped, and a panic's report stays. -/
theorem recover (h : Local m n k limits p q) (htakes : ∀ k, limits.takes k) (hreports : ∀ d, limits.reports d) :
    Local m n 0 limits (Grammar.recover p) (Grammar.recover q) where
  runs hc := by
    obtain ⟨o, taken, more, new, hrun, -⟩ := h.runs hc
    have hends {o' : Option α} {t : Token} : Reported limits.reports t (some o') new := fun d _ => hreports d
    cases o with
    | some a => exact ⟨_, _, _, _, hrun.recover_some, hends, fun t _ => htakes t.kind, fun _ => Nat.zero_le _⟩
    | none =>
      obtain ⟨skipped, hskipped⟩ := exists_skipped more
      exact ⟨_, _, _, _, hrun.recover_none hskipped, hends, fun t _ => htakes t.kind, fun _ => Nat.zero_le _⟩
  same := by
    intro c d hc hd o taken more more' new hrun hrest' hshows
    obtain ⟨o₁, taken₁, more₁, new₁, hrun₁, -⟩ := h.runs hc
    cases o₁ with
    | some a =>
      obtain ⟨rfl, rfl, rfl, rfl⟩ := hrun.unique hrun₁.recover_some
      exact (h.same hc hd hrun₁ hrest' hshows).recover_some
    | none =>
      obtain ⟨skipped, hskipped⟩ := exists_skipped more₁
      obtain ⟨rfl, rfl, rfl, rfl⟩ := hrun.unique (hrun₁.recover_none hskipped)
      rw [List.append_assoc] at hrest'
      have hfront : c.ShowsSame d more₁ (skipped ++ more') := by
        rw [hskipped]
        exact hshows.append skipped
      have hstop := synchronize_append_of_head hskipped hshows.1
      have := (h.same hc hd hrun₁ hrest' hfront).recover_none
        (show skipped ++ more' = skipped ++ synchronize (skipped ++ more') by rw [hstop])
      rwa [hstop] at this

end Local

/-! ### Lists -/

section Lists

variable {L : Limits} {M N : Nat}

theorem commaItems_local (hL : L.Lenient) {what : String} {item item' : Parser α} (hitem : Local M N 1 L item item') :
    ∀ {b b' m n count : Nat}, m ≤ M → n ≤ N → m ≤ b → n ≤ b' →
      Local m n 1 L (commaItems what item b count) (commaItems what item' b' count) := by
  intro b
  induction b with
  | zero =>
    intro b' m n count _ _ hb _
    obtain rfl : m = 0 := by omega
    exact .zero
  | succ b ih =>
    have hround (b' : Nat) {m n count : Nat} (hm : m ≤ M) (hn : n ≤ N) (hb : m ≤ b + 1) (hb' : n ≤ b' + 1) :
        Local m n 1 L (commaItems what item (b + 1) count) (commaItems what item' (b' + 1) count) := by
      unfold commaItems
      dsimp only
      generalize hfirst : (item >>= _) = round
      generalize hfirst' : (item' >>= _) = round'
      have hrounds : Local m n 1 L round round' := by
        rw [← hfirst, ← hfirst']
        refine (hitem.lower hm hn le_rfl).bind fun first => .take? (fun k hk => hL.takes k ?_) (fun comma _ => ?_) .pure
        · rw [eq_of_beq hk]
          rfl
        · exact ((ih (by omega) (by omega) (by omega) (by omega)).bind fun _ => .pure).lower le_rfl le_rfl (by omega)
      by_cases hlimit : listLimit ≤ count
      · simp only [if_pos hlimit]
        exact .reportNext (fun t => hL.reports _ rfl) hrounds
      · simp only [if_neg hlimit]
        exact hrounds
    intro b' m n count hm hn hb hb'
    cases b' with
    | zero => exact (hround b hm hn hb (by omega)).ofZero (by omega)
    | succ b' => exact hround b' hm hn hb hb'

theorem commaList_local (hL : L.Lenient) {what : String} {item item' : Parser α} {b b' m n : Nat}
    (hitem : Local m n 1 L item item') (hb : m ≤ b) (hb' : n ≤ b') :
    Local m n 0 L (commaList b what item) (commaList b' what item') := by
  refine Local.isAt.andThen fun closed => ?_
  cases closed with
  | true => exact .pure
  | false => exact (commaItems_local hL hitem le_rfl le_rfl hb hb').lower le_rfl le_rfl (Nat.zero_le _)

/-- As long as tokens are left, a result takes one of them at least. -/
def Progresses (m : Nat) (p : Parser α) : Prop :=
  ∀ ⦃c : Cursor⦄ ⦃a : α⦄ ⦃taken more : List Token⦄ ⦃new : List Diagnostic⦄, c.rest ≠ [] → c.rest.length < m →
    Run p c (some a) taken more new → 1 ≤ taken.length

/-- Items are only looked for where tokens are left, so it is enough that they take one there. -/
theorem itemsUntil_local {stop : Cursor → Bool} (hstop : ∀ c d : Cursor, c.ShowsSame d c.rest d.rest → stop c = stop d)
    {item item' : Parser (Option α)} (hitem : Local M N 0 L item item') (hprogress : Progresses M item) :
    ∀ {b b' m n : Nat}, m ≤ M → n ≤ N → m ≤ b → n ≤ b' →
      Local m n 0 L (itemsUntil stop item b) (itemsUntil stop item' b') := by
  intro b
  induction b with
  | zero =>
    intro b' m n _ _ hb _
    obtain rfl : m = 0 := by omega
    exact .zero
  | succ b ih =>
    have hround (b' : Nat) {m n : Nat} (hm : m ≤ M) (hn : n ≤ N) (hb : m ≤ b + 1) (hb' : n ≤ b' + 1) :
        Local m n 0 L (itemsUntil stop item (b + 1)) (itemsUntil stop item' (b' + 1)) := by
      have hnext (first : Option α) : Local (m - 1) (n - 1) 0 L
          (itemsUntil stop item b >>= fun rest => pure (first.toList ++ rest))
          (itemsUntil stop item' b' >>= fun rest => pure (first.toList ++ rest)) :=
        (ih (by omega) (by omega) (by omega) (by omega)).bind fun _ => .pure
      -- One token at least is gone when the next round starts.
      have htaken {c : Cursor} {o : Option α} {taken more : List Token} {new : List Diagnostic} (hc : c.rest.length < m)
          (hgo : (stop c || c.atEnd) = false) (hrun : Run item c (some o) taken more new) : 1 ≤ taken.length := by
        rw [Bool.or_eq_false_iff] at hgo
        exact hprogress (List.isEmpty_eq_false_iff.mp hgo.2) (hc.trans_le hm) hrun
      have hruns {c : Cursor} (hc : c.rest.length < m) (hgo : (stop c || c.atEnd) = false) (o : Option α)
          (taken more : List Token) (new : List Diagnostic) (hrun : Run item c (some o) taken more new)
          (_ : 0 ≤ taken.length) :=
        (hnext o).runs (c := c.after more new) (Cursor.length_rest_after_lt hc hrun.rest (htaken hc hgo hrun))
      constructor
      · intro c hc
        cases hgo : stop c || c.atEnd with
        | true => exact ⟨some [], [], c.rest, [], .itemsUntil_stop hgo, by simp [Reported], by simp, fun _ => le_rfl⟩
        | false =>
          obtain ⟨o, taken, more, new, hrun, hends⟩ := (hitem.runs (hc.trans_le hm)).bind (hruns hc hgo)
          exact ⟨o, taken, more, new, ⟨hrun.rest, by rw [itemsUntil_step hgo, ← hrun.ends]⟩, hends⟩
      · intro c d hc hd o taken more more' new hrun hrest' hshows
        have hfront : c.ShowsSame d c.rest d.rest := by
          rw [hrun.rest, hrest']
          exact hshows.append taken
        have hend : (stop c || c.atEnd) = (stop d || d.atEnd) := by rw [hstop c d hfront, hfront.atEnd]
        cases hgo : stop c || c.atEnd with
        | true =>
          obtain ⟨rfl, rfl, rfl, rfl⟩ := hrun.unique (.itemsUntil_stop hgo)
          obtain rfl : d.rest = more' := hrest'
          exact .itemsUntil_stop (hend ▸ hgo)
        | false =>
          have hsame := (hitem.same (hc.trans_le hm) (hd.trans_le hn)).bind (hitem.runs (hc.trans_le hm)) (hruns hc hgo)
            fun o taken more more' new hrun hrest' _ =>
              (hnext o).same (Cursor.length_rest_after_lt hc hrun.rest (htaken hc hgo hrun))
                (Cursor.length_rest_after_lt hd hrest' (htaken hc hgo hrun))
          have hrun' := hsame ⟨hrun.rest, by rw [← itemsUntil_step hgo, hrun.ends]⟩ hrest' hshows
          exact ⟨hrest', by rw [itemsUntil_step (hend ▸ hgo), ← hrun'.ends]⟩
    intro b' m n hm hn hb hb'
    cases b' with
    | zero => exact (hround b hm hn hb (by omega)).ofZero (by omega)
    | succ b' => exact hround b' hm hn hb hb'

end Lists

/-! ### Expressions -/

section Expressions

variable {L : Limits} {b b' m n : Nat} {whole whole' : Parser Node}

theorem primary_local (hL : L.Lenient) (h : Local m n 1 L whole whole') :
    Local (m + 1) (n + 1) 1 L (primary whole) (primary whole') := by
  refine .take? (fun k hk => hL.takes k (by simp [inExpression, hk])) (fun t _ => ?_) .fail
  dsimp only
  split
  iterate 6 exact .pure
  exact (h.bind fun inner => .expect (hL.takes _ rfl) fun _ _ => .pure).lower (by omega) (by omega) (by omega)

theorem callsAfter_local (hL : L.Lenient) {M N : Nat} (h : Local M N 1 L whole whole') :
    ∀ {b b' m n : Nat} {callee : Node}, m ≤ M → n ≤ N → m ≤ b → n ≤ b' →
      Local m n 0 L (callsAfter whole b callee) (callsAfter whole' b' callee) := by
  intro b
  induction b with
  | zero =>
    intro b' m n callee _ _ hb _
    obtain rfl : m = 0 := by omega
    exact .zero
  | succ b ih =>
    have hround (b' : Nat) {m n : Nat} {callee : Node} (hm : m ≤ M) (hn : n ≤ N) (hb : m ≤ b + 1) (hb' : n ≤ b' + 1) :
        Local m n 0 L (callsAfter whole (b + 1) callee) (callsAfter whole' (b' + 1) callee) := by
      refine .take? (fun k hk => eq_of_beq hk ▸ hL.takes .leftParen rfl) (fun _ _ => ?_) .pure
      have harguments : Local (m - 1) (n - 1) 0 L (commaList (b + 1) "arguments" whole)
          (commaList (b' + 1) "arguments" whole') :=
        commaList_local hL (h.lower (by omega) (by omega) le_rfl) (by omega) (by omega)
      exact harguments.bind fun arguments => .expect (hL.takes _ rfl) fun paren _ =>
        ih (by omega) (by omega) (by omega) (by omega)
    intro b' m n callee hm hn hb hb'
    cases b' with
    | zero => exact (hround b hm hn hb (by omega)).ofZero (by omega)
    | succ b' => exact hround b' hm hn hb hb'

theorem call_local (hL : L.Lenient) (h : Local b b' 1 L whole whole') :
    Local (b + 1) (b' + 1) 1 L (call b whole) (call b' whole') :=
  (primary_local hL h).bind fun _ => callsAfter_local hL h (by omega) (by omega) (by omega) (by omega)

theorem unary_local (hL : L.Lenient) (h : Local b b' 1 L whole whole') :
    Local (b + 1) (b' + 1) 1 L (unary b whole) (unary b' whole') := by
  have hsigns : Local (b + 1) (b' + 1) 0 L (takeAll isSign) (takeAll isSign) :=
    .takeAll fun k hk => hL.takes k (by simp [inExpression, hk])
  exact hsigns.andThen fun _ => (call_local hL h).bind fun _ => .pure

theorem operandsAfter_local {isOperator : Kind → Bool} {build : Node → Node → Node → Node} {operand operand' : Parser Node}
    {M N : Nat} (hoperator : ∀ k, isOperator k = true → L.takes k) (h : Local M N 1 L operand operand') :
    ∀ {b b' m n : Nat} {left : Node}, m ≤ M → n ≤ N → m ≤ b → n ≤ b' →
      Local m n 0 L (operandsAfter isOperator build operand b left) (operandsAfter isOperator build operand' b' left) := by
  intro b
  induction b with
  | zero =>
    intro b' m n left _ _ hb _
    obtain rfl : m = 0 := by omega
    exact .zero
  | succ b ih =>
    have hround (b' : Nat) {m n : Nat} {left : Node} (hm : m ≤ M) (hn : n ≤ N) (hb : m ≤ b + 1) (hb' : n ≤ b' + 1) :
        Local m n 0 L (operandsAfter isOperator build operand (b + 1) left)
          (operandsAfter isOperator build operand' (b' + 1) left) := by
      refine .take? hoperator (fun _ _ => ?_) .pure
      have hoperand : Local (m - 1) (n - 1) 1 L operand operand' := h.lower (by omega) (by omega) le_rfl
      exact (hoperand.bind fun right => ih (by omega) (by omega) (by omega) (by omega)).lower le_rfl le_rfl (by omega)
    intro b' m n left hm hn hb hb'
    cases b' with
    | zero => exact (hround b hm hn hb (by omega)).ofZero (by omega)
    | succ b' => exact hround b' hm hn hb hb'

theorem leftLevel_local {isOperator : Kind → Bool} {build : Node → Node → Node → Node} {operand operand' : Parser Node}
    (hL : L.Lenient) (h : Local (b + 1) (b' + 1) 1 L operand operand')
    (hoperator : ∀ k, isOperator k = true → inExpression k = true) :
    Local (b + 1) (b' + 1) 1 L (leftLevel b isOperator build operand) (leftLevel b' isOperator build operand') :=
  h.bind fun _ => operandsAfter_local (fun k hk => hL.takes k (hoperator k hk)) h (by omega) (by omega) (by omega) (by omega)

theorem assignment_local (hL : L.Lenient) (h : Local b b' 1 L whole whole') :
    Local (b + 1) (b' + 1) 1 L (assignment b whole) (assignment b' whole') := by
  have hdisjunction : Local (b + 1) (b' + 1) 1 L (disjunction b whole) (disjunction b' whole') := by
    iterate 6 refine leftLevel_local hL ?_ (fun k hk => by simp [inExpression, hk])
    exact unary_local hL h
  refine hdisjunction.bind fun left =>
    .take? (fun k hk => eq_of_beq hk ▸ hL.takes .equal rfl) (fun equals _ => ?_) .pure
  refine ((h.lower (by omega) (by omega) le_rfl).bind fun value => ?_).lower le_rfl le_rfl (by omega)
  split
  · exact .pure
  · exact (Local.report (hL.reports _ rfl)).bind fun _ => .pure

theorem expression_local (hL : L.Lenient) (b b' : Nat) : Local b b' 1 L (expression b) (expression b') := by
  induction b generalizing b' with
  | zero => exact .zero
  | succ b ih =>
    cases b' with
    | zero => exact (assignment_local hL (ih b)).ofZero rfl
    | succ b' => exact assignment_local hL (ih b')

end Expressions

end Grammar

end LoxLang
