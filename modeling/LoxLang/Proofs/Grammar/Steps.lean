import LoxLang.Grammar.Program
import Mathlib.Data.List.Infix
/-!
# What running a parser means

Two readings of one run. `Reads` is what can be said of every run: reports are never taken back, a
run that adds none has taken tokens that a given relation allows, and a panic is always reported.
The last two need a bound on the number of tokens, since a parser that is given too small a bound
panics in silence. `Accepts` is a run without reports on tokens that are known.

Both come with one rule for each step a parser can take. The rules for `Reads` work backwards: they
ask of what follows a step whatever the tokens of the step leave to be shown.
-/

namespace LoxLang.Grammar

variable {α β : Type}

theorem bind_ok {p : Parser α} {f : α → Parser β} {a : α} {c c' : Cursor} (h : p c = .ok a c') :
    (p >>= f) c = f a c' := by
  simp only [bind, EStateM.bind, h]

theorem bind_error {p : Parser α} {f : α → Parser β} {e : Panic} {c c' : Cursor} (h : p c = .error e c') :
    (p >>= f) c = .error e c' := by
  simp only [bind, EStateM.bind, h]

theorem fail_bind (complaint : Complaint) (f : α → Parser β) : (fail complaint >>= f) = fail complaint := rfl

/-! ### Taking a token -/

/-- Tokens of a kind that is not wanted, or none at all, are next. -/
def Unwanted (wanted : Kind → Bool) (rest : List Token) : Prop := ∀ t ∈ rest.head?, wanted t.kind = false

theorem unwanted_or_cons (wanted : Kind → Bool) (rest : List Token) :
    Unwanted wanted rest ∨ ∃ t after, rest = t :: after ∧ wanted t.kind = true := by
  cases rest with
  | nil => exact .inl (by simp [Unwanted])
  | cons t after =>
    cases h : wanted t.kind with
    | true => exact .inr ⟨t, after, rfl, h⟩
    | false => exact .inl (by simp [Unwanted, h])

theorem take?_wanted {wanted : Kind → Bool} {t : Token} (h : wanted t.kind = true) (rest : List Token) (eof : Token)
    (reports : List Diagnostic) : take? wanted ⟨t :: rest, eof, reports⟩ = .ok (some t) ⟨rest, eof, reports⟩ := by
  simp only [take?, h, if_true]

theorem take?_unwanted {wanted : Kind → Bool} {c : Cursor} (h : Unwanted wanted c.rest) :
    take? wanted c = .ok none c := by
  obtain ⟨rest, eof, reports⟩ := c
  cases rest with
  | nil => rfl
  | cons t after =>
    have ht : wanted t.kind = false := h t rfl
    simp only [take?, ht, Bool.false_eq_true, if_false]

def endOf : EStateM.Result Panic Cursor α → Cursor
  | .ok _ c => c
  | .error _ c => c

/-! ### Every run -/

/-- What a parser does when fewer than `bound` tokens are left: `R` relates the tokens it takes, its
result and the tokens behind them. -/
structure Reads (bound : Nat) (R : List Token → α → List Token → Prop) (p : Parser α) : Prop where
  /-- Reports are never taken back. -/
  keeps : ∀ c, c.reports <+: (endOf (p c)).reports
  /-- A run without reports takes tokens as the relation says. -/
  takes : ∀ c a c', c.rest.length < bound → p c = .ok a c' → c'.reports = c.reports →
    ∃ used, c.rest = used ++ c'.rest ∧ R used a c'.rest
  /-- A panic is reported. -/
  panics : ∀ c e c', c.rest.length < bound → p c = .error e c' → c'.reports ≠ c.reports

namespace Reads

variable {bound : Nat} {R S : List Token → α → List Token → Prop} {T : List Token → β → List Token → Prop}
  {p : Parser α} {f : α → Parser β}

theorem mono (h : Reads bound R p) (himp : ∀ u a r, R u a r → S u a r) : Reads bound S p where
  keeps := h.keeps
  takes c a c' hlt hrun hclean := by
    obtain ⟨used, hused, hR⟩ := h.takes c a c' hlt hrun hclean
    exact ⟨used, hused, himp _ _ _ hR⟩
  panics := h.panics

theorem lower (h : Reads bound R p) {less : Nat} (hless : less ≤ bound) : Reads less R p where
  keeps := h.keeps
  takes c a c' hlt := h.takes c a c' (lt_of_lt_of_le hlt hless)
  panics c e c' hlt := h.panics c e c' (lt_of_lt_of_le hlt hless)

/-- Whatever holds of fewer than zero tokens is that reports are kept. -/
theorem of_keeps (h : ∀ c, c.reports <+: (endOf (p c)).reports) : Reads 0 R p where
  keeps := h
  takes _ _ _ hlt := absurd hlt (Nat.not_lt_zero _)
  panics _ _ _ hlt := absurd hlt (Nat.not_lt_zero _)

theorem ofZero (h : Reads 0 R p) : Reads 0 S p := of_keeps h.keeps

/-- If two parsers in a row add no report, the first one adds none. -/
private theorem clean_between {less : Nat} {q : Parser β} {a : α} {r : EStateM.Result Panic Cursor β}
    {c c' : Cursor} (hp : Reads bound R p) (hq : Reads less T q) (hfirst : p c = .ok a c') (hsecond : q c' = r)
    (hclean : (endOf r).reports = c.reports) : c'.reports = c.reports := by
  have hle := hp.keeps c
  have hge := hq.keeps c'
  rw [hfirst] at hle
  rw [hsecond, hclean] at hge
  exact hge.eq_of_length_le hle.length_le

/-- Two parsers in a row. The second has to work on the tokens that the first leaves, and may count
on what the first has taken. -/
theorem bind_within {less : Nat} (hp : Reads bound R p) (hless : ∀ u a r, R u a r → bound ≤ less + u.length)
    (hf : ∀ u a, Reads less (fun v b r => R u a (v ++ r) → T (u ++ v) b r) (f a)) : Reads bound T (p >>= f) where
  keeps c := by
    have hfirst := hp.keeps c
    cases hrun : p c with
    | ok a c' =>
      rw [hrun] at hfirst
      rw [bind_ok hrun]
      exact hfirst.trans ((hf [] a).keeps c')
    | error e c' =>
      rw [hrun] at hfirst
      rw [bind_error hrun]
      exact hfirst
  takes c b c'' hlt hrun hclean := by
    cases hp' : p c with
    | error e c' => rw [bind_error hp'] at hrun; cases hrun
    | ok a c' =>
      rw [bind_ok hp'] at hrun
      have hmid := clean_between hp (hf [] a) hp' hrun hclean
      obtain ⟨u, hu, hR⟩ := hp.takes c a c' hlt hp' hmid
      have hlength := hless u a _ hR
      rw [hu, List.length_append] at hlt
      obtain ⟨v, hv, hT⟩ := (hf u a).takes c' b c'' (by omega) hrun (hclean.trans hmid.symm)
      refine ⟨u ++ v, by rw [hu, hv, List.append_assoc], hT ?_⟩
      rwa [← hv]
  panics c e c'' hlt hrun hclean := by
    cases hp' : p c with
    | error e' c' =>
      rw [bind_error hp'] at hrun
      cases hrun
      exact hp.panics c _ _ hlt hp' hclean
    | ok a c' =>
      rw [bind_ok hp'] at hrun
      have hmid := clean_between hp (hf [] a) hp' hrun hclean
      obtain ⟨u, hu, hR⟩ := hp.takes c a c' hlt hp' hmid
      have hlength := hless u a _ hR
      rw [hu, List.length_append] at hlt
      exact (hf u a).panics c' e c'' (by omega) hrun (hclean.trans hmid.symm)

theorem bind (hp : Reads bound R p) (hf : ∀ u a, Reads bound (fun v b r => R u a (v ++ r) → T (u ++ v) b r) (f a)) :
    Reads bound T (p >>= f) :=
  hp.bind_within (fun u _ _ _ => by omega) hf

/-- As `bind`, when the first parser takes a token at least. -/
theorem bind_taking (hp : Reads bound R p) (htaking : ∀ u a r, R u a r → u ≠ [])
    (hf : ∀ u a, Reads (bound - 1) (fun v b r => R u a (v ++ r) → T (u ++ v) b r) (f a)) :
    Reads bound T (p >>= f) := by
  refine hp.bind_within (fun u a r hR => ?_) hf
  have := List.length_pos_iff.mpr (htaking u a r hR)
  omega

theorem pure {a : α} (h : ∀ r, R [] a r) : Reads bound R (Pure.pure a) where
  keeps c := List.prefix_rfl
  takes c b c' _ hrun _ := by
    cases hrun
    exact ⟨[], rfl, h _⟩
  panics c e c' _ hrun := by cases hrun

theorem throwPanic : Reads 0 R (throw .panic) := of_keeps fun _ => List.prefix_rfl

theorem fail {complaint : Complaint} : Reads bound R (Grammar.fail complaint) where
  keeps c := List.prefix_append _ _
  takes c a c' _ hrun := by cases hrun
  panics c e c' _ hrun hclean := by
    cases hrun
    simp at hclean

/-- Nothing has to be said about a run behind a report. -/
theorem report {t : Token} {complaint : Complaint} {q : Unit → Parser β} (h : Reads 0 T (q ())) :
    Reads bound T (Grammar.report t complaint >>= q) := by
  have hgrows (c : Cursor) : c.reports ++ [t.complain complaint]
      <+: (endOf ((Grammar.report t complaint >>= q) c)).reports :=
    h.keeps { c with reports := c.reports ++ [t.complain complaint] }
  have hdirty (c : Cursor) : (endOf ((Grammar.report t complaint >>= q) c)).reports ≠ c.reports := by
    intro hclean
    have hle := (hgrows c).length_le
    rw [hclean, List.length_append, List.length_singleton] at hle
    omega
  refine ⟨fun c => (List.prefix_append _ _).trans (hgrows c), fun c b c' _ hrun hclean => ?_, fun c e c' _ hrun => ?_⟩
  · have := hdirty c
    rw [hrun] at this
    exact absurd hclean this
  · have := hdirty c
    rwa [hrun] at this

theorem isAt {kind : Kind} {q : Bool → Parser β} (h : ∀ b, Reads bound T (q b)) :
    Reads bound T (Grammar.isAt kind >>= q) where
  keeps c := (h (c.isAt kind)).keeps c
  takes c := (h (c.isAt kind)).takes c
  panics c := (h (c.isAt kind)).panics c

theorem look {q : Cursor → Parser β} (h : ∀ c, Reads bound (fun v b r => v ++ r = c.rest → T v b r) (q c)) :
    Reads bound T (get >>= q) where
  keeps c := (h c).keeps c
  takes c b c' hlt hrun hclean := by
    obtain ⟨used, hused, hT⟩ := (h c).takes c b c' hlt hrun hclean
    exact ⟨used, hused, hT hused.symm⟩
  panics c := (h c).panics c

/-- A step that takes a token of a wanted kind or none. -/
theorem take? {wanted : Kind → Bool} {q : Option Token → Parser β}
    (hsome : ∀ t, wanted t.kind = true → Reads (bound - 1) (fun v b r => T (t :: v) b r) (q (some t)))
    (hnone : Reads bound (fun v b r => Unwanted wanted (v ++ r) → T v b r) (q none)) :
    Reads bound T (Grammar.take? wanted >>= q) where
  keeps := by
    rintro ⟨rest, eof, reports⟩
    rcases unwanted_or_cons wanted rest with h | ⟨t, after, rfl, h⟩
    · rw [bind_ok (take?_unwanted h)]
      exact hnone.keeps _
    · rw [bind_ok (take?_wanted h after eof reports)]
      exact (hsome t h).keeps ⟨after, eof, reports⟩
  takes := by
    rintro ⟨rest, eof, reports⟩ b c' hlt hrun hclean
    rcases unwanted_or_cons wanted rest with h | ⟨t, after, rfl, h⟩
    · rw [bind_ok (take?_unwanted h)] at hrun
      obtain ⟨used, hused, hT⟩ := hnone.takes _ b c' hlt hrun hclean
      refine ⟨used, hused, hT ?_⟩
      rwa [← hused]
    · rw [bind_ok (take?_wanted h after eof reports)] at hrun
      have hlt' : after.length < bound - 1 := Nat.lt_sub_of_add_lt hlt
      obtain ⟨used, hused, hT⟩ := (hsome t h).takes ⟨after, eof, reports⟩ b c' hlt' hrun hclean
      exact ⟨t :: used, congrArg (t :: ·) hused, hT⟩
  panics := by
    rintro ⟨rest, eof, reports⟩ e c' hlt hrun
    rcases unwanted_or_cons wanted rest with h | ⟨t, after, rfl, h⟩
    · rw [bind_ok (take?_unwanted h)] at hrun
      exact hnone.panics _ e c' hlt hrun
    · rw [bind_ok (take?_wanted h after eof reports)] at hrun
      exact (hsome t h).panics ⟨after, eof, reports⟩ e c' (Nat.lt_sub_of_add_lt hlt) hrun

/-- A step that takes a token of one kind or panics. -/
theorem expect {kind : Kind} {what : String} {q : Token → Parser β}
    (h : ∀ t, t.kind = kind → Reads (bound - 1) (fun v b r => T (t :: v) b r) (q t)) :
    Reads bound T (Grammar.expect kind what >>= q) := by
  rw [Grammar.expect, bind_assoc]
  refine take? (fun t ht => ?_) ?_
  · rw [pure_bind]
    exact h t (eq_of_beq ht)
  · rw [fail_bind]
    exact fail

/-- A panic that is stopped has been reported, so a run without reports has not panicked. -/
theorem recover (h : Reads bound R p) :
    Reads bound (fun u o r => ∃ a, o = some a ∧ R u a r) (Grammar.recover p) where
  keeps c := by
    have hp := h.keeps c
    cases hrun : p c <;> simpa only [Grammar.recover, hrun, endOf] using hp
  takes c o c' hlt hrun hclean := by
    cases hp : p c with
    | ok a c'' =>
      simp only [Grammar.recover, hp] at hrun
      cases hrun
      obtain ⟨used, hused, hR⟩ := h.takes c a c' hlt hp hclean
      exact ⟨used, hused, a, rfl, hR⟩
    | error e c'' =>
      simp only [Grammar.recover, hp] at hrun
      cases hrun
      exact absurd hclean (h.panics c e c'' hlt hp)
  panics c e c' _ hrun := by
    cases hp : p c <;> simp only [Grammar.recover, hp] at hrun <;> cases hrun

end Reads

/-! ### Runs on known tokens -/

/-- The parser takes the tokens `ts` when `rest` stands behind them, gives `a` and reports nothing. -/
def Accepts (p : Parser α) (ts : List Token) (a : α) (rest : List Token) : Prop :=
  ∀ eof reports, p ⟨ts ++ rest, eof, reports⟩ = .ok a ⟨rest, eof, reports⟩

namespace Accepts

variable {p : Parser α} {f : α → Parser β} {a : α} {b : β} {us vs rest : List Token}

theorem bind (hp : Accepts p us a (vs ++ rest)) (hf : Accepts (f a) vs b rest) :
    Accepts (p >>= f) (us ++ vs) b rest := by
  intro eof reports
  rw [List.append_assoc, bind_ok (hp eof reports)]
  exact hf eof reports

theorem pure (a : α) (rest : List Token) : Accepts (Pure.pure a) [] a rest := fun _ _ => rfl

theorem bind_nil (hp : Accepts p us a rest) (hf : Accepts (f a) [] b rest) : Accepts (p >>= f) us b rest := by
  intro eof reports
  rw [bind_ok (hp eof reports)]
  exact hf eof reports

theorem map {g : α → β} (hp : Accepts p us a rest) : Accepts (p >>= fun x => Pure.pure (g x)) us (g a) rest :=
  hp.bind_nil (pure (g a) rest)

theorem take?_some {wanted : Kind → Bool} {t : Token} {q : Option Token → Parser β} (ht : wanted t.kind = true)
    (hq : Accepts (q (some t)) vs b rest) : Accepts (Grammar.take? wanted >>= q) (t :: vs) b rest := by
  intro eof reports
  rw [List.cons_append, bind_ok (take?_wanted ht _ eof reports)]
  exact hq eof reports

theorem take?_none {wanted : Kind → Bool} {q : Option Token → Parser β} (h : Unwanted wanted (vs ++ rest))
    (hq : Accepts (q none) vs b rest) : Accepts (Grammar.take? wanted >>= q) vs b rest := by
  intro eof reports
  rw [bind_ok (take?_unwanted h)]
  exact hq eof reports

theorem expect {kind : Kind} {what : String} {t : Token} {q : Token → Parser β} (ht : t.kind = kind)
    (hq : Accepts (q t) vs b rest) : Accepts (Grammar.expect kind what >>= q) (t :: vs) b rest := by
  rw [Grammar.expect, bind_assoc]
  refine take?_some (beq_iff_eq.mpr ht) ?_
  rw [pure_bind]
  exact hq

theorem isAt {kind : Kind} {q : Bool → Parser β} {t : Token} {ts : List Token} (hts : vs ++ rest = t :: ts)
    (hq : Accepts (q (t.kind == kind)) vs b rest) : Accepts (Grammar.isAt kind >>= q) vs b rest := by
  intro eof reports
  have hlook : Grammar.isAt kind ⟨vs ++ rest, eof, reports⟩ = .ok (t.kind == kind) ⟨vs ++ rest, eof, reports⟩ := by
    rw [hts]
    rfl
  rw [bind_ok hlook]
  exact hq eof reports

theorem recover (hp : Accepts p us a rest) : Accepts (Grammar.recover p) us (some a) rest := by
  intro eof reports
  simp only [Grammar.recover, hp eof reports]

end Accepts

end LoxLang.Grammar
