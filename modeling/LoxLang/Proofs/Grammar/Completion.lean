import LoxLang.Proofs.Grammar.Guarded
/-!
# Completing what was taken

The tokens that a parser has taken when it panics are the start of something that it would have accepted. What is missing
is found along the parser's own steps: where a token is asked for, a token of that kind; where an expression or a statement
is asked for, a name or a name and a semicolon; and behind it whatever the steps that were not reached ask for when they
start with nothing.

What completes a prefix is at most eight times as long as the prefix and a few tokens more, which leaves room to say all
this of a parser with one bound: the bound is large enough for the completed list.
-/

namespace LoxLang.Grammar

variable {α β : Type}

/-- Any token may be taken, and nothing may be reported but by a panic. -/
def soft : Limits := ⟨fun _ => True, fun d => d.isPanic = false⟩

theorem soft_open : soft.Open := ⟨fun _ => trivial, fun _ h => h⟩

/-- The kind of the next token, if any token is left. -/
def nextKind (rest : List Token) : Option Kind := rest.head?.map Token.kind

@[simp] theorem nextKind_nil : nextKind [] = none := rfl

theorem nextKind_append {ts : List Token} {k : Kind} (h : nextKind ts = some k) (rest : List Token) :
    nextKind (ts ++ rest) = some k := by
  cases ts with
  | nil => cases h
  | cons t ts => exact h

theorem nextKind_front {ts : List Token} (h : ts ≠ []) (rest rest' : List Token) :
    nextKind (ts ++ rest) = nextKind (ts ++ rest') := by
  cases ts with
  | nil => exact absurd rfl h
  | cons t ts => rfl

theorem unwanted_of_nextKind {wanted : Kind → Bool} {rest : List Token}
    (h : ∀ k, nextKind rest = some k → wanted k = false) : Unwanted wanted rest := by
  cases rest with
  | nil => simp [Unwanted]
  | cons t rest => simpa [Unwanted] using h t.kind rfl

theorem isAt_eq_nextKind (c : Cursor) (kind : Kind) : c.isAt kind = (nextKind c.rest == some kind) := by
  unfold Cursor.isAt
  cases c.rest with
  | nil => rfl
  | cons t rest => rfl

theorem atEnd_eq_nextKind (c : Cursor) : c.atEnd = (nextKind c.rest == none) := by
  unfold Cursor.atEnd
  cases c.rest with
  | nil => rfl
  | cons t rest => rfl

/-- The parser takes the tokens `ts` before whatever may follow. -/
def AcceptsBefore (m : Nat) (follow : Option Kind → Prop) (p : Parser α) (ts : List Token) (a : α) : Prop :=
  ∀ ⦃d : Cursor⦄ ⦃rest : List Token⦄, d.rest.length < m → d.rest = ts ++ rest → follow (nextKind rest) →
    ∃ new, Run p d (some a) ts rest new

/-- What was taken when the parser panicked can be completed. If nothing was taken, what completes it starts with one of the
kinds `starts`. -/
structure Completes (m extra least : Nat) (follow : Option Kind → Prop) (starts : Kind → Prop) (p : Parser α) : Prop
    extends Local m m least soft p p where
  free : ∀ {c : Cursor} {a : α} {taken more : List Token} {new : List Diagnostic}, c.rest.length < m →
    Run p c (some a) taken more new → AcceptsBefore m follow p taken a
  completes : ∀ {c : Cursor} {taken more : List Token} {new : List Diagnostic}, 9 * c.rest.length + extra < m →
    Run p c none taken more new → ∃ z a, z.length ≤ 8 * taken.length + extra ∧ (∀ t ∈ z, t.kind ≠ .eof) ∧
      (taken = [] → ∃ k, nextKind z = some k ∧ starts k) ∧ AcceptsBefore m follow p (taken ++ z) a

/-- Some tokens are accepted. There are some if there is a `least`, and they start with one of the kinds `starts`. -/
def Fillable (m extra least : Nat) (follow : Option Kind → Prop) (starts : Kind → Prop) (p : Parser α) : Prop :=
  ∃ z a, z.length ≤ extra ∧ (∀ t ∈ z, t.kind ≠ .eof) ∧ (z = [] → least = 0) ∧ (∀ x, nextKind z = some x → starts x) ∧
    AcceptsBefore m follow p z a

/-- A token that stands for all of its kind. -/
def filler (k : Kind) : Token := ⟨k, .str "", .null, 0⟩

namespace Completes

variable {m k k₁ j l l₁ i : Nat} {follow follow₁ : Option Kind → Prop} {starts starts₁ s : Kind → Prop}
  {p : Parser α} {f : α → Parser β}

theorem mono (h : Completes m k l follow starts p) {m' k' l' : Nat} {follow' : Option Kind → Prop} {starts' : Kind → Prop}
    (hm : m' ≤ m) (hk : k ≤ k') (hl : l' ≤ l) (hfollow : ∀ x, follow' x → follow x) (hstarts : ∀ x, starts x → starts' x) :
    Completes m' k' l' follow' starts' p where
  toLocal := h.toLocal.lower hm hm hl
  free hc hrun d rest hd hrest hnext := h.free (hc.trans_le hm) hrun (hd.trans_le hm) hrest (hfollow _ hnext)
  completes hc hrun := by
    obtain ⟨z, a, hz, heof, hstart, hacc⟩ := h.completes (by omega) hrun
    refine ⟨z, a, by omega, heof, fun htaken => ?_, fun d rest hd hrest hnext => ?_⟩
    · obtain ⟨x, hx, hxstarts⟩ := hstart htaken
      exact ⟨x, hx, hstarts x hxstarts⟩
    · exact hacc (hd.trans_le hm) hrest (hfollow _ hnext)

theorem lower (h : Completes m k l follow starts p) {m' k' l' : Nat} (hm : m' ≤ m) (hk : k ≤ k') (hl : l' ≤ l) :
    Completes m' k' l' follow starts p := h.mono hm hk hl (fun _ h => h) fun _ h => h

/-- A parser that is not reached yet is completed from nothing. -/
theorem fillable (h : Completes m k l follow starts p) (hk : k < m) : Fillable m k l follow starts p := by
  have hnone : (Cursor.mk [] (filler .eof) []).rest.length < m := by simp only [List.length_nil]; omega
  obtain ⟨o, taken, more, new, hrun, -, -, hleast⟩ := h.runs hnone
  obtain ⟨rfl, rfl⟩ := List.append_eq_nil_iff.mp hrun.rest.symm
  cases o with
  | some a =>
    have := hleast rfl
    exact ⟨[], a, by simp, by simp, fun _ => by simpa using this, by simp, h.free hnone hrun⟩
  | none =>
    obtain ⟨z, a, hz, heof, hstart, hacc⟩ := h.completes (by simpa using hk) hrun
    obtain ⟨x, hx, hxstarts⟩ := hstart rfl
    refine ⟨z, a, by simpa using hz, heof, ?_, ?_, hacc⟩
    · rintro rfl
      cases hx
    · intro x' hx'
      rw [hx] at hx'
      cases hx'
      exact hxstarts

/-- Where the second of two parsers starts, the first one does what it did, if the same token is next or one that may
follow. -/
private theorem rerun (hp : Completes m k₁ l₁ follow₁ starts₁ p) {c d : Cursor} {a : α}
    {taken more more' behind : List Token} {new : List Diagnostic} (hc : c.rest.length < m) (hd : d.rest.length < m)
    (hrun : Run p c (some a) taken (more ++ more') new) (hrest : d.rest = taken ++ (more ++ behind))
    (hnext : more = [] → follow₁ (nextKind behind)) : ∃ new', Run p d (some a) taken (more ++ behind) new' := by
  by_cases hmore : more = []
  · subst hmore
    exact hp.free hc hrun hd hrest (hnext rfl)
  · exact ⟨new, hp.same hc hd hrun hrest (.of_front hmore more' behind)⟩

/-- Two parsers in a row. What the second one starts with, when it is completed from nothing, may follow the first. What it
needs then may be less than what it needs later on. -/
theorem bindFillable {e : Nat} (hp : Completes m k₁ l₁ follow₁ starts₁ p)
    (hf : ∀ a, Completes (m - l₁) j i follow s (f a))
    (hfill : k < m → ∀ a, Fillable (m - l₁) e i follow s (f a)) (he : k₁ + e ≤ k) (hj : j ≤ k + 8 * l₁)
    (hnull : i = 0 → ∀ x, follow x → follow₁ x) (hnext : ∀ x, s x → follow₁ (some x))
    (hstarts₁ : ∀ x, starts₁ x → starts x) (hstarts₂ : l₁ = 0 → ∀ x, s x → starts x) : Completes m k (l₁ + i) follow starts (p >>= f) where
  toLocal := hp.toLocal.both fun a => (hf a).toLocal
  free {c b _ more _} hc hrun := by
    obtain ⟨⟨⟩, -⟩ | ⟨a, taken₁, taken₂, more₁, new₁, new₂, rfl, rfl, hl₁, hrun₁, hrun₂⟩ :=
      hp.toLocal.cut (fun a => (hf a).toLocal) hc hrun
    intro d rest hd hrest hfollow
    obtain rfl : more₁ = taken₂ ++ more := hrun₂.rest
    have hless : (c.after (taken₂ ++ more) new₁).rest.length < m - l₁ := Cursor.length_rest_after_lt hc hrun₁.rest hl₁
    have hi := (hf a).toLocal.least_le hless hrun₂
    rw [List.append_assoc] at hrest
    obtain ⟨new₁', hp'⟩ := hp.rerun hc hd hrun₁ hrest fun htaken₂ => hnull (by simpa [htaken₂] using hi) _ hfollow
    obtain ⟨new₂', hf'⟩ := (hf a).free hless hrun₂ (d := d.after _ new₁')
      (Cursor.length_rest_after_lt hd hrest hl₁) rfl hfollow
    exact ⟨_, hp'.bind_some hf'⟩
  completes {c _ more _} hc hrun := by
    have hlt : c.rest.length < m := by omega
    obtain ⟨-, hrun₁⟩ | ⟨a, taken₁, taken₂, more₁, new₁, new₂, rfl, rfl, hl₁, hrun₁, hrun₂⟩ :=
      hp.toLocal.cut (fun a => (hf a).toLocal) hlt hrun
    · -- The first parser is completed, and the second one from nothing.
      obtain ⟨z₁, a, hz₁, heof₁, hstart₁, hacc₁⟩ := hp.completes (by omega) hrun₁
      obtain ⟨z₂, b, hz₂, heof₂, hnil₂, hstart₂, hacc₂⟩ := hfill (by omega) a
      refine ⟨z₁ ++ z₂, b, by rw [List.length_append]; omega, List.forall_mem_append.mpr ⟨heof₁, heof₂⟩,
        fun htaken => ?_, ?_⟩
      · obtain ⟨x, hx, hxstarts⟩ := hstart₁ htaken
        exact ⟨x, nextKind_append hx z₂, hstarts₁ x hxstarts⟩
      · intro d rest hd hrest hfollow
        rw [← List.append_assoc, List.append_assoc (_ ++ z₁)] at hrest
        have hbehind : follow₁ (nextKind (z₂ ++ rest)) := by
          cases z₂ with
          | nil => exact hnull (hnil₂ rfl) _ hfollow
          | cons t z₂ => exact hnext t.kind (hstart₂ t.kind rfl)
        obtain ⟨new₁, hp'⟩ := hacc₁ hd hrest hbehind
        have hl₁ := hp.toLocal.least_le hd hp'
        obtain ⟨new₂, hf'⟩ := hacc₂ (d := d.after _ new₁) (Cursor.length_rest_after_lt hd hrest hl₁) rfl hfollow
        exact ⟨_, List.append_assoc .. ▸ hp'.bind_some hf'⟩
    · -- The first parser has given its result, and the second one is completed.
      obtain rfl : more₁ = taken₂ ++ more := hrun₂.rest
      have hlength := congrArg List.length hrun₁.rest
      rw [List.length_append] at hlength
      obtain ⟨z, b, hz, heof, hstart, hacc⟩ := (hf a).completes (by rw [Cursor.rest_after]; omega) hrun₂
      refine ⟨z, b, by rw [List.length_append]; omega, heof, fun htaken => ?_, ?_⟩
      · obtain ⟨rfl, rfl⟩ := List.append_eq_nil_iff.mp htaken
        obtain ⟨x, hx, hxstarts⟩ := hstart rfl
        exact ⟨x, hx, hstarts₂ (by simpa using hl₁) x hxstarts⟩
      · intro d rest hd hrest hfollow
        rw [List.append_assoc, List.append_assoc] at hrest
        obtain ⟨new₁', hp'⟩ := hp.rerun hlt hd hrun₁ hrest fun htaken₂ => by
          obtain ⟨x, hx, hxstarts⟩ := hstart htaken₂
          rw [nextKind_append hx]
          exact hnext x hxstarts
        rw [← List.append_assoc taken₂] at hrest hp'
        obtain ⟨new₂', hf'⟩ := hacc (d := d.after _ new₁') (Cursor.length_rest_after_lt hd hrest hl₁) rfl hfollow
        exact ⟨_, by simpa only [List.append_assoc] using hp'.bind_some hf'⟩

theorem bind (hp : Completes m k₁ l₁ follow₁ starts₁ p) (hf : ∀ a, Completes (m - l₁) j i follow s (f a))
    (hl : l₁ ≤ k₁) (hk : k₁ + j ≤ k) (hnull : i = 0 → ∀ x, follow x → follow₁ x)
    (hnext : ∀ x, s x → follow₁ (some x)) (hstarts₁ : ∀ x, starts₁ x → starts x)
    (hstarts₂ : l₁ = 0 → ∀ x, s x → starts x) : Completes m k (l₁ + i) follow starts (p >>= f) :=
  hp.bindFillable hf (fun hm a => (hf a).fillable (by omega)) hk (by omega) hnull hnext hstarts₁ hstarts₂

/-- A parser that takes nothing and always gives the same result. -/
theorem still {a : α} (hlocal : Local m m 0 soft p p) (hrun : ∀ c, ∃ new, Run p c (some a) [] c.rest new) :
    Completes m k 0 follow starts p where
  toLocal := hlocal
  free {c _ _ _ _} _ h := by
    obtain ⟨new, hc⟩ := hrun c
    obtain ⟨ha, rfl, -⟩ := h.unique hc
    rintro d rest - rfl -
    rw [ha]
    exact hrun d
  completes {c _ _ _} _ h := by
    obtain ⟨new, hc⟩ := hrun c
    obtain ⟨⟨⟩, -⟩ := h.unique hc

theorem pure {a : α} : Completes m k 0 follow starts (Pure.pure a) := still .pure fun c => ⟨[], .pure a c⟩

/-- Whatever goes on behind a step that takes nothing. -/
theorem afterStill (hp : Completes m 0 0 (fun _ => True) (fun _ => False) p)
    (hf : ∀ a, Completes m k l follow starts (f a)) : Completes m k l follow starts (p >>= f) :=
  (hp.bind hf le_rfl (by omega) (fun _ _ _ => trivial) (fun _ _ => trivial) (fun _ => False.elim) fun _ _ h => h).lower
    le_rfl le_rfl (by omega)

/-- Behind a parser comes something that may be left out and that is never asked for. -/
theorem thenMore (hp : Completes m k l follow₁ starts p) (hf : ∀ a, Completes (m - l) 0 0 follow (fun _ => False) (f a))
    (hl : l ≤ k) (hfollow : ∀ x, follow x → follow₁ x) : Completes m k l follow starts (p >>= f) :=
  hp.bind hf hl le_rfl (fun _ => hfollow) (fun _ => False.elim) (fun _ h => h) fun _ _ => False.elim

/-- A result made of another one. -/
theorem map {g : α → β} (h : Completes m k l follow starts p) (hl : l ≤ k) :
    Completes m k l follow starts (p >>= fun a => Pure.pure (g a)) := h.thenMore (fun _ => pure) hl fun _ h => h

theorem report {t : Token} {complaint : Complaint} (h : (t.complain complaint).isPanic = false) :
    Completes m k 0 follow starts (Grammar.report t complaint) :=
  still (a := ()) (.report h) fun _ => ⟨[t.complain complaint], .still rfl⟩

/-- A complaint about the next token, whatever it is. -/
theorem reportNext {complaint : Complaint} (h : ∀ t : Token, (t.complain complaint).isPanic = false) {f : Unit → Parser β}
    (hf : Completes m k l follow starts (f ())) :
    Completes m k l follow starts (get >>= fun c => Grammar.report c.peek complaint >>= f) := by
  have hreport : Completes m 0 0 (fun _ => True) (fun _ => False) (get >>= fun c => Grammar.report c.peek complaint) := by
    have hlocal : Local m m 0 soft _ _ := .reportNext (f := Pure.pure) (g := Pure.pure) h .pure
    simp only [bind_pure] at hlocal
    exact still (a := ()) hlocal fun c => ⟨[(c.next c.rest).complain complaint], .still rfl⟩
  simpa only [bind_assoc] using hreport.afterStill fun _ => hf

/-- A step that takes a token of a wanted kind or none. -/
theorem take? {wanted : Kind → Bool} {f : Option Token → Parser β}
    (hsome : ∀ t, wanted t.kind = true → Completes (m - 1) (k + 8) (l - 1) follow s (f (some t)))
    (hnone : Completes m k l follow starts (f none)) (hstarts : ∀ x, starts x → wanted x = false)
    (hfollow : l = 0 → ∀ x, follow (some x) → wanted x = false) :
    Completes m k l follow starts (Grammar.take? wanted >>= f) where
  toLocal := .take? (fun _ _ => trivial) (fun t ht => (hsome t ht).toLocal) hnone.toLocal
  free {c b taken _ _} hc hrun d rest hd hrest hnext := by
    obtain ⟨hunwanted, hrun₁⟩ | ⟨t, after, taken', ht, hcons, rfl, hrun₁⟩ :=
      Local.cut_take? (fun t ht => (hsome t ht).toLocal) hc hrun
    · obtain ⟨new, hrun'⟩ := hnone.free hc hrun₁ hd hrest hnext
      refine ⟨new, .take?_none ?_ hrun'⟩
      cases taken with
      | nil =>
        have hl : l = 0 := by simpa using hnone.toLocal.least_le hc hrun₁
        rw [hrest]
        exact unwanted_of_nextKind fun x hx => hfollow hl x (hx ▸ hnext)
      | cons t taken =>
        rw [hrun₁.rest] at hunwanted
        rw [hrest]
        exact hunwanted
    · obtain ⟨new, hrun'⟩ := (hsome t ht).free (Cursor.length_rest_after_cons_lt hc hcons) hrun₁
        (d := d.after _ []) (Cursor.length_rest_after_cons_lt hd hrest) rfl hnext
      exact ⟨new, .take?_some ht hrest hrun'⟩
  completes {c taken _ _} hc hrun := by
    obtain ⟨hunwanted, hrun₁⟩ | ⟨t, after, taken', ht, hcons, rfl, hrun₁⟩ :=
      Local.cut_take? (fun t ht => (hsome t ht).toLocal) (by omega) hrun
    · obtain ⟨z, b, hz, heof, hstart, hacc⟩ := hnone.completes hc hrun₁
      refine ⟨z, b, hz, heof, hstart, fun d rest hd hrest hnext => ?_⟩
      obtain ⟨new, hrun'⟩ := hacc hd hrest hnext
      refine ⟨new, .take?_none ?_ hrun'⟩
      rw [hrest, List.append_assoc]
      cases taken with
      | nil =>
        obtain ⟨x, hx, hxstarts⟩ := hstart rfl
        refine unwanted_of_nextKind fun y hy => ?_
        rw [List.nil_append, nextKind_append hx] at hy
        cases hy
        exact hstarts x hxstarts
      | cons t taken =>
        rw [hrun₁.rest] at hunwanted
        exact hunwanted
    · rw [hcons, List.length_cons] at hc
      obtain ⟨z, b, hz, heof, -, hacc⟩ := (hsome t ht).completes (by rw [Cursor.rest_after]; omega) hrun₁
      refine ⟨z, b, by rw [List.length_cons]; omega, heof, nofun, fun d rest hd hrest hnext => ?_⟩
      obtain ⟨new, hrun'⟩ := hacc (d := d.after _ []) (Cursor.length_rest_after_cons_lt hd hrest) rfl hnext
      exact ⟨new, .take?_some ht hrest hrun'⟩

/-- A token is asked for: one that fits is put in its place. -/
theorem ask {u : Kind → Prop} {wanted : Kind → Bool} {kind : Kind} {what : String} {f : Option Token → Parser β}
    (hkind : wanted kind = true) (heof : kind ≠ .eof)
    (hsome : ∀ t, wanted t.kind = true → Completes (m - 1) (k + 8) (l - 1) follow s (f (some t)))
    (hfiller : Completes (m - 1) j (l - 1) follow u (f (some (filler kind)))) (hk : j + 1 ≤ k)
    (hnone : f none = fail (.expected what)) :
    Completes m k l follow (· = kind) (Grammar.take? wanted >>= f) where
  toLocal := .take? (fun _ _ => trivial) (fun t ht => (hsome t ht).toLocal) (hnone ▸ .fail)
  free {c b taken _ _} hc hrun d rest hd hrest hnext := by
    obtain ⟨-, hrun₁⟩ | ⟨t, after, taken', ht, hcons, rfl, hrun₁⟩ :=
      Local.cut_take? (fun t ht => (hsome t ht).toLocal) hc hrun
    · rw [hnone] at hrun₁
      obtain ⟨⟨⟩, -⟩ := hrun₁.unique (.fail what c)
    · obtain ⟨new, hrun'⟩ := (hsome t ht).free (Cursor.length_rest_after_cons_lt hc hcons) hrun₁
        (d := d.after _ []) (Cursor.length_rest_after_cons_lt hd hrest) rfl hnext
      exact ⟨new, .take?_some ht hrest hrun'⟩
  completes {c taken _ _} hc hrun := by
    obtain ⟨-, hrun₁⟩ | ⟨t, after, taken', ht, hcons, rfl, hrun₁⟩ :=
      Local.cut_take? (fun t ht => (hsome t ht).toLocal) (by omega) hrun
    · rw [hnone] at hrun₁
      obtain ⟨-, rfl, -⟩ := hrun₁.unique (.fail what c)
      obtain ⟨z, b, hz, hzeof, -, -, hacc⟩ := hfiller.fillable (by omega)
      refine ⟨filler kind :: z, b, by rw [List.length_cons]; omega, List.forall_mem_cons.mpr ⟨heof, hzeof⟩,
        fun _ => ⟨kind, rfl, rfl⟩, fun d rest hd hrest hnext => ?_⟩
      obtain ⟨new, hrun'⟩ := hacc (d := d.after _ []) (Cursor.length_rest_after_cons_lt hd hrest) rfl hnext
      exact ⟨new, .take?_some hkind hrest hrun'⟩
    · rw [hcons, List.length_cons] at hc
      obtain ⟨z, b, hz, hzeof, -, hacc⟩ := (hsome t ht).completes (by rw [Cursor.rest_after]; omega) hrun₁
      refine ⟨z, b, by rw [List.length_cons]; omega, hzeof, nofun, fun d rest hd hrest hnext => ?_⟩
      obtain ⟨new, hrun'⟩ := hacc (d := d.after _ []) (Cursor.length_rest_after_cons_lt hd hrest) rfl hnext
      exact ⟨new, .take?_some ht hrest hrun'⟩

theorem expect {kind : Kind} {what : String} {f : Token → Parser β} (heof : kind ≠ .eof)
    (h : ∀ t, Completes (m - 1) j (l - 1) follow s (f t)) (hk : j + 1 ≤ k) :
    Completes m k l follow (· = kind) (Grammar.expect kind what >>= f) := by
  rw [Grammar.expect, bind_assoc]
  refine ask (j := j) (s := s) (u := s) (beq_self_eq_true kind) heof (fun t _ => ?_) ?_ hk
    (fail_bind _ f)
  all_goals rw [pure_bind]
  · exact (h t).lower le_rfl (by omega) le_rfl
  · exact h _

/-- Behind a parser a token is asked for. -/
theorem before {kind : Kind} {what : String} {f : α → Token → Parser β} (hp : Completes m k₁ l₁ follow₁ starts₁ p)
    (heof : kind ≠ .eof) (hkind : follow₁ (some kind)) (hl : l₁ ≤ k₁)
    (hf : ∀ a t, Completes (m - l₁ - 1) j i follow s (f a t)) (hk : k₁ + 1 + j ≤ k)
    (hstarts₁ : ∀ x, starts₁ x → starts x) (hstarts₂ : l₁ = 0 → starts kind) :
    Completes m k (l₁ + (i + 1)) follow starts (p >>= fun a => Grammar.expect kind what >>= f a) :=
  hp.bind (s := (· = kind)) (fun a => .expect heof (hf a) (Nat.add_comm 1 j).ge) hl (by omega) nofun
    (fun _ hx => hx ▸ hkind) hstarts₁ fun hl _ hx => hx ▸ hstarts₂ hl

/-- Something that is left out where it has come to an end. -/
theorem unlessAt {q : Parser α} {a : α} {ends : Option Kind → Prop} (hp : Completes m k l follow₁ starts p) (hl : 1 ≤ l)
    (hskip : ∀ {c : Cursor}, ends (nextKind c.rest) → q c = .ok a c)
    (hgo : ∀ {c : Cursor}, ¬ ends (nextKind c.rest) → q c = p c) (hfollow : ∀ x, ends x → follow₁ x)
    (hstarts : ∀ x, starts x → ¬ ends (some x)) : Completes m k 0 ends starts q := by
  have hleft {c : Cursor} (hc : ends (nextKind c.rest)) : Run q c (some a) [] c.rest [] :=
    .still ((hskip hc).trans (Run.pure a c).ends)
  have hrun {c : Cursor} (hc : ¬ ends (nextKind c.rest)) {o : Option α} {taken more : List Token} {new : List Diagnostic} :
      Run q c o taken more new ↔ Run p c o taken more new :=
    ⟨fun h => ⟨h.rest, hgo hc ▸ h.ends⟩, fun h => ⟨h.rest, (hgo hc).symm ▸ h.ends⟩⟩
  refine { runs := ?_, same := ?_, free := ?_, completes := ?_ }
  · intro c hc
    by_cases hends : ends (nextKind c.rest)
    · exact ⟨_, _, _, _, hleft hends, by simp [Reported], by simp, fun _ => le_rfl⟩
    · obtain ⟨o, taken, more, new, hrun₁, hreported, htakes, -⟩ := hp.runs hc
      exact ⟨o, taken, more, new, (hrun hends).mpr hrun₁, hreported, htakes, fun _ => Nat.zero_le _⟩
  · intro c d hc hd o taken more more' new hrun₁ hrest' hshows
    have hkind : nextKind c.rest = nextKind d.rest := by
      rw [nextKind, nextKind, hrun₁.rest, hrest', (hshows.append taken).1]
    by_cases hends : ends (nextKind c.rest)
    · obtain ⟨rfl, rfl, -, rfl⟩ := hrun₁.unique (hleft hends)
      obtain rfl : d.rest = more' := hrest'
      exact hleft (hkind ▸ hends)
    · exact (hrun (hkind ▸ hends)).mpr (hp.same hc hd ((hrun hends).mp hrun₁) hrest' hshows)
  · intro c b taken more new hc hrun₁ d rest hd hrest hnext
    by_cases hends : ends (nextKind c.rest)
    · obtain ⟨hb, rfl, -⟩ := hrun₁.unique (hleft hends)
      obtain rfl : d.rest = rest := hrest
      rw [hb]
      exact ⟨[], hleft hnext⟩
    · rw [hrun hends] at hrun₁
      obtain ⟨new, hrun'⟩ := hp.free hc hrun₁ hd hrest (hfollow _ hnext)
      have hne : taken ≠ [] := List.length_pos_iff.mp (hl.trans (hp.toLocal.least_le hc hrun₁))
      rw [hrun₁.rest, nextKind_front hne more rest, ← hrest] at hends
      exact ⟨new, (hrun hends).mpr hrun'⟩
  · intro c taken more new hc hrun₁
    by_cases hends : ends (nextKind c.rest)
    · obtain ⟨⟨⟩, -⟩ := hrun₁.unique (hleft hends)
    · rw [hrun hends] at hrun₁
      obtain ⟨z, b, hz, heof, hstart, hacc⟩ := hp.completes hc hrun₁
      refine ⟨z, b, hz, heof, hstart, fun d rest hd hrest hnext => ?_⟩
      obtain ⟨new, hrun'⟩ := hacc hd hrest (hfollow _ hnext)
      refine ⟨new, (hrun ?_).mpr hrun'⟩
      rw [hrest, List.append_assoc]
      by_cases hne : taken = []
      · obtain ⟨x, hx, hxstarts⟩ := hstart hne
        rw [hne, List.nil_append, nextKind_append hx]
        exact hstarts x hxstarts
      · rwa [hrun₁.rest, nextKind_front hne more (z ++ rest)] at hends

/-- Something that is left out if a token of the given kind is next. -/
theorem optional {kind : Kind} {a : α} (hp : Completes m k l follow₁ starts p) (hl : 1 ≤ l) (hfollow : follow₁ (some kind))
    (hstarts : ¬ starts kind) : Completes m k 0 (· = some kind) starts
      (isAt kind >>= fun closed => if closed = true then Pure.pure a else p) := by
  have hlook (c : Cursor) : (isAt kind >>= fun closed => if closed = true then Pure.pure a else p) c =
      (if nextKind c.rest = some kind then Pure.pure a else p : Parser α) c := by
    change (if c.isAt kind = true then Pure.pure a else p : Parser α) c = _
    simp only [isAt_eq_nextKind, beq_iff_eq]
  refine hp.unlessAt (a := a) hl (fun hc => ?_) (fun hc => ?_) (fun x hx => hx ▸ hfollow) fun x hx hkind => ?_
  · rw [hlook, if_pos hc]
    rfl
  · rw [hlook, if_neg hc]
  · cases hkind
    exact hstarts hx

theorem takeAll {wanted : Kind → Bool} :
    Completes m 0 0 (fun x => ∀ k, x = some k → wanted k = false) (fun _ => False) (Grammar.takeAll wanted) where
  toLocal := .takeAll fun _ _ => trivial
  free {c _ _ _ _} _ h d rest _ hrest hnext := by
    obtain ⟨ha, rfl, -⟩ := h.unique (.takeAll wanted c)
    rw [ha]
    exact ⟨[], .takeAll_of_stop hrest (List.all_eq_true.mp List.all_takeWhile) (unwanted_of_nextKind hnext)⟩
  completes {c _ _ _} _ h := by
    obtain ⟨⟨⟩, -⟩ := h.unique (.takeAll wanted c)

theorem zero : Completes 0 k l follow starts p where
  toLocal := .zero
  free hc := absurd hc (by omega)
  completes hc := absurd hc (by omega)

end Completes

/-! ### Expressions -/

/-- A name can stand wherever an expression can. -/
def isName (k : Kind) : Prop := k = .identifier

/-- What may stand behind an expression, so that it does not go on. -/
def endsExpression (x : Option Kind) : Prop := ∀ k, x = some k → k ∉ continuing

theorem endsExpression_some {k : Kind} (h : k ∉ continuing) : endsExpression (some k) := by
  rintro _ ⟨⟩
  exact h

section Expressions

variable {b m M : Nat} {whole : Parser Node}

theorem commaItems_completes {α : Type} {what : String} {item : Parser α} {follow : Option Kind → Prop}
    (hitem : Completes M 1 1 follow isName item) : ∀ {b m count : Nat}, m ≤ M → m ≤ b →
      Completes m 1 1 (fun x => follow x ∧ x ≠ some .comma) isName (commaItems what item b count) := by
  intro b
  induction b with
  | zero =>
    intro m count _ hb
    obtain rfl : m = 0 := by omega
    exact .zero
  | succ b ih =>
    intro m count hm hb
    unfold commaItems
    dsimp only
    generalize hfirst : (item >>= _) = round
    have hround : Completes m 1 1 (fun x => follow x ∧ x ≠ some .comma) isName round := by
      rw [← hfirst]
      refine (hitem.lower hm le_rfl le_rfl).thenMore (fun first => ?_) le_rfl fun _ h => h.1
      refine .take? (s := isName) (fun comma _ => ?_) .pure (fun _ h => h.elim) fun _ x hx => by simpa using hx.2
      exact ((ih (by omega) (by omega)).map le_rfl).lower le_rfl (by omega) (by omega)
    split
    · exact .reportNext (fun _ => rfl) hround
    · exact hround

theorem commaList_completes {α : Type} {what : String} {item : Parser α} {follow : Option Kind → Prop} (hb : m ≤ b)
    (hitem : Completes m 1 1 follow isName item) (hfollow : follow (some .rightParen)) :
    Completes m 1 0 (· = some .rightParen) isName (commaList b what item) :=
  (commaItems_completes hitem le_rfl hb).optional le_rfl ⟨hfollow, nofun⟩ nofun

theorem primary_completes (h : Completes m 1 1 endsExpression isName whole) :
    Completes (m + 1) 1 1 endsExpression isName (primary whole) := by
  refine .ask (s := isName) (u := isName) rfl nofun (fun t _ => ?_) (.pure (k := 0)) le_rfl rfl
  dsimp only
  split
  iterate 6 exact .pure
  have hgrouping : Completes m 2 2 endsExpression isName (whole >>= fun inner =>
      expect .rightParen "')' after expression" >>= fun _ => pure (Node.grouping inner)) :=
    h.before (j := 0) (i := 0) (s := isName) (by decide) (endsExpression_some (by decide)) le_rfl (fun _ _ => .pure) le_rfl
      (fun _ h => h) nofun
  exact hgrouping.lower le_rfl (by omega) (by omega)

theorem callsAfter_completes (h : Completes M 1 1 endsExpression isName whole) :
    ∀ {b m : Nat} {callee : Node}, m ≤ M → m ≤ b →
      Completes m 0 0 endsExpression (fun _ => False) (callsAfter whole b callee) := by
  intro b
  induction b with
  | zero =>
    intro m callee _ hb
    obtain rfl : m = 0 := by omega
    exact .zero
  | succ b ih =>
    intro m callee hm hb
    refine .take? (s := fun _ => True) (fun _ _ => ?_) .pure (fun _ h => h.elim) fun _ x hx => ?_
    · have harguments : Completes (m - 1) 1 0 (· = some .rightParen) isName (commaList (b + 1) "arguments" whole) :=
        commaList_completes (by omega) (h.lower (by omega) le_rfl le_rfl) (endsExpression_some (by decide))
      have hcall : Completes (m - 1) 2 1 endsExpression (fun _ => True)
          (commaList (b + 1) "arguments" whole >>= fun arguments => expect .rightParen "')' after arguments" >>= fun paren =>
            callsAfter whole b (.call callee (.token paren) arguments)) :=
        harguments.before (by decide) rfl (Nat.zero_le _) (fun arguments paren => ih (by omega) (by omega)) le_rfl
          (fun _ _ => trivial) fun _ => trivial
      exact hcall.lower le_rfl (by omega) (by omega)
    · have := hx x rfl
      cases x <;> simp_all [continuing]

theorem call_completes (h : Completes b 1 1 endsExpression isName whole) :
    Completes (b + 1) 1 1 endsExpression isName (call b whole) :=
  (primary_completes h).thenMore (fun _ => callsAfter_completes h le_rfl le_rfl) le_rfl fun _ h => h

theorem unary_completes (h : Completes b 1 1 endsExpression isName whole) :
    Completes (b + 1) 1 1 endsExpression isName (unary b whole) := by
  have hsigns : Completes (b + 1) 0 0 (fun x => ∀ k, x = some k → isSign k = false) (fun _ => False) (takeAll isSign) :=
    .takeAll
  refine hsigns.bind (fun _ => (call_completes h).map le_rfl) le_rfl le_rfl nofun (fun x hx => ?_) (fun _ => False.elim)
    fun _ _ h => h
  rintro _ ⟨⟩
  rw [hx]
  rfl

theorem operandsAfter_completes {isOperator : Kind → Bool} {build : Node → Node → Node → Node} {operand : Parser Node}
    (hoperator : ∀ k, isOperator k = true → k ∈ continuing) (h : Completes M 1 1 endsExpression isName operand) :
    ∀ {b m : Nat} {left : Node}, m ≤ M → m ≤ b →
      Completes m 0 0 endsExpression (fun _ => False) (operandsAfter isOperator build operand b left) := by
  intro b
  induction b with
  | zero =>
    intro m left _ hb
    obtain rfl : m = 0 := by omega
    exact .zero
  | succ b ih =>
    intro m left hm hb
    refine .take? (s := isName) (fun operator _ => ?_) .pure (fun _ h => h.elim) fun _ x hx => ?_
    · have hoperand : Completes (m - 1) 8 1 endsExpression isName operand := h.lower (by omega) (by omega) le_rfl
      exact (hoperand.thenMore (fun right => ih (by omega) (by omega)) (by omega) fun _ h => h).lower le_rfl (by omega)
        (by omega)
    · rw [Bool.eq_false_iff]
      exact fun hwanted => hx x rfl (hoperator x hwanted)

theorem leftLevel_completes {isOperator : Kind → Bool} {build : Node → Node → Node → Node} {operand : Parser Node}
    (h : Completes (b + 1) 1 1 endsExpression isName operand) (hoperator : ∀ k, isOperator k = true → k ∈ continuing) :
    Completes (b + 1) 1 1 endsExpression isName (leftLevel b isOperator build operand) :=
  h.thenMore (fun _ => operandsAfter_completes hoperator h (by omega) (by omega)) le_rfl fun _ h => h

theorem assignment_completes (h : Completes b 1 1 endsExpression isName whole) :
    Completes (b + 1) 1 1 endsExpression isName (assignment b whole) := by
  have hdisjunction : Completes (b + 1) 1 1 endsExpression isName (disjunction b whole) := by
    iterate 6 refine leftLevel_completes ?_ (fun k => by cases k <;> decide)
    exact unary_completes h
  refine hdisjunction.thenMore (fun left => ?_) le_rfl fun _ h => h
  refine .take? (s := isName) (fun equals _ => ?_) .pure (fun _ h => h.elim) fun _ x hx => ?_
  · have hvalue : Completes (b + 1 - 1 - 1) 8 1 endsExpression isName whole := h.lower (by omega) (by omega) le_rfl
    refine (hvalue.thenMore (fun value => ?_) (by omega) fun _ h => h).lower le_rfl (by omega) (by omega)
    split
    · exact .pure
    · exact .afterStill (.report rfl) fun _ => .pure
  · have := hx x rfl
    cases x <;> simp_all [continuing]

theorem expression_completes (b : Nat) : Completes b 1 1 endsExpression isName (expression b) := by
  induction b with
  | zero => exact .zero
  | succ b ih => exact assignment_completes ih

end Expressions

/-! ### Statements -/

/-- What may stand behind a statement, so that it does not go on. -/
def endsStatement (x : Option Kind) : Prop := x ≠ some .kwElse

section Statements

variable {b m M : Nat} {inner : Parser Node} {item : Parser (Option Node)} {follow : Option Kind → Prop}

theorem expressionBefore_completes (hb : m ≤ b) {kind : Kind} (heof : kind ≠ .eof) (hkind : kind ∉ continuing)
    {what : String} {α : Type} {build : Node → α} : Completes m 2 1 follow isName
      (expression b >>= fun value => expect kind what >>= fun _ => pure (build value)) := by
  refine (((expression_completes b).lower hb le_rfl le_rfl).before (j := 0) (i := 0) (s := isName) heof
    (endsExpression_some hkind) le_rfl (fun _ _ => .pure) le_rfl (fun _ h => h) nofun).lower le_rfl le_rfl (by omega)

theorem optionalUnless_completes (hb : m ≤ b) {kind : Kind} (hkind : kind ∉ continuing) (hname : kind ≠ .identifier) :
    Completes m 1 0 (· = some kind) isName (optionalUnless b kind) :=
  (((expression_completes b).lower hb le_rfl le_rfl).map le_rfl).optional le_rfl (endsExpression_some hkind) hname

theorem returnStatement_completes (hb : m ≤ b) {inFunction : Bool} {keyword : Token} :
    Completes m 2 1 follow (fun _ => True) (returnStatement b inFunction keyword) := by
  have hvalue : Completes m 2 1 follow (fun _ => True) (returnStatement b true keyword) :=
    (optionalUnless_completes hb (by decide) (by decide)).before (j := 0) (i := 0) (s := isName) (by decide) rfl
      (Nat.zero_le _) (fun _ _ => .pure) le_rfl (fun _ _ => trivial) fun _ => trivial
  cases inFunction with
  | true => exact hvalue
  | false => exact .afterStill (.report rfl) fun _ => hvalue

theorem variableDeclaration_completes (hb : m ≤ b) :
    Completes m 2 2 follow (· = .identifier) (variableDeclaration b) := by
  refine .expect (j := 1) (s := (· = .semicolon)) (by decide) (fun name => ?_) le_rfl
  refine .take? (s := isName) (fun _ _ => ?_) ?_ (fun x hx => hx ▸ rfl) nofun
  · exact (expressionBefore_completes (by omega) (by decide) (by decide)).lower le_rfl (by omega) (by omega)
  · exact .expect (j := 0) (s := isName) (by decide) (fun _ => .pure) le_rfl

/-- A condition in parentheses and what stands behind it. -/
theorem condition_completes {α : Type} {k l : Nat} (hb : m ≤ b) {what what' : String} {f : Node → Parser α}
    (hf : ∀ condition, Completes (m - 3) k l follow isName (f condition)) :
    Completes m (k + 3) (l + 3) follow (· = .leftParen) (expect .leftParen what >>= fun _ =>
      expression b >>= fun condition => expect .rightParen what' >>= fun _ => f condition) := by
  have hcondition (hm : m - 1 ≤ b) : Completes (m - 1) (k + 2) (l + 2) follow isName
      (expression b >>= fun condition => expect .rightParen what' >>= fun _ => f condition) :=
    (((expression_completes b).lower hm le_rfl le_rfl).before (j := k) (i := l) (by decide)
      (endsExpression_some (by decide)) le_rfl (fun condition _ => hf condition) (by omega) (fun _ h => h) nofun).lower
      le_rfl le_rfl (by omega)
  exact .expect (by decide) (fun _ => hcondition (by omega)) le_rfl

theorem ifStatement_completes (hb : m ≤ b) (h : Completes (m - 3) 2 1 endsStatement isName inner) :
    Completes m 5 4 endsStatement (· = .leftParen) (ifStatement b inner) := by
  refine condition_completes (k := 2) (l := 1) hb fun condition => h.thenMore (fun yes => ?_) (by omega) fun _ h => h
  refine .take? (s := isName) (fun _ _ => ?_) .pure (fun _ h => h.elim) fun _ x hx => ?_
  · have helse : Completes (m - 3 - 1 - 1) 2 1 endsStatement isName inner := h.lower (by omega) le_rfl le_rfl
    exact (helse.map (by omega)).lower le_rfl (by omega) (by omega)
  · exact beq_false_of_ne fun hkind => hx (congrArg some hkind)

theorem whileStatement_completes (hb : m ≤ b) (h : Completes (m - 3) 2 1 endsStatement isName inner) :
    Completes m 5 4 endsStatement (· = .leftParen) (whileStatement b inner) :=
  condition_completes hb fun _ => h.map (by omega)

theorem forInitial_completes (hb : m ≤ b) : Completes m 2 1 follow isName (forInitial b) := by
  refine .take? (s := isName) (fun t _ => ?_) ((expressionBefore_completes hb (by decide) (by decide)).map (by omega))
    (fun x hx => hx ▸ rfl) nofun
  dsimp only
  split
  · exact ((variableDeclaration_completes (by omega)).map le_rfl).lower le_rfl (by omega) (by omega)
  · exact .pure

theorem forStatement_completes (hb : m ≤ b) (h : Completes (m - 4) 2 1 endsStatement isName inner) :
    Completes m 9 5 endsStatement (· = .leftParen) (forStatement b inner) := by
  have hincrement (initial condition : Option Node) : Completes (m - 3) 4 2 endsStatement (fun _ => True)
      (optionalUnless b .rightParen >>= fun increment => expect .rightParen "')' after for clauses" >>= fun _ =>
        inner >>= fun body => pure (desugarFor initial condition increment body)) :=
    (optionalUnless_completes (by omega) (by decide) (by decide)).before (j := 2) (i := 1) (by decide) rfl (by omega)
      (fun increment _ => (h.lower (by omega) le_rfl le_rfl).map (by omega)) le_rfl (fun _ _ => trivial) fun _ => trivial
  have hcondition (initial : Option Node) : Completes (m - 2) 6 3 endsStatement (fun _ => True)
      (optionalUnless b .semicolon >>= fun condition => expect .semicolon "';' after loop condition" >>= fun _ =>
        optionalUnless b .rightParen >>= fun increment => expect .rightParen "')' after for clauses" >>= fun _ =>
          inner >>= fun body => pure (desugarFor initial condition increment body)) :=
    (optionalUnless_completes (by omega) (by decide) (by decide)).before (j := 4) (i := 2) (by decide) rfl (by omega)
      (fun condition _ => hincrement initial condition) le_rfl (fun _ _ => trivial) fun _ => trivial
  refine .expect (j := 8) (s := isName) (by decide) (fun _ => ?_) le_rfl
  have hinitial : Completes (m - 1) 2 1 (fun _ => True) isName (forInitial b) := forInitial_completes (by omega)
  exact hinitial.bind hcondition (by omega) le_rfl nofun (fun _ _ => trivial) (fun _ h => h) nofun

/-- Items are completed by one more at most, and none has to stand at the end. -/
theorem itemsUntil_completes {α : Type} {item : Parser (Option α)} {stop : Cursor → Bool} {ends : Option Kind → Prop}
    {k : Nat} (hitem : Completes M k 1 follow isName item) (hstop : ∀ c, (stop c || c.atEnd) = true ↔ ends (nextKind c.rest))
    (hfollow : ∀ x, ends x → follow x) (hname : follow (some .identifier)) (hstarts : ¬ ends (some .identifier)) :
    ∀ {b m : Nat}, m ≤ M → m ≤ b → Completes m k 0 ends isName (itemsUntil stop item b) := by
  have hnone {b m : Nat} {d : Cursor} (hd : d.rest.length < m) (hb : m ≤ b) (hends : ends (nextKind d.rest)) :
      Run (itemsUntil stop item b) d (some []) [] d.rest [] := by
    obtain _ | b := b
    · omega
    · exact .itemsUntil_stop ((hstop d).mpr hends)
  intro b
  induction b with
  | zero =>
    intro m _ hb
    obtain rfl : m = 0 := by omega
    exact .zero
  | succ b ih =>
    intro m hm hb
    have hround : Completes m k 1 ends isName
        (item >>= fun first => itemsUntil stop item b >>= fun rest => pure (first.toList ++ rest)) := by
      refine (hitem.lower hm le_rfl le_rfl).bindFillable (e := 0) (i := 0)
        (fun first => (ih ?_ ?_).map (Nat.zero_le _)) (fun _ first => ?_) le_rfl ?_ (fun _ => hfollow)
        (fun x hx => hx ▸ hname) (fun _ h => h) nofun
      · omega
      · omega
      · refine ⟨[], first.toList ++ [], by simp, by simp, fun _ => rfl, by simp, ?_⟩
        rintro d rest hd rfl hends
        exact ⟨[], (hnone hd (by omega) hends).bind_some (.pure _ _)⟩
      · omega
    refine hround.unlessAt (a := []) le_rfl (fun hends => itemsUntil_stop ((hstop _).mpr hends)) (fun hends => ?_)
      (fun _ h => h) fun x hx => hx ▸ hstarts
    exact itemsUntil_step (Bool.eq_false_iff.mpr fun h => hends ((hstop _).mp h))

theorem block_completes (hb : m ≤ b) (h : Completes m 2 1 endsStatement isName item) :
    Completes m 3 1 follow (fun _ => True) (block b item) := by
  have hitems : Completes m 2 0 (fun x => x = none ∨ x = some .rightBrace) isName
      (itemsUntil (Cursor.isAt .rightBrace) item b) := by
    refine itemsUntil_completes h (fun c => ?_) ?_ nofun nofun le_rfl hb
    · simp only [isAt_eq_nextKind, atEnd_eq_nextKind, Bool.or_eq_true, beq_iff_eq, Or.comm]
    · rintro _ (rfl | rfl) <;> nofun
  exact hitems.before (j := 0) (i := 0) (s := isName) (by decide) (.inr rfl) (Nat.zero_le _) (fun _ _ => .pure)
    le_rfl (fun _ _ => trivial) fun _ => trivial

theorem functionDeclaration_completes (hb : m ≤ b) (h : Completes (m - 4) 2 1 endsStatement isName item) :
    Completes m 8 5 follow (· = .identifier) (functionDeclaration b item) := by
  have hbody (name : Token) (params : List Token) : Completes (m - 3) 4 2 follow (· = .leftBrace)
      (expect .leftBrace "'\x7b' before function body" >>= fun _ => block b item >>= fun body =>
        pure (Node.function (.token name) (params.map .token) body)) :=
    .expect (j := 3) (by decide) (fun _ => (block_completes (by omega) h).map (by omega)) le_rfl
  have hparameter {m : Nat} : Completes m 1 1 (fun _ => True) isName (expect .identifier "parameter name") := by
    rw [← bind_pure (expect .identifier "parameter name")]
    exact .expect (j := 0) (s := isName) (by decide) (fun _ => .pure) le_rfl
  refine .expect (j := 7) (by decide) (fun name =>
    .expect (j := 6) (s := fun _ => True) (by decide) (fun _ => ?_) le_rfl) le_rfl
  have hparameters : Completes (m - 1 - 1) 1 0 (· = some .rightParen) isName
      (commaList b "parameters" (expect .identifier "parameter name")) := commaList_completes (by omega) hparameter trivial
  exact hparameters.before (j := 4) (i := 2) (by decide) rfl (Nat.zero_le _)
    (fun params _ => hbody name params) le_rfl (fun _ _ => trivial) fun _ => trivial

theorem statementBody_completes (hb : m ≤ b) (h : Completes (m - 1) 2 1 endsStatement isName inner)
    (hitem : Completes (m - 1) 2 1 endsStatement isName item) {inFunction : Bool} :
    Completes m 2 1 endsStatement isName (statementBody b inFunction inner item) := by
  refine .take? (s := fun _ => True) (fun t _ => ?_) (expressionBefore_completes hb (by decide) (by decide))
    (fun x hx => hx ▸ rfl) nofun
  have hm : m - 1 ≤ b := by omega
  -- Behind the word that starts it, every statement is short enough from nothing.
  have hshort {k l : Nat} {starts : Kind → Prop} {p : Parser Node} (hp : Completes (m - 1) k l endsStatement starts p)
      (hk : k ≤ 2 + 8) : Completes (m - 1) (2 + 8) (1 - 1) endsStatement (fun _ => True) p :=
    hp.mono le_rfl hk (Nat.zero_le _) (fun _ h => h) fun _ _ => trivial
  dsimp only
  split
  · exact hshort (ifStatement_completes hm (h.lower (by omega) le_rfl le_rfl)) (by omega)
  · exact hshort (expressionBefore_completes hm (by decide) (by decide)) (by omega)
  · exact hshort (whileStatement_completes hm (h.lower (by omega) le_rfl le_rfl)) (by omega)
  · exact hshort (forStatement_completes hm (h.lower (by omega) le_rfl le_rfl)) (by omega)
  · exact hshort (returnStatement_completes hm) (by omega)
  · exact hshort ((block_completes hm hitem).map (by omega)) (by omega)

theorem declarationBody_completes (hb : m ≤ b) (h : Completes m 2 1 endsStatement isName inner)
    (hitem : Completes (m - 1) 2 1 endsStatement isName item) :
    Completes m 2 1 endsStatement isName (declarationBody b inner item) := by
  refine .take? (s := isName) (fun t _ => ?_) h (fun x hx => hx ▸ rfl) nofun
  dsimp only
  split
  · have hbody : Completes (m - 1 - 4) 2 1 endsStatement isName item := hitem.lower (by omega) le_rfl le_rfl
    exact (functionDeclaration_completes (by omega) hbody).lower le_rfl (by omega) (by omega)
  · exact (variableDeclaration_completes (by omega)).lower le_rfl (by omega) (by omega)

end Statements

/-- Where no panic is stopped, what a declaration has taken by then can be completed. -/
theorem statement_declaration_completes (b : Nat) (inFunction : Bool) :
    Completes (b / 2) 2 1 endsStatement isName (statementWith strictly b inFunction) ∧
      Completes ((b - 1) / 2) 2 1 endsStatement isName (declarationWith strictly b inFunction) := by
  induction b generalizing inFunction with
  | zero => exact ⟨.zero, .zero⟩
  | succ b ih =>
    obtain ⟨hstatement, hdeclaration⟩ := ih inFunction
    obtain ⟨-, hinner⟩ := ih true
    simp only [statementWith, declarationWith]
    constructor
    · refine statementBody_completes ?_ (hstatement.lower ?_ le_rfl le_rfl) (hdeclaration.lower ?_ le_rfl le_rfl)
      all_goals omega
    · refine (declarationBody_completes ?_ hstatement (hinner.lower ?_ le_rfl le_rfl)).map ?_
      all_goals omega

end LoxLang.Grammar
