import LoxLang.Proofs.Grammar.Indexed
import LoxLang.Proofs.Grammar.Steps
/-!
# Following an index

A list of tokens ends with the only one that marks an end. At every index of it, a parser that takes
tokens from the front of a list sees the tokens from the index on. `Tracks` says of a walk along the
index that it does what such a parser does: both end alike, and the index is still inside the list.
Neither stepping outside nor running out of fuel is an end like one of the parser's.

How much fuel is needed depends on the number of tokens that are left, so `Tracks` also counts: it
speaks of places with fewer than so many tokens left, and says how many tokens are taken at least.
-/

namespace LoxLang.Grammar

/-- The tokens of a list in front of the only one that marks an end. -/
structure Ended (ts : List Token) (eof : Token) : Prop where
  last : eof.kind = .eof
  only : ∀ t ∈ ts, t.kind ≠ .eof

/-- What is left of the tokens at a place. -/
def Position.view (ts : List Token) (eof : Token) (w : Position) : Cursor := ⟨ts.drop w.current, eof, w.reports⟩

/-- The place one token further. -/
def Position.next (w : Position) : Position := { w with current := w.current + 1 }

namespace Walk

variable {α β : Type} {ts : List Token} {eof : Token} {w w' : Position}

theorem bind_ok {q : Walk α} {g : α → Walk β} {a : α} (h : q w = .ok a w') : (q >>= g) w = g a w' := by
  simp only [bind, EStateM.bind, h]

theorem bind_error {q : Walk α} {g : α → Walk β} {e : Halt} (h : q w = .error e w') : (q >>= g) w = .error e w' := by
  simp only [bind, EStateM.bind, h]

/-! ### Tokens -/

/-- A place is at the end, or a token is next. -/
theorem view_cases (h : w.current ≤ ts.length) :
    (w.current = ts.length ∧ w.view ts eof = ⟨[], eof, w.reports⟩) ∨
      ∃ t, t ∈ ts ∧ ts[w.current]? = some t ∧ w.view ts eof = ⟨t :: ts.drop (w.current + 1), eof, w.reports⟩ := by
  rcases Nat.lt_or_eq_of_le h with hlt | heq
  · refine .inr ⟨ts[w.current], List.getElem_mem hlt, List.getElem?_eq_getElem hlt, ?_⟩
    rw [Position.view, List.drop_eq_getElem_cons hlt]
  · refine .inl ⟨heq, ?_⟩
    rw [Position.view, heq, List.drop_length]

theorem tokenAt_of_getElem? {tokens : List Token} {index : Nat} {t : Token} (h : tokens[index]? = some t) :
    tokenAt tokens index w = .ok t w := by
  rw [tokenAt, h]
  rfl

theorem tokenAt_of_mem {index : Nat} {t : Token} (h : ts[index]? = some t) : tokenAt (ts ++ [eof]) index w = .ok t w := by
  apply tokenAt_of_getElem?
  rw [List.getElem?_append_left (List.getElem?_eq_some_iff.mp h).1, h]

theorem tokenAt_length : tokenAt (ts ++ [eof]) ts.length w = .ok eof w := by
  apply tokenAt_of_getElem?
  rw [List.getElem?_concat_length]

theorem peek_eq (h : w.current ≤ ts.length) : peek (ts ++ [eof]) w = .ok (w.view ts eof).peek w := by
  show tokenAt (ts ++ [eof]) w.current w = _
  rcases view_cases h with ⟨hend, hview⟩ | ⟨t, -, ht, hview⟩
  · rw [hend, tokenAt_length, hview]
    rfl
  · rw [tokenAt_of_mem ht, hview]
    rfl

theorem isAtEnd_eq (hended : Ended ts eof) (h : w.current ≤ ts.length) :
    isAtEnd (ts ++ [eof]) w = .ok (w.view ts eof).atEnd w := by
  have hkind : ((w.view ts eof).peek.kind == .eof) = (w.view ts eof).atEnd := by
    rcases view_cases h with ⟨-, hview⟩ | ⟨t, ht, -, hview⟩
    · rw [hview]
      exact beq_iff_eq.mpr hended.last
    · rw [hview]
      exact beq_false_of_ne (hended.only t ht)
  show (peek (ts ++ [eof]) >>= fun t => pure (t.kind == .eof)) w = _
  rw [bind_ok (peek_eq h), hkind]
  rfl

theorem check_eq (hended : Ended ts eof) (h : w.current ≤ ts.length) {kind : Kind} (hkind : kind ≠ .eof) :
    check (ts ++ [eof]) kind w = .ok ((w.view ts eof).isAt kind) w := by
  have hother : (kind == .eof) = false := beq_false_of_ne hkind
  unfold check
  rw [bind_ok (isAtEnd_eq hended h)]
  rcases view_cases h with ⟨-, hview⟩ | ⟨t, ht, -, hview⟩
  · rw [hview, hother]
    rfl
  · have hnext : (w.view ts eof).atEnd = false := by rw [hview]; rfl
    rw [hnext, if_neg Bool.false_ne_true, bind_ok (peek_eq h), hview]
    rfl

theorem previous_eq {index : Nat} {t : Token} (hcurrent : w.current = index + 1) (ht : ts[index]? = some t) :
    previous (ts ++ [eof]) w = .ok t w := by
  have hget : (get : Walk Position) w = .ok w w := rfl
  rw [previous, bind_ok hget, hcurrent]
  exact tokenAt_of_mem ht

/-- Behind a token that was taken, it is the previous one. -/
theorem advance_eq (hended : Ended ts eof) {t : Token} (ht : ts[w.current]? = some t) :
    advance (ts ++ [eof]) w = .ok t w.next := by
  have hlt := (List.getElem?_eq_some_iff.mp ht).1
  have hnext : (w.view ts eof).atEnd = false := by
    rw [Position.view, List.drop_eq_getElem_cons hlt]
    rfl
  have hmove : moveTo (ts ++ [eof]) (w.current + 1) w = .ok () w.next := by
    have hthere : ∃ u, tokenAt (ts ++ [eof]) (w.current + 1) w = .ok u w := by
      rcases Nat.lt_or_eq_of_le hlt with hinside | hend
      · exact ⟨_, tokenAt_of_mem (List.getElem?_eq_getElem hinside)⟩
      · exact ⟨_, (congrArg (fun index => tokenAt (ts ++ [eof]) index w) hend).trans tokenAt_length⟩
    obtain ⟨u, hu⟩ := hthere
    rw [moveTo, bind_ok hu]
    rfl
  unfold advance
  rw [bind_ok (isAtEnd_eq hended hlt.le), hnext]
  show (moveTo (ts ++ [eof]) (w.current + 1) >>= fun _ => previous (ts ++ [eof])) w = _
  rw [bind_ok hmove]
  exact previous_eq rfl ht

/-- At the end nothing moves, and there is a previous token unless the list has only the one that marks the end. -/
theorem advance_atEnd (hended : Ended ts eof) (hend : w.current = ts.length) (hpos : 0 < ts.length) :
    ∃ t, advance (ts ++ [eof]) w = .ok t w := by
  have hat : (w.view ts eof).atEnd = true := by
    rw [Position.view, hend, List.drop_length]
    rfl
  obtain ⟨index, hindex⟩ : ∃ index, w.current = index + 1 := Nat.exists_eq_succ_of_ne_zero (by omega)
  have hlt : index < ts.length := by omega
  refine ⟨ts[index], ?_⟩
  unfold advance
  rw [bind_ok (isAtEnd_eq hended hend.le), hat]
  exact previous_eq hindex (List.getElem?_eq_getElem hlt)

theorem check_of_getElem? (hended : Ended ts eof) {t : Token} (ht : ts[w.current]? = some t) {kind : Kind}
    (hkind : kind ≠ .eof) : check (ts ++ [eof]) kind w = .ok (t.kind == kind) w := by
  have hlt := (List.getElem?_eq_some_iff.mp ht).1
  rw [check_eq hended hlt.le hkind]
  rcases view_cases hlt.le with ⟨hend, -⟩ | ⟨u, -, hu, hview⟩
  · omega
  · obtain rfl : t = u := Option.some.inj (ht.symm.trans hu)
    rw [hview]
    rfl

theorem check_of_unwanted (hended : Ended ts eof) (h : w.current ≤ ts.length) {kind : Kind} (hkind : kind ≠ .eof)
    (hunwanted : ∀ t, ts[w.current]? = some t → t.kind ≠ kind) : check (ts ++ [eof]) kind w = .ok false w := by
  rcases view_cases h with ⟨-, hview⟩ | ⟨t, -, ht, -⟩
  · rw [check_eq hended h hkind, hview]
    rfl
  · rw [check_of_getElem? hended ht hkind, beq_false_of_ne (hunwanted t ht)]

theorem accept_of_unwanted (hended : Ended ts eof) (h : w.current ≤ ts.length) {kinds : List Kind}
    (heof : .eof ∉ kinds) (hunwanted : ∀ t, ts[w.current]? = some t → t.kind ∉ kinds) :
    accept (ts ++ [eof]) kinds w = .ok none w := by
  induction kinds with
  | nil => rfl
  | cons kind kinds ih =>
    simp only [List.mem_cons, not_or] at heof hunwanted
    unfold accept
    rw [bind_ok (check_of_unwanted hended h (Ne.symm heof.1) fun t ht => (hunwanted t ht).1)]
    exact ih heof.2 fun t ht => (hunwanted t ht).2

theorem accept_of_wanted (hended : Ended ts eof) {t : Token} (ht : ts[w.current]? = some t) {kinds : List Kind}
    (heof : .eof ∉ kinds) (hwanted : t.kind ∈ kinds) : accept (ts ++ [eof]) kinds w = .ok (some t) w.next := by
  induction kinds with
  | nil => cases hwanted
  | cons kind kinds ih =>
    rw [List.mem_cons, not_or] at heof
    unfold accept
    rw [bind_ok (check_of_getElem? hended ht (Ne.symm heof.1))]
    by_cases hkind : t.kind = kind
    · rw [beq_iff_eq.mpr hkind, if_pos rfl, bind_ok (advance_eq hended ht)]
      rfl
    · rw [beq_false_of_ne hkind]
      exact ih heof.2 ((List.mem_cons.mp hwanted).resolve_left hkind)

theorem choose_of_unwanted (hended : Ended ts eof) (h : w.current ≤ ts.length) (otherwise : Walk α)
    {cases : List (Kind × (Token → Walk α))} (heof : .eof ∉ cases.map Prod.fst)
    (hunwanted : ∀ t, ts[w.current]? = some t → t.kind ∉ cases.map Prod.fst) :
    choose (ts ++ [eof]) otherwise cases w = otherwise w := by
  induction cases with
  | nil => rfl
  | cons entry cases ih =>
    simp only [List.map_cons, List.mem_cons, not_or] at heof hunwanted
    have hnone : accept (ts ++ [eof]) [entry.1] w = .ok none w :=
      accept_of_unwanted hended h (by simpa using heof.1) fun t ht => by simpa using (hunwanted t ht).1
    unfold choose
    rw [bind_ok hnone]
    exact ih heof.2 fun t ht => (hunwanted t ht).2

theorem choose_of_wanted (hended : Ended ts eof) {t : Token} (ht : ts[w.current]? = some t) (otherwise : Walk α)
    {cases : List (Kind × (Token → Walk α))} (heof : .eof ∉ cases.map Prod.fst)
    (hwanted : t.kind ∈ cases.map Prod.fst) :
    ∃ entry ∈ cases, t.kind = entry.1 ∧ choose (ts ++ [eof]) otherwise cases w = entry.2 t w.next := by
  have hlt := (List.getElem?_eq_some_iff.mp ht).1
  induction cases with
  | nil => cases hwanted
  | cons entry cases ih =>
    simp only [List.map_cons, List.mem_cons, not_or] at heof hwanted
    unfold choose
    by_cases hkind : t.kind = entry.1
    · refine ⟨entry, List.mem_cons_self, hkind, ?_⟩
      rw [bind_ok (accept_of_wanted hended ht (by simpa using heof.1) (by simpa using hkind))]
    · have hnone : accept (ts ++ [eof]) [entry.1] w = .ok none w := by
        apply accept_of_unwanted hended hlt.le (by simpa using heof.1)
        intro u hu
        obtain rfl : t = u := Option.some.inj (ht.symm.trans hu)
        simpa using hkind
      obtain ⟨found, hmem, hfound, hrun⟩ := ih heof.2 (hwanted.resolve_left hkind)
      refine ⟨found, List.mem_cons_of_mem _ hmem, hfound, ?_⟩
      rw [bind_ok hnone]
      exact hrun

/-! ### Tracking -/

/-- A walk from a place ends as the parser does that sees the tokens from there on. It stays inside the list, and if it
does not panic it has taken `k` tokens at least. -/
inductive Ends (ts : List Token) (eof : Token) (k : Nat) (w : Position) :
    EStateM.Result Halt Position α → EStateM.Result Panic Cursor α → Prop
  | ok (a : α) {w' : Position} (htaken : w.current + k ≤ w'.current) (hinside : w'.current ≤ ts.length) :
      Ends ts eof k w (.ok a w') (.ok a (w'.view ts eof))
  | panicked {w' : Position} (hkept : w.current ≤ w'.current) (hinside : w'.current ≤ ts.length) :
      Ends ts eof k w (.error .panic w') (.error .panic (w'.view ts eof))

/-- The same end, seen from a place before. -/
theorem Ends.from_before {k k' j : Nat} {r : EStateM.Result Halt Position α} {r' : EStateM.Result Panic Cursor α}
    (h : Ends ts eof k w' r r') (hbefore : w.current + j ≤ w'.current) (hk : k' ≤ j + k) : Ends ts eof k' w r r' := by
  cases h with
  | ok a htaken hinside => exact .ok a (by omega) hinside
  | panicked hkept hinside => exact .panicked (by omega) hinside

/-- The walk does what the parser does, wherever fewer than `m` tokens are left, and takes `k` of them at least. -/
def Tracks (ts : List Token) (eof : Token) (m k : Nat) (q : Walk α) (p : Parser α) : Prop :=
  ∀ w : Position, w.current ≤ ts.length → ts.length < w.current + m → Ends ts eof k w (q w) (p (w.view ts eof))

/-- The kinds that are wanted. The one of the token that marks an end is not among them. -/
structure Lists (wanted : Kind → Bool) (kinds : List Kind) : Prop where
  mem_iff : ∀ kind, wanted kind = true ↔ kind ∈ kinds
  eof : .eof ∉ kinds

theorem Lists.one (kind : Kind) (h : kind ≠ .eof) : Lists (· == kind) [kind] where
  mem_iff other := by rw [beq_iff_eq, List.mem_singleton]
  eof := fun hmem => h (List.mem_singleton.mp hmem).symm

theorem Lists.not_mem {wanted : Kind → Bool} {kinds : List Kind} (h : Lists wanted kinds) {kind : Kind}
    (hunwanted : wanted kind = false) : kind ∉ kinds := by
  rw [← h.mem_iff, hunwanted]
  exact Bool.false_ne_true

namespace Tracks

variable {m m' k k' : Nat} {q : Walk α} {p : Parser α} {g : α → Walk β} {f : α → Parser β}

theorem mono (h : Tracks ts eof m k q p) (hm : m' ≤ m) (hk : k' ≤ k) : Tracks ts eof m' k' q p := by
  intro w hw hleft
  exact (h w hw (by omega)).from_before (j := 0) le_rfl (by omega)

/-- It may not matter how many tokens are taken. -/
theorem loose (h : Tracks ts eof m k q p) (hm : m' ≤ m) : Tracks ts eof m' 0 q p := h.mono hm (Nat.zero_le k)

/-- There are never fewer than no tokens left. -/
theorem zero : Tracks ts eof 0 k q p := by
  intro w hw hleft
  omega

theorem pure (a : α) : Tracks ts eof m 0 (Pure.pure a) (Pure.pure a) := fun _ hw _ => .ok a le_rfl hw

theorem bind_add (hq : Tracks ts eof m k q p) (hg : ∀ a, Tracks ts eof (m - k) k' (g a) (f a)) :
    Tracks ts eof m (k + k') (q >>= g) (p >>= f) := by
  intro w hw hleft
  generalize hwalk : q w = r
  generalize hparse : p (w.view ts eof) = r'
  have hfirst := hq w hw hleft
  rw [hwalk, hparse] at hfirst
  cases hfirst with
  | @ok a w' htaken hinside =>
    rw [bind_ok hwalk, Grammar.bind_ok hparse]
    exact (hg a w' hinside (by omega)).from_before htaken le_rfl
  | panicked hkept hinside =>
    rw [bind_error hwalk, Grammar.bind_error hparse]
    exact .panicked hkept hinside

/-- One walk and another one behind it, when it is enough to know what the first takes. -/
theorem bind (hq : Tracks ts eof m k q p) (hg : ∀ a, Tracks ts eof (m - k) 0 (g a) (f a)) :
    Tracks ts eof m k (q >>= g) (p >>= f) :=
  hq.bind_add hg

/-- One walk and another one behind it, when it is enough to know what the second takes. -/
theorem bind_zero (hq : Tracks ts eof m 0 q p) (hg : ∀ a, Tracks ts eof m k (g a) (f a)) :
    Tracks ts eof m k (q >>= g) (p >>= f) :=
  (hq.bind_add hg).mono le_rfl (Nat.zero_add k).ge

theorem report (t : Token) (complaint : Complaint) :
    Tracks ts eof m 0 (Walk.report t complaint) (Grammar.report t complaint) :=
  fun _ hw _ => .ok () le_rfl hw

/-- Both look at the same token. -/
theorem peek {g : Token → Walk β} {f : Cursor → Parser β} (h : ∀ c, Tracks ts eof m k (g c.peek) (f c)) :
    Tracks ts eof m k (Walk.peek (ts ++ [eof]) >>= g) (get >>= f) := by
  intro w hw hleft
  rw [bind_ok (peek_eq hw)]
  exact h (w.view ts eof) w hw hleft

theorem fail (complaint : Complaint) :
    Tracks ts eof m k (Walk.fail (ts ++ [eof]) complaint : Walk α) (Grammar.fail complaint) :=
  peek fun _ _ hw _ => .panicked le_rfl hw

theorem check (hended : Ended ts eof) (kind : Kind) (hkind : kind ≠ .eof) :
    Tracks ts eof m 0 (Walk.check (ts ++ [eof]) kind) (isAt kind) := by
  intro w hw _
  rw [check_eq hended hw hkind]
  exact .ok _ le_rfl hw

/-- What is done at a place depends on whether a token of a wanted kind is next, and such a token is taken. -/
theorem of_take? {wanted : Kind → Bool} {q : Walk β} {f : Option Token → Parser β}
    (hsome : ∀ w t, ts[w.current]? = some t → wanted t.kind = true →
      ∃ g : Walk β, q w = g w.next ∧ Tracks ts eof (m - 1) (k - 1) g (f (some t)))
    (hnone : ∀ w : Position, w.current ≤ ts.length → (∀ t, ts[w.current]? = some t → wanted t.kind = false) →
      ∃ g : Walk β, q w = g w ∧ Tracks ts eof m k g (f none)) :
    Tracks ts eof m k q (take? wanted >>= f) := by
  intro w hw hleft
  rcases unwanted_or_cons wanted (ts.drop w.current) with hunwanted | ⟨t, after, hrest, hwanted⟩
  · have htake : take? wanted (w.view ts eof) = .ok none (w.view ts eof) := take?_unwanted hunwanted
    rw [Unwanted, List.head?_drop] at hunwanted
    obtain ⟨g, hg, htracks⟩ := hnone w hw hunwanted
    rw [hg, Grammar.bind_ok htake]
    exact htracks w hw hleft
  · have ht : ts[w.current]? = some t := by rw [← List.head?_drop, hrest, List.head?_cons]
    have hafter : after = ts.drop (w.current + 1) := by rw [← List.tail_drop, hrest, List.tail_cons]
    have htake : take? wanted (w.view ts eof) = .ok (some t) (w.next.view ts eof) := by
      rw [Position.view, hrest, take?_wanted hwanted, hafter]
      rfl
    obtain ⟨g, hg, htracks⟩ := hsome w t ht hwanted
    have hlt := (List.getElem?_eq_some_iff.mp ht).1
    have hleft' : ts.length < w.next.current + (m - 1) := by
      show ts.length < w.current + 1 + (m - 1)
      omega
    rw [hg, Grammar.bind_ok htake]
    exact (htracks w.next hlt hleft').from_before (j := 1) le_rfl (by omega)

theorem accept (hended : Ended ts eof) {wanted : Kind → Bool} {kinds : List Kind} {g : Option Token → Walk β}
    {f : Option Token → Parser β} (hkinds : Lists wanted kinds)
    (hsome : ∀ t, Tracks ts eof (m - 1) (k - 1) (g (some t)) (f (some t)))
    (hnone : Tracks ts eof m k (g none) (f none)) :
    Tracks ts eof m k (Walk.accept (ts ++ [eof]) kinds >>= g) (take? wanted >>= f) := by
  apply of_take?
  · intro w t ht hwanted
    have haccept := accept_of_wanted hended ht hkinds.eof ((hkinds.mem_iff t.kind).mp hwanted)
    exact ⟨g (some t), bind_ok haccept, hsome t⟩
  · intro w hw hunwanted
    have haccept := accept_of_unwanted hended hw hkinds.eof fun t ht => hkinds.not_mem (hunwanted t ht)
    exact ⟨g none, bind_ok haccept, hnone⟩

/-- The kinds that are tried one after the other are those that are wanted. -/
theorem choose (hended : Ended ts eof) {wanted : Kind → Bool} {cases : List (Kind × (Token → Walk β))}
    {otherwise : Walk β} {f : Option Token → Parser β} (hkinds : Lists wanted (cases.map Prod.fst))
    (hsome : ∀ entry ∈ cases, ∀ t : Token, t.kind = entry.1 →
      Tracks ts eof (m - 1) (k - 1) (entry.2 t) (f (some t)))
    (hnone : Tracks ts eof m k otherwise (f none)) :
    Tracks ts eof m k (Walk.choose (ts ++ [eof]) otherwise cases) (take? wanted >>= f) := by
  apply of_take?
  · intro w t ht hwanted
    obtain ⟨entry, hmem, hkind, hrun⟩ :=
      choose_of_wanted hended ht otherwise hkinds.eof ((hkinds.mem_iff t.kind).mp hwanted)
    exact ⟨entry.2 t, hrun, hsome entry hmem t hkind⟩
  · intro w hw hunwanted
    have hchoose := choose_of_unwanted hended hw otherwise hkinds.eof fun t ht => hkinds.not_mem (hunwanted t ht)
    exact ⟨otherwise, hchoose, hnone⟩

theorem expect (hended : Ended ts eof) (kind : Kind) (hkind : kind ≠ .eof) (what : String) :
    Tracks ts eof m 1 (Walk.expect (ts ++ [eof]) kind what) (Grammar.expect kind what) := by
  apply of_take?
  · intro w t ht hwanted
    have hcheck : Walk.check (ts ++ [eof]) kind w = .ok true w := by
      rw [check_of_getElem? hended ht hkind, hwanted]
    refine ⟨Pure.pure t, ?_, Tracks.pure t⟩
    rw [Walk.expect, bind_ok hcheck]
    exact advance_eq hended ht
  · intro w hw hunwanted
    have hcheck : Walk.check (ts ++ [eof]) kind w = .ok false w :=
      check_of_unwanted hended hw hkind fun t ht => by simpa using hunwanted t ht
    refine ⟨Walk.fail (ts ++ [eof]) (.expected what), ?_, .fail _⟩
    rw [Walk.expect, bind_ok hcheck]
    rfl

theorem expect_loose (hended : Ended ts eof) (kind : Kind) (hkind : kind ≠ .eof) (what : String) :
    Tracks ts eof m 0 (Walk.expect (ts ++ [eof]) kind what) (Grammar.expect kind what) :=
  (expect hended kind hkind what).loose le_rfl

end Tracks

end Walk

end LoxLang.Grammar
