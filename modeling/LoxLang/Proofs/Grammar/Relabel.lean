import LoxLang.Proofs.Eval.Likeness
import LoxLang.Proofs.Grammar.Exact
/-!
# Derivations on other lines

The grammar looks at the kinds of tokens and at the values of literals, never at lines. So if a list
of tokens is derived, the same tokens on other lines are derived too, and the two trees are of one
shape, with the tokens of the second in the places of the first.
-/

namespace LoxLang

open Grammar

variable {R : Token → Token → Prop}

/-! ### Related lists -/

section

variable {α β : Type} {V : α → β → Prop}

theorem forall₂_cons_left {x : α} {xs : List α} {zs : List β} (h : List.Forall₂ V (x :: xs) zs) :
    ∃ x' xs', zs = x' :: xs' ∧ V x x' ∧ List.Forall₂ V xs xs' := by
  cases h with
  | cons hx hxs => exact ⟨_, _, rfl, hx, hxs⟩

theorem forall₂_append_left {xs ys : List α} {zs : List β} (h : List.Forall₂ V (xs ++ ys) zs) :
    ∃ xs' ys', zs = xs' ++ ys' ∧ List.Forall₂ V xs xs' ∧ List.Forall₂ V ys ys' := by
  induction xs generalizing zs with
  | nil => exact ⟨[], zs, rfl, .nil, h⟩
  | cons x xs ih =>
    cases h with
    | cons hx hrest =>
      obtain ⟨xs', ys', rfl, hxs, hys⟩ := ih hrest
      exact ⟨_ :: xs', ys', rfl, .cons hx hxs, hys⟩

theorem forall₂_one_left {x : α} {zs : List β} (h : List.Forall₂ V [x] zs) : ∃ x', zs = [x'] ∧ V x x' := by
  obtain ⟨x', _, rfl, hx, hnil⟩ := forall₂_cons_left h
  cases hnil
  exact ⟨x', rfl, hx⟩

theorem forall₂_snoc_left {xs : List α} {x : α} {zs : List β} (h : List.Forall₂ V (xs ++ [x]) zs) :
    ∃ xs' x', zs = xs' ++ [x'] ∧ List.Forall₂ V xs xs' ∧ V x x' := by
  obtain ⟨xs', ys', rfl, hxs, hys⟩ := forall₂_append_left h
  obtain ⟨x', rfl, hx⟩ := forall₂_one_left hys
  exact ⟨xs', x', rfl, hxs, hx⟩

/-- A list of tokens that falls into pieces, on other lines: the pieces are found again one by one. -/
theorem forall₂_flatMap_left {tokens : α → List Token} {P : α → α → Prop} {xs : List α} {ts : List Token}
    (hpieces : ∀ x ∈ xs, ∀ us, List.Forall₂ R (tokens x) us → ∃ x', tokens x' = us ∧ P x x')
    (h : List.Forall₂ R (xs.flatMap tokens) ts) : ∃ xs', ts = xs'.flatMap tokens ∧ List.Forall₂ P xs xs' := by
  induction xs generalizing ts with
  | nil =>
    cases h
    exact ⟨[], rfl, .nil⟩
  | cons x xs ih =>
    obtain ⟨hfirst, hrest⟩ := List.forall_mem_cons.mp hpieces
    rw [List.flatMap_cons] at h
    obtain ⟨us, vs, rfl, hus, hvs⟩ := forall₂_append_left h
    obtain ⟨x', rfl, hx⟩ := hfirst us hus
    obtain ⟨xs', rfl, hxs⟩ := ih hrest hvs
    exact ⟨x' :: xs', rfl, .cons hx hxs⟩

end

theorem Token.Relabels.literal {t t' : Token} (hR : Relabels R) (h : R t t') : t.literal = t'.literal := by
  have hliteral : t.bare.literal = t'.bare.literal := congrArg Token.literal (hR t t' h)
  exact hliteral

namespace Grammar

/-! ### Phrases -/

/-- The second phrase is derived, and its tree is like that of the first. -/
structure Relabelled (R : Token → Token → Prop) (P : List Token → Node → Prop) (x x' : Phrase Node) : Prop where
  derives : P x'.tokens x'.tree
  like : x.tree.Like R x'.tree

theorem Relabelled.trees {P : List Token → Node → Prop} {items items' : List (Phrase Node)}
    (h : List.Forall₂ (Relabelled R P) items items') :
    List.Forall₂ (Node.Like R) (items.map Phrase.tree) (items'.map Phrase.tree) := by
  rw [List.forall₂_map_left_iff, List.forall₂_map_right_iff]
  exact h.imp fun _ _ h => h.like

theorem Relabelled.forall_derives {P : List Token → Node → Prop} {items items' : List (Phrase Node)}
    (h : List.Forall₂ (Relabelled R P) items items') : ∀ x ∈ items', P x.tokens x.tree := by
  induction h with
  | nil => exact List.forall_mem_nil _
  | cons hx _ ih => exact List.forall_mem_cons.mpr ⟨hx.derives, ih⟩

variable {P : List Token → Node → Prop} {items : List (Phrase Node)}
  (hitems : ∀ x ∈ items, ∀ us, List.Forall₂ R x.tokens us → ∃ e, P us e ∧ x.tree.Like R e)

include hitems

theorem relabel_phrases {ts : List Token} (h : List.Forall₂ R (items.flatMap Phrase.tokens) ts) :
    ∃ items' : List (Phrase Node), ts = items'.flatMap Phrase.tokens ∧ List.Forall₂ (Relabelled R P) items items' := by
  apply forall₂_flatMap_left _ h
  intro x hx us hus
  obtain ⟨e, he, hlike⟩ := hitems x hx us hus
  exact ⟨⟨us, e⟩, rfl, he, hlike⟩

omit hitems in
theorem Separated.relabel (hR : Token.Relabels R) {pieces : List (List Token)} {ts ts' : List Token}
    (h : Separated pieces ts) (hts : List.Forall₂ R ts ts') :
    ∃ pieces', Separated pieces' ts' ∧ List.Forall₂ (List.Forall₂ R) pieces pieces' := by
  induction h generalizing ts' with
  | none =>
    cases hts
    exact ⟨[], .none, .nil⟩
  | one piece => exact ⟨[ts'], .one ts', .cons hts .nil⟩
  | more hcomma hrest ih =>
    obtain ⟨piece', rest', rfl, hpiece, hrest'⟩ := forall₂_append_left hts
    obtain ⟨comma', rest', rfl, htcomma, hmore⟩ := forall₂_cons_left hrest'
    obtain ⟨_, hseparated, hpieces⟩ := ih hmore
    obtain ⟨next', pieces', rfl, hnext, hlater⟩ := forall₂_cons_left hpieces
    exact ⟨_, .more ((hR.kind htcomma).symm.trans hcomma) hseparated, .cons hpiece (.cons hnext hlater)⟩

theorem relabel_separated (hR : Token.Relabels R) {ts ts' : List Token} (h : Separated (items.map Phrase.tokens) ts)
    (hts : List.Forall₂ R ts ts') : ∃ items' : List (Phrase Node), Separated (items'.map Phrase.tokens) ts' ∧
      List.Forall₂ (Relabelled R P) items items' := by
  obtain ⟨pieces', hseparated, hpieces⟩ := h.relabel hR hts
  rw [List.forall₂_map_left_iff] at hpieces
  suffices hfound : ∃ items' : List (Phrase Node), items'.map Phrase.tokens = pieces' ∧
      List.Forall₂ (Relabelled R P) items items' by
    obtain ⟨items', rfl, hitems'⟩ := hfound
    exact ⟨items', hseparated, hitems'⟩
  clear h hseparated
  induction hpieces with
  | nil => exact ⟨[], rfl, .nil⟩
  | cons hpiece _ ih =>
    obtain ⟨hfirst, hrest⟩ := List.forall_mem_cons.mp hitems
    obtain ⟨e, he, hlike⟩ := hfirst _ hpiece
    obtain ⟨items', rfl, hitems'⟩ := ih hrest
    exact ⟨⟨_, e⟩ :: items', rfl, .cons ⟨he, hlike⟩ hitems'⟩

omit hitems

/-! ### Expressions -/

theorem like_operations (l : Operation) {first first' : Node} {tail tail' : List Operand} (hfirst : first.Like R first')
    (htail : List.Forall₂ (fun x x' => R x.operator x'.operator ∧ x.right.tree.Like R x'.right.tree) tail tail') :
    (tail.foldl (Operand.onto l) first).Like R (tail'.foldl (Operand.onto l) first') := by
  induction htail generalizing first first' with
  | nil => exact hfirst
  | cons hx _ ih =>
    apply ih
    cases l with
    | disjunction | conjunction => exact .logical hfirst (.token hx.1) hx.2
    | _ => exact .binary hfirst (.token hx.1) hx.2

theorem like_calls {callee callee' : Node} {tail tail' : List Arguments} (hcallee : callee.Like R callee')
    (htail : List.Forall₂ (fun x x' => R x.closing x'.closing ∧
      List.Forall₂ (Node.Like R) (x.items.map Phrase.tree) (x'.items.map Phrase.tree)) tail tail') :
    (tail.foldl Arguments.onto callee).Like R (tail'.foldl Arguments.onto callee') := by
  induction htail generalizing callee callee' with
  | nil => exact hcallee
  | cons hx _ ih => exact ih (.call hcallee (.token hx.1) hx.2)

theorem forall₂_mem_right {α β : Type} {V : α → β → Prop} {xs : List α} {ys : List β} (h : List.Forall₂ V xs ys) {y : β}
    (hy : y ∈ ys) : ∃ x ∈ xs, V x y := by
  induction h with
  | nil => cases hy
  | cons hx _ ih =>
    rcases List.mem_cons.mp hy with rfl | hmem
    · exact ⟨_, List.mem_cons_self, hx⟩
    · obtain ⟨x, hmem, hx⟩ := ih hmem
      exact ⟨x, List.mem_cons_of_mem _ hmem, hx⟩

theorem Derives.relabel (hR : Token.Relabels R) {l : Level} {ts ts' : List Token} {e : Node} (h : Derives l ts e)
    (hts : List.Forall₂ R ts ts') : ∃ e', Derives l ts' e' ∧ e.Like R e' := by
  have hkind {t t' : Token} (ht : R t t') {kind : Kind} (h : t.kind = kind) : t'.kind = kind :=
    (hR.kind ht).symm.trans h
  induction h generalizing ts' with
  | assign hname hequals _ ih =>
    obtain ⟨name', _, rfl, htname, hts⟩ := forall₂_cons_left hts
    obtain ⟨equals', _, rfl, htequals, hts⟩ := forall₂_cons_left hts
    obtain ⟨value', hvalue, hlike⟩ := ih hts
    exact ⟨_, .assign (hkind htname hname) (hkind htequals hequals) hvalue, .assign (.token htname) hlike⟩
  | noAssign _ ih =>
    obtain ⟨e', he, hlike⟩ := ih hts
    exact ⟨e', .noAssign he, hlike⟩
  | @operation l _ _ tail _ hoperators _ ihfirst ihtail =>
    obtain ⟨us, vs, rfl, hus, hvs⟩ := forall₂_append_left hts
    obtain ⟨first', hfirst, hlike⟩ := ihfirst hus
    have hpieces : ∀ x ∈ tail, ∀ us, List.Forall₂ R x.tokens us → ∃ x' : Operand, x'.tokens = us ∧
        (x'.operator.kind ∈ l.operators ∧ Derives l.operand x'.right.tokens x'.right.tree) ∧
        R x.operator x'.operator ∧ x.right.tree.Like R x'.right.tree := by
      intro x hx us hus
      obtain ⟨operator', us, rfl, hoperator, hright⟩ := forall₂_cons_left hus
      obtain ⟨e', he, hlike⟩ := ihtail x hx hright
      exact ⟨⟨operator', us, e'⟩, rfl, ⟨hR.kind hoperator ▸ hoperators x hx, he⟩, hoperator, hlike⟩
    obtain ⟨tail', rfl, htail⟩ := forall₂_flatMap_left hpieces hvs
    have hright : ∀ x ∈ tail', x.operator.kind ∈ l.operators ∧ Derives l.operand x.right.tokens x.right.tree := by
      intro x hx
      obtain ⟨_, _, hgood, -⟩ := forall₂_mem_right htail hx
      exact hgood
    refine ⟨_, .operation tail' hfirst (fun x hx => (hright x hx).1) (fun x hx => (hright x hx).2), ?_⟩
    exact like_operations l hlike (htail.imp fun _ _ h => h.2)
  | sign ht _ ih =>
    obtain ⟨t', _, rfl, htoken, hts⟩ := forall₂_cons_left hts
    obtain ⟨e', he, hlike⟩ := ih hts
    exact ⟨_, .sign (hR.kind htoken ▸ ht) he, .unary (.token htoken) hlike⟩
  | noSign _ ih =>
    obtain ⟨e', he, hlike⟩ := ih hts
    exact ⟨e', .noSign he, hlike⟩
  | @call _ _ tail _ henclosed _ ihcallee ihitems =>
    obtain ⟨us, vs, rfl, hus, hvs⟩ := forall₂_append_left hts
    obtain ⟨callee', hcallee, hlike⟩ := ihcallee hus
    have hpieces : ∀ x ∈ tail, ∀ us, List.Forall₂ R x.tokens us → ∃ x' : Arguments, x'.tokens = us ∧
        (x'.Enclosed ∧ ∀ item ∈ x'.items, Derives .assignment item.tokens item.tree) ∧
        R x.closing x'.closing ∧ List.Forall₂ (Node.Like R) (x.items.map Phrase.tree) (x'.items.map Phrase.tree) := by
      intro x hx us hus
      have henclosed := henclosed x hx
      obtain ⟨us, closing', rfl, hus, hclosing⟩ := forall₂_snoc_left hus
      obtain ⟨opening', inside', rfl, hopening, hinside⟩ := forall₂_cons_left hus
      obtain ⟨items', hseparated, hitems⟩ :=
        relabel_separated (fun item hitem _ h => ihitems x hx item hitem h) hR henclosed.separated hinside
      have hwithin : items'.length ≤ mostItems := hitems.length_eq ▸ henclosed.within
      have henclosed' : Arguments.Enclosed ⟨opening', items', inside', closing'⟩ :=
        ⟨hkind hopening henclosed.opening, hkind hclosing henclosed.closing, hseparated, hwithin⟩
      exact ⟨_, rfl, ⟨henclosed', Relabelled.forall_derives hitems⟩, hclosing, Relabelled.trees hitems⟩
    obtain ⟨tail', rfl, htail⟩ := forall₂_flatMap_left hpieces hvs
    have harguments : ∀ x ∈ tail', x.Enclosed ∧ ∀ item ∈ x.items, Derives .assignment item.tokens item.tree := by
      intro x hx
      obtain ⟨_, _, hgood, -⟩ := forall₂_mem_right htail hx
      exact hgood
    refine ⟨_, .call tail' hcallee (fun x hx => (harguments x hx).1) (fun x hx => (harguments x hx).2), ?_⟩
    exact like_calls hlike (htail.imp fun _ _ h => h.2)
  | value ht =>
    obtain ⟨t', rfl, htoken⟩ := forall₂_one_left hts
    refine ⟨_, .value (hR.kind htoken ▸ ht), ?_⟩
    rw [hR.literal htoken]
    exact .literal _
  | yes ht =>
    obtain ⟨t', rfl, htoken⟩ := forall₂_one_left hts
    exact ⟨_, .yes (hkind htoken ht), .literal _⟩
  | no ht =>
    obtain ⟨t', rfl, htoken⟩ := forall₂_one_left hts
    exact ⟨_, .no (hkind htoken ht), .literal _⟩
  | nil ht =>
    obtain ⟨t', rfl, htoken⟩ := forall₂_one_left hts
    exact ⟨_, .nil (hkind htoken ht), .literal _⟩
  | name ht =>
    obtain ⟨t', rfl, htoken⟩ := forall₂_one_left hts
    exact ⟨_, .name (hkind htoken ht), .reference (.token htoken)⟩
  | grouping hopening hclosing _ ih =>
    obtain ⟨us, closing', rfl, hus, htclosing⟩ := forall₂_snoc_left hts
    obtain ⟨opening', us, rfl, htopening, hus⟩ := forall₂_cons_left hus
    obtain ⟨e', he, hlike⟩ := ih hus
    exact ⟨_, .grouping (hkind htopening hopening) (hkind htclosing hclosing) he, .grouping hlike⟩

/-! ### Statements -/

theorem DerivesOptional.relabel (hR : Token.Relabels R) {ts ts' : List Token} {value : Option Node}
    (h : DerivesOptional ts value)
    (hts : List.Forall₂ R ts ts') : ∃ value', DerivesOptional ts' value' ∧ Option.Rel (Node.Like R) value value' := by
  cases h with
  | none =>
    cases hts
    exact ⟨_, .none, .none⟩
  | some h =>
    obtain ⟨e', he, hlike⟩ := h.relabel hR hts
    exact ⟨_, .some he, .some hlike⟩

theorem DerivesVariable.relabel (hR : Token.Relabels R) {ts ts' : List Token} {s : Node} (h : DerivesVariable ts s)
    (hts : List.Forall₂ R ts ts') : ∃ s', DerivesVariable ts' s' ∧ s.Like R s' := by
  have hkind {t t' : Token} (ht : R t t') {kind : Kind} (h : t.kind = kind) : t'.kind = kind :=
    (hR.kind ht).symm.trans h
  cases h with
  | bare hname hsemicolon =>
    obtain ⟨name', _, rfl, htname, hts⟩ := forall₂_cons_left hts
    obtain ⟨semicolon', rfl, htsemicolon⟩ := forall₂_one_left hts
    exact ⟨_, .bare (hkind htname hname) (hkind htsemicolon hsemicolon), .var (.token htname) .null⟩
  | initial hname hequals h hsemicolon =>
    obtain ⟨us, semicolon', rfl, hus, htsemicolon⟩ := forall₂_snoc_left hts
    obtain ⟨name', us, rfl, htname, hus⟩ := forall₂_cons_left hus
    obtain ⟨equals', us, rfl, htequals, hus⟩ := forall₂_cons_left hus
    obtain ⟨e', he, hlike⟩ := h.relabel hR hus
    exact ⟨_, .initial (hkind htname hname) (hkind htequals hequals) he (hkind htsemicolon hsemicolon),
      .var (.token htname) hlike⟩

theorem DerivesInitial.relabel (hR : Token.Relabels R) {ts ts' : List Token} {initial : Option Node}
    (h : DerivesInitial ts initial) (hts : List.Forall₂ R ts ts') :
    ∃ initial', DerivesInitial ts' initial' ∧ Option.Rel (Node.Like R) initial initial' := by
  have hkind {t t' : Token} (ht : R t t') {kind : Kind} (h : t.kind = kind) : t'.kind = kind :=
    (hR.kind ht).symm.trans h
  cases h with
  | none hsemicolon =>
    obtain ⟨semicolon', rfl, htsemicolon⟩ := forall₂_one_left hts
    exact ⟨_, .none (hkind htsemicolon hsemicolon), .none⟩
  | var hkeyword h =>
    obtain ⟨keyword', us, rfl, htkeyword, hus⟩ := forall₂_cons_left hts
    obtain ⟨s', hs, hlike⟩ := h.relabel hR hus
    exact ⟨_, .var (hkind htkeyword hkeyword) hs, .some hlike⟩
  | expression h hsemicolon =>
    obtain ⟨us, semicolon', rfl, hus, htsemicolon⟩ := forall₂_snoc_left hts
    obtain ⟨e', he, hlike⟩ := h.relabel hR hus
    exact ⟨_, .expression he (hkind htsemicolon hsemicolon), .some (.expression hlike)⟩

theorem like_forLoop {condition condition' increment increment' : Option Node} {body body' : Node}
    (hcondition : Option.Rel (Node.Like R) condition condition')
    (hincrement : Option.Rel (Node.Like R) increment increment')
    (hbody : body.Like R body') : (forLoop condition increment body).Like R (forLoop condition' increment' body') := by
  have hwith {inc inc' : Node} (hinc : inc.Like R inc') :
      Node.Like R (.block [body, .expression inc]) (.block [body', .expression inc']) :=
    .block (.cons hbody (.cons (.expression hinc) .nil))
  cases hcondition with
  | none =>
    cases hincrement with
    | none => exact .loop (.literal _) hbody
    | some hinc => exact .loop (.literal _) (hwith hinc)
  | some hcondition =>
    cases hincrement with
    | none => exact .loop hcondition hbody
    | some hinc => exact .loop hcondition (hwith hinc)

theorem like_forTree {initial initial' condition condition' increment increment' : Option Node} {body body' : Node}
    (hinitial : Option.Rel (Node.Like R) initial initial') (hcondition : Option.Rel (Node.Like R) condition condition')
    (hincrement : Option.Rel (Node.Like R) increment increment') (hbody : body.Like R body') :
    (forTree initial condition increment body).Like R (forTree initial' condition' increment' body') := by
  cases hinitial with
  | none => exact like_forLoop hcondition hincrement hbody
  | some hinitial => exact .block (.cons hinitial (.cons (like_forLoop hcondition hincrement hbody) .nil))

/-- Names with commas between them. -/
theorem relabel_names (hR : Token.Relabels R) {names inside inside' : List Token}
    (h : Separated (names.map fun t => [t]) inside) (hts : List.Forall₂ R inside inside') :
    ∃ names', Separated (names'.map fun t => [t]) inside' ∧ List.Forall₂ R names names' := by
  obtain ⟨pieces, hseparated, hpieces⟩ := h.relabel hR hts
  rw [List.forall₂_map_left_iff] at hpieces
  suffices hfound : ∃ names', pieces = names'.map (fun t => [t]) ∧ List.Forall₂ R names names' by
    obtain ⟨names', rfl, hnames⟩ := hfound
    exact ⟨names', hseparated, hnames⟩
  clear h hseparated
  induction hpieces with
  | nil => exact ⟨[], rfl, .nil⟩
  | cons hpiece _ ih =>
    obtain ⟨t', rfl, ht⟩ := forall₂_one_left hpiece
    obtain ⟨names', rfl, hnames⟩ := ih
    exact ⟨t' :: names', rfl, .cons ht hnames⟩

theorem DerivesStatement.relabel (hR : Token.Relabels R) {symbol : Symbol} {f : Bool} {ts ts' : List Token} {s : Node}
    (h : DerivesStatement symbol f ts s) (hts : List.Forall₂ R ts ts') :
    ∃ s', DerivesStatement symbol f ts' s' ∧ s.Like R s' := by
  have hkind {t t' : Token} (ht : R t t') {kind : Kind} (h : t.kind = kind) : t'.kind = kind :=
    (hR.kind ht).symm.trans h
  induction h generalizing ts' with
  | statement _ ih =>
    obtain ⟨s', hs, hlike⟩ := ih hts
    exact ⟨s', .statement hs, hlike⟩
  | var hkeyword h =>
    obtain ⟨keyword', us, rfl, htkeyword, hus⟩ := forall₂_cons_left hts
    obtain ⟨s', hs, hlike⟩ := h.relabel hR hus
    exact ⟨s', .var (hkind htkeyword hkeyword) hs, hlike⟩
  | function params body hkeyword hname hopening hparams hinside hwithin hclosing hbrace _ hclose ih =>
    obtain ⟨_, close', rfl, hts, htclose⟩ := forall₂_snoc_left hts
    obtain ⟨_, _, rfl, hhead, hrest⟩ := forall₂_append_left hts
    obtain ⟨keyword', _, rfl, htkeyword, hhead⟩ := forall₂_cons_left hhead
    obtain ⟨name', _, rfl, htname, hhead⟩ := forall₂_cons_left hhead
    obtain ⟨opening', inside', rfl, htopening, htinside⟩ := forall₂_cons_left hhead
    obtain ⟨closing', _, rfl, htclosing, hrest⟩ := forall₂_cons_left hrest
    obtain ⟨brace', _, rfl, htbrace, hrest⟩ := forall₂_cons_left hrest
    obtain ⟨params', hseparated, htparams⟩ := relabel_names hR hinside htinside
    obtain ⟨body', rfl, hbody⟩ := relabel_phrases (fun x hx _ h => ih x hx h) hrest
    have hidentifiers : ∀ p ∈ params', p.kind = .identifier := by
      intro p hp
      obtain ⟨q, hq, hqp⟩ := forall₂_mem_right htparams hp
      exact hkind hqp (hparams q hq)
    have hnames : List.Forall₂ (Node.Like R) (params.map .token) (params'.map .token) := by
      rw [List.forall₂_map_left_iff, List.forall₂_map_right_iff]
      exact htparams.imp fun _ _ h => .token h
    refine ⟨_, .function params' body' (hkind htkeyword hkeyword) (hkind htname hname)
      (hkind htopening hopening) hidentifiers
      hseparated (htparams.length_eq ▸ hwithin) (hkind htclosing hclosing) (hkind htbrace hbrace)
      (Relabelled.forall_derives hbody) (hkind htclose hclose), ?_⟩
    exact .function (.token htname) hnames (Relabelled.trees hbody)
  | expression h hsemicolon =>
    obtain ⟨us, semicolon', rfl, hus, htsemicolon⟩ := forall₂_snoc_left hts
    obtain ⟨e', he, hlike⟩ := h.relabel hR hus
    exact ⟨_, .expression he (hkind htsemicolon hsemicolon), .expression hlike⟩
  | print hkeyword h hsemicolon =>
    obtain ⟨_, semicolon', rfl, hts, htsemicolon⟩ := forall₂_snoc_left hts
    obtain ⟨keyword', us, rfl, htkeyword, hus⟩ := forall₂_cons_left hts
    obtain ⟨e', he, hlike⟩ := h.relabel hR hus
    exact ⟨_, .print (hkind htkeyword hkeyword) he (hkind htsemicolon hsemicolon), .print hlike⟩
  | ret hkeyword h hsemicolon =>
    obtain ⟨_, semicolon', rfl, hts, htsemicolon⟩ := forall₂_snoc_left hts
    obtain ⟨keyword', us, rfl, htkeyword, hus⟩ := forall₂_cons_left hts
    obtain ⟨value', hvalue, hlike⟩ := h.relabel hR hus
    refine ⟨_, .ret (hkind htkeyword hkeyword) hvalue (hkind htsemicolon hsemicolon), .ret (.token htkeyword) ?_⟩
    cases hlike with
    | none => exact .null
    | some hlike => exact hlike
  | block body hbrace _ hclose ih =>
    obtain ⟨_, close', rfl, hts, htclose⟩ := forall₂_snoc_left hts
    obtain ⟨brace', _, rfl, htbrace, hts⟩ := forall₂_cons_left hts
    obtain ⟨body', rfl, hbody⟩ := relabel_phrases (fun x hx _ h => ih x hx h) hts
    exact ⟨_, .block body' (hkind htbrace hbrace) (Relabelled.forall_derives hbody) (hkind htclose hclose),
      .block (Relabelled.trees hbody)⟩
  | branch hkeyword hopening hcondition hclosing _ ih =>
    obtain ⟨_, _, rfl, hhead, hrest⟩ := forall₂_append_left hts
    obtain ⟨keyword', _, rfl, htkeyword, hhead⟩ := forall₂_cons_left hhead
    obtain ⟨opening', us, rfl, htopening, hus⟩ := forall₂_cons_left hhead
    obtain ⟨closing', yes', rfl, htclosing, hyes⟩ := forall₂_cons_left hrest
    obtain ⟨condition', hcondition', hlike⟩ := hcondition.relabel hR hus
    obtain ⟨s', hs, hslike⟩ := ih hyes
    exact ⟨_, .branch (hkind htkeyword hkeyword) (hkind htopening hopening) hcondition' (hkind htclosing hclosing) hs,
      .branch hlike hslike .null⟩
  | branchElse hkeyword hopening hcondition hclosing _ hotherwise _ ihyes ihno =>
    obtain ⟨_, _, rfl, hts, hlast⟩ := forall₂_append_left hts
    obtain ⟨_, _, rfl, hhead, hrest⟩ := forall₂_append_left hts
    obtain ⟨keyword', _, rfl, htkeyword, hhead⟩ := forall₂_cons_left hhead
    obtain ⟨opening', us, rfl, htopening, hus⟩ := forall₂_cons_left hhead
    obtain ⟨closing', yes', rfl, htclosing, hyes⟩ := forall₂_cons_left hrest
    obtain ⟨otherwise', no', rfl, htotherwise, hno⟩ := forall₂_cons_left hlast
    obtain ⟨condition', hcondition', hlike⟩ := hcondition.relabel hR hus
    obtain ⟨s', hs, hslike⟩ := ihyes hyes
    obtain ⟨t', ht, htlike⟩ := ihno hno
    exact ⟨_, .branchElse (hkind htkeyword hkeyword) (hkind htopening hopening) hcondition'
      (hkind htclosing hclosing) hs
      (hkind htotherwise hotherwise) ht, .branch hlike hslike htlike⟩
  | loop hkeyword hopening hcondition hclosing _ ih =>
    obtain ⟨_, _, rfl, hhead, hrest⟩ := forall₂_append_left hts
    obtain ⟨keyword', _, rfl, htkeyword, hhead⟩ := forall₂_cons_left hhead
    obtain ⟨opening', us, rfl, htopening, hus⟩ := forall₂_cons_left hhead
    obtain ⟨closing', body', rfl, htclosing, hbody⟩ := forall₂_cons_left hrest
    obtain ⟨condition', hcondition', hlike⟩ := hcondition.relabel hR hus
    obtain ⟨s', hs, hslike⟩ := ih hbody
    exact ⟨_, .loop (hkind htkeyword hkeyword) (hkind htopening hopening) hcondition' (hkind htclosing hclosing) hs,
      .loop hlike hslike⟩
  | forLoop hkeyword hopening hinitial hcondition hsemicolon hincrement hclosing _ ih =>
    obtain ⟨_, _, rfl, hts, hlast⟩ := forall₂_append_left hts
    obtain ⟨_, _, rfl, hts, hthird⟩ := forall₂_append_left hts
    obtain ⟨_, conditionTokens, rfl, hhead, hsecond⟩ := forall₂_append_left hts
    obtain ⟨keyword', _, rfl, htkeyword, hhead⟩ := forall₂_cons_left hhead
    obtain ⟨opening', us, rfl, htopening, hus⟩ := forall₂_cons_left hhead
    obtain ⟨semicolon', increments, rfl, htsemicolon, hincrements⟩ := forall₂_cons_left hthird
    obtain ⟨closing', body', rfl, htclosing, hbody⟩ := forall₂_cons_left hlast
    obtain ⟨initial', hinitial', hinitialLike⟩ := hinitial.relabel hR hus
    obtain ⟨condition', hcondition', hconditionLike⟩ := hcondition.relabel hR hsecond
    obtain ⟨increment', hincrement', hincrementLike⟩ := hincrement.relabel hR hincrements
    obtain ⟨s', hs, hslike⟩ := ih hbody
    exact ⟨_, .forLoop (hkind htkeyword hkeyword) (hkind htopening hopening) hinitial' hcondition'
      (hkind htsemicolon hsemicolon) hincrement' (hkind htclosing hclosing) hs,
      like_forTree hinitialLike hconditionLike hincrementLike hslike⟩

theorem DerivesProgram.relabel (hR : Token.Relabels R) {ts ts' : List Token} {program : List Node}
    (h : DerivesProgram ts program) (hts : List.Forall₂ R ts ts') :
    ∃ program', DerivesProgram ts' program' ∧ List.Forall₂ (Node.Like R) program program' := by
  obtain ⟨items, rfl, rfl, hitems⟩ := h
  obtain ⟨items', rfl, hlike⟩ := relabel_phrases (fun x hx _ h => (hitems x hx).relabel hR h) hts
  exact ⟨_, ⟨items', rfl, rfl, Relabelled.forall_derives hlike⟩, Relabelled.trees hlike⟩

/-! ### Programs of texts -/

theorem DerivesProgram.append {ts ts' : List Token} {p p' : List Node} (h : DerivesProgram ts p)
    (h' : DerivesProgram ts' p') :
    DerivesProgram (ts ++ ts') (p ++ p') := by
  obtain ⟨items, rfl, rfl, hitems⟩ := h
  obtain ⟨items', rfl, rfl, hitems'⟩ := h'
  exact ⟨items ++ items', by simp, by simp, List.forall_mem_append.mpr ⟨hitems, hitems'⟩⟩

theorem DerivesProgram.flatMap {α : Type} {xs : List α} {tokens : α → List Token} {program : α → List Node}
    (h : ∀ x ∈ xs, DerivesProgram (tokens x) (program x)) :
    DerivesProgram (xs.flatMap tokens) (xs.flatMap program) := by
  induction xs with
  | nil => exact ⟨[], rfl, rfl, by simp⟩
  | cons x xs ih =>
    obtain ⟨hx, hxs⟩ := List.forall_mem_cons.mp h
    exact hx.append (ih hxs)

end Grammar

/-- A text parses as a program without a diagnostic exactly if its scan reports nothing and the tokens are derived. -/
theorem parseProgram_eq_iff (source : String) (p : List Node) :
    parseProgram source = ⟨p, []⟩ ↔ (scan source).diagnostics = [] ∧ DerivesProgram (scan source).tokens p := by
  have hreads : Reads ((scan source).tokens.length + 1) (fun u p r => r = [] ∧ DerivesProgram u p)
      (program (boundFor (scan source).tokens)) := by
    apply program_reads
    simp only [boundFor]
    omega
  have hiff : parseTokens program (scan source).tokens (scan source).eof = ⟨some p, []⟩ ↔
      DerivesProgram (scan source).tokens p :=
    parseTokens_eq_iff hreads fun h => program_accepts h le_rfl
  constructor
  · intro h
    obtain ⟨hresult, hdiagnostics⟩ := Parsed.mk.inj h
    obtain ⟨hscan, hclean⟩ := List.append_eq_nil_iff.mp hdiagnostics
    obtain ⟨q, hq⟩ := parseTokens_result_of_clean hreads hclean
    have hp : q = p := by
      rw [← hresult, parseProgramTokens, hq, Option.getD_some]
    refine ⟨hscan, hiff.mp ?_⟩
    rw [← hp, ← hq, ← show (parseTokens program (scan source).tokens (scan source).eof).diagnostics = [] from hclean]
  · intro h
    obtain ⟨hscan, hderives⟩ := h
    simp only [parseProgram, parseProgramTokens, hscan, hiff.mpr hderives, Option.getD_some, List.append_nil]

end LoxLang
