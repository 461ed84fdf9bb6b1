import LoxLang.Node.Source
import LoxLang.Proofs.Grammar.Exact
import LoxLang.Proofs.Number.ReadBack
/-!
# Printed expressions read back

The source text of an expression is scanned and parsed without a diagnostic, and gives the expression
again but for parentheses and lines. The printer puts every operation and assignment in parentheses
of its own, so a printed expression is always a call or something tighter, and it may stand wherever
an expression may.

The proof goes tree by tree. For each it says how the printed characters are cut into segments,
whatever harmless characters follow, and that all tokens of these segments, on whatever lines, derive
a tree with the same bare form.
-/

namespace LoxLang

open Grammar

namespace Node

mutual

/-- The tree without parentheses, and with no lines told apart. -/
def bare : Node → Node
  | token t => token t.bare
  | grouping inner => bare inner
  | unary operator right => unary (bare operator) (bare right)
  | binary left operator right => binary (bare left) (bare operator) (bare right)
  | logical left operator right => logical (bare left) (bare operator) (bare right)
  | reference name => reference (bare name)
  | assign name value => assign (bare name) (bare value)
  | call callee paren arguments => call (bare callee) (bare paren) (bareAll arguments)
  | other => other

def bareAll : List Node → List Node
  | [] => []
  | n :: rest => bare n :: bareAll rest

end

mutual

/-- The numbers among the literals of an expression. -/
def numbers : Node → List Number
  | literal (num x) => [x]
  | grouping inner => numbers inner
  | unary _ right => numbers right
  | binary left _ right | logical left _ right => numbers left ++ numbers right
  | assign _ value => numbers value
  | call callee _ arguments => numbers callee ++ numbersAll arguments
  | _ => []

def numbersAll : List Node → List Number
  | [] => []
  | n :: rest => numbers n ++ numbersAll rest

end

/-! ### Expressions of scanned tokens -/

/-- An expression whose tokens and values come from a scan. -/
inductive Readable : Node → Prop
  | nil : Readable (.literal .null)
  | bool (b : Bool) : Readable (.literal (.bool b))
  | number {x : Number} (hsign : x.negative = false) : Readable (.literal (.num x))
  | string {s : String} (hs : '"' ∉ s.toList) : Readable (.literal (.str s))
  | grouping {inner : Node} (hinner : Readable inner) : Readable (.grouping inner)
  | sign {t : Token} {right : Node} (ht : t.IsScanned) (hkind : t.kind = .bang ∨ t.kind = .minus)
      (hright : Readable right) : Readable (.unary (.token t) right)
  | operation {l : Operation} {t : Token} {left right : Node} (ht : t.IsScanned) (hkind : t.kind ∈ l.operators)
      (hleft : Readable left) (hright : Readable right) : Readable (l.node left (.token t) right)
  | reference {t : Token} (ht : t.IsScanned) (hkind : t.kind = .identifier) : Readable (.reference (.token t))
  | assign {t : Token} {value : Node} (ht : t.IsScanned) (hkind : t.kind = .identifier) (hvalue : Readable value) :
      Readable (.assign (.token t) value)
  | call {t : Token} {callee : Node} {arguments : List Node} (ht : t.IsScanned) (hkind : t.kind = .rightParen)
      (hcallee : Readable callee) (harguments : ∀ a ∈ arguments, Readable a) (hwithin : arguments.length ≤ mostItems) :
      Readable (.call callee (.token t) arguments)

theorem Readable.operations {l : Operation} {first : Node} {tail : List Operand} (hfirst : Readable first)
    (htail : ∀ x ∈ tail, x.operator.IsScanned ∧ x.operator.kind ∈ l.operators ∧ Readable x.right.tree) :
    Readable (tail.foldl (Operand.onto l) first) := by
  induction tail generalizing first with
  | nil => exact hfirst
  | cons x tail ih =>
    obtain ⟨⟨hscanned, hkind, hright⟩, hrest⟩ := List.forall_mem_cons.mp htail
    exact ih (.operation hscanned hkind hfirst hright) hrest

theorem Readable.calls {callee : Node} {tail : List Arguments} (hcallee : Readable callee)
    (htail : ∀ x ∈ tail, x.Enclosed ∧ x.closing.IsScanned ∧ ∀ item ∈ x.items, Readable item.tree) :
    Readable (tail.foldl Arguments.onto callee) := by
  induction tail generalizing callee with
  | nil => exact hcallee
  | cons x tail ih =>
    obtain ⟨⟨henclosed, hscanned, hitems⟩, hrest⟩ := List.forall_mem_cons.mp htail
    refine ih (.call hscanned henclosed.closing hcallee ?_ ?_) hrest
    · intro a ha
      obtain ⟨item, hitem, rfl⟩ := List.mem_map.mp ha
      exact hitems item hitem
    · rw [List.length_map]
      exact henclosed.within

end Node

theorem Grammar.Separated.subset {pieces : List (List Token)} {ts : List Token} (h : Separated pieces ts) :
    ∀ piece ∈ pieces, piece ⊆ ts := by
  induction h with
  | none => simp
  | one piece => simp
  | more _ _ ih =>
    refine List.forall_mem_cons.mpr ⟨List.subset_append_left _ _, fun piece hpiece => ?_⟩
    exact List.Subset.trans (ih piece hpiece)
      (List.Subset.trans (List.subset_cons_self _ _) (List.subset_append_right _ _))

theorem readable_value {t : Token} (ht : t.IsScanned) (hkind : t.kind = .number ∨ t.kind = .string) :
    Node.Readable (.literal (.ofScalar t.literal)) := by
  obtain ⟨kind, text, hlexeme, htoken⟩ := ht
  rw [htoken] at hkind ⊢
  rcases hkind with rfl | rfl
  · exact .number (Number.ofNumeral_negative text)
  · obtain ⟨inside, hinside, rfl⟩ := hlexeme.inside rfl
    have hliteral : (Token.ofLexeme .string ('"' :: inside ++ ['"']) t.line).literal = .str (String.ofList inside) := by
      simp [Token.ofLexeme, Token.literalOf]
    rw [hliteral]
    exact .string (by rwa [String.toList_ofList])

theorem Grammar.Derives.readable {l : Level} {ts : List Token} {e : Node} (h : Derives l ts e)
    (hscanned : ∀ t ∈ ts, t.IsScanned) : e.Readable := by
  induction h with
  | assign hname _ _ ih =>
    obtain ⟨hfirst, hrest⟩ := List.forall_mem_cons.mp hscanned
    exact .assign hfirst hname (ih (List.forall_mem_cons.mp hrest).2)
  | noAssign _ ih => exact ih hscanned
  | operation tail _ hoperators _ ihfirst ihtail =>
    obtain ⟨hfirst, hrest⟩ := List.forall_mem_append.mp hscanned
    refine .operations (ihfirst hfirst) fun x hx => ?_
    have htokens : ∀ t ∈ x.tokens, t.IsScanned := fun t ht => hrest t (List.mem_flatMap.mpr ⟨x, hx, ht⟩)
    obtain ⟨hoperator, hright⟩ := List.forall_mem_cons.mp htokens
    exact ⟨hoperator, hoperators x hx, ihtail x hx hright⟩
  | sign ht _ ih =>
    obtain ⟨hsign, hrest⟩ := List.forall_mem_cons.mp hscanned
    exact .sign hsign ht (ih hrest)
  | noSign _ ih => exact ih hscanned
  | call tail _ henclosed _ ihcallee ihitems =>
    obtain ⟨hfirst, hrest⟩ := List.forall_mem_append.mp hscanned
    refine .calls (ihcallee hfirst) fun x hx => ?_
    have htokens : ∀ t ∈ x.tokens, t.IsScanned := fun t ht => hrest t (List.mem_flatMap.mpr ⟨x, hx, ht⟩)
    obtain ⟨-, hinside⟩ := List.forall_mem_cons.mp htokens
    refine ⟨henclosed x hx, hinside _ (by simp), fun item hitem => ihitems x hx item hitem fun t ht => ?_⟩
    have hpiece := (henclosed x hx).separated.subset item.tokens (List.mem_map_of_mem hitem) ht
    exact hinside t (List.mem_append_left _ hpiece)
  | value ht => exact readable_value (hscanned _ (by simp)) ht
  | yes => exact .bool true
  | no => exact .bool false
  | nil => exact .nil
  | name ht => exact .reference (hscanned _ (by simp)) ht
  | grouping _ _ _ ih =>
    obtain ⟨-, hrest⟩ := List.forall_mem_cons.mp hscanned
    exact .grouping (ih (List.forall_mem_append.mp hrest).1)

/-! ### Looser levels -/

namespace Grammar.Derives

variable {ts : List Token} {e : Node}

theorem toOperation {l : Operation} (h : Derives l.operand ts e) : Derives (.operation l) ts e := by
  simpa using Derives.operation [] h (by simp) (by simp)

theorem operation_toExpression {l : Operation} (h : Derives (.operation l) ts e) : DerivesExpression ts e := by
  -- An operation of one level is an operand of the next looser one.
  have hdisjunction (h : Derives (.operation .conjunction) ts e) : DerivesExpression ts e :=
    .noAssign (toOperation (l := .disjunction) h)
  have hconjunction (h : Derives (.operation .equality) ts e) : DerivesExpression ts e :=
    hdisjunction (toOperation (l := .conjunction) h)
  have hequality (h : Derives (.operation .comparison) ts e) : DerivesExpression ts e :=
    hconjunction (toOperation (l := .equality) h)
  have hcomparison (h : Derives (.operation .term) ts e) : DerivesExpression ts e :=
    hequality (toOperation (l := .comparison) h)
  cases l with
  | disjunction => exact .noAssign h
  | conjunction => exact hdisjunction h
  | equality => exact hconjunction h
  | comparison => exact hequality h
  | term => exact hcomparison h
  | factor => exact hcomparison (toOperation (l := .term) h)

theorem unary_toExpression (h : Derives .unary ts e) : DerivesExpression ts e :=
  operation_toExpression (toOperation (l := .factor) h)

/-- A call is an operand of every operation. -/
theorem call_toOperand (h : Derives .call ts e) (l : Operation) : Derives l.operand ts e := by
  have hfactor : Derives (.operation .factor) ts e := toOperation (.noSign h)
  have hterm : Derives (.operation .term) ts e := toOperation hfactor
  have hcomparison : Derives (.operation .comparison) ts e := toOperation hterm
  have hequality : Derives (.operation .equality) ts e := toOperation hcomparison
  cases l with
  | disjunction => exact toOperation (l := .conjunction) hequality
  | conjunction => exact hequality
  | equality => exact hcomparison
  | comparison => exact hterm
  | term => exact hfactor
  | factor => exact .noSign h

theorem call_toExpression (h : Derives .call ts e) : DerivesExpression ts e := unary_toExpression (.noSign h)

theorem primary_toCall (h : Derives .primary ts e) : Derives .call ts e := by
  simpa using Derives.call [] h (by simp) (by simp)

/-- One more call behind a call. -/
theorem call_append (h : Derives .call ts e) {x : Arguments} (hx : x.Enclosed)
    (hitems : ∀ item ∈ x.items, DerivesExpression item.tokens item.tree) : Derives .call (ts ++ x.tokens) (x.onto e) := by
  cases h with
  | call tail hcallee henclosed htail =>
    have henclosed' : ∀ y ∈ tail ++ [x], y.Enclosed :=
      List.forall_mem_append.mpr ⟨henclosed, by simpa using hx⟩
    have htail' : ∀ y ∈ tail ++ [x], ∀ item ∈ y.items, DerivesExpression item.tokens item.tree :=
      List.forall_mem_append.mpr ⟨htail, by simpa using hitems⟩
    simpa using Derives.call (tail ++ [x]) hcallee henclosed' htail'

end Grammar.Derives

/-! ### Printed pieces -/

/-- A printed piece: how it is cut, and that its tokens derive the tree but for parentheses and lines. -/
structure Prints (l : Level) (text : List Char) (segments : List Segment) (e : Node) : Prop where
  cuts : ∀ rest, Delimits rest → Cuts text segments rest
  tidy : ∀ s ∈ segments, s.isTidy = true
  derives : ∀ ts : List Token, ts.map Token.bare = segments.flatMap Segment.tokens →
    ∃ e', Derives l ts e' ∧ e'.bare = e.bare

/-- The first character of a printed expression goes on with no blank or operator before it. -/
def StartsExpression (text : List Char) : Prop := ∃ c more, text = c :: more ∧ Segment.isBlank c = false ∧ c ≠ '='

theorem StartsExpression.head {text rest : List Char} (h : StartsExpression text) :
    (∀ c ∈ (text ++ rest).head?, Segment.isBlank c = false) ∧ (text ++ rest).head? ≠ some '=' := by
  obtain ⟨c, more, rfl, hblank, hequal⟩ := h
  refine ⟨fun d hd => ?_, fun hhead => ?_⟩
  · cases hd
    exact hblank
  · cases hhead
    exact hequal rfl

theorem Token.kind_of_bare {t : Token} {kind : Kind} {text : List Char} (h : t.bare = Token.ofLexeme kind text 0) :
    t.kind = kind :=
  congrArg Token.kind h

/-- A value or a name is one lexeme. -/
theorem Prints.lexeme {kind : Kind} {text : List Char} {e : Node} (h : IsLexeme kind text)
    (hderives : ∀ t : Token, t.bare = Token.ofLexeme kind text 0 → ∃ e', Derives .primary [t] e' ∧ e'.bare = e.bare) :
    Prints .call text [.lexeme kind text] e where
  cuts _ hrest := .lexeme h hrest
  tidy := by simp [Segment.isTidy]
  derives ts hts := by
    obtain ⟨t, ts', rfl, ht, hrest⟩ := List.map_eq_cons_iff.mp hts
    obtain rfl := List.map_eq_nil_iff.mp hrest
    obtain ⟨e', he', hbare⟩ := hderives t ht
    exact ⟨e', he'.primary_toCall, hbare⟩

theorem Prints.parentheses {text : List Char} {segments : List Segment} {e : Node} (h : Prints .assignment text segments e) :
    Prints .call ('(' :: text ++ [')']) (.lexeme .leftParen ['('] :: segments ++ [.lexeme .rightParen [')']]) e where
  cuts rest hrest := by
    have hopen : Cuts ['('] [.lexeme .leftParen ['(']] (text ++ [')'] ++ rest) := .bracket rfl rfl (by decide) _
    have hclose : Cuts [')'] [.lexeme .rightParen [')']] rest := .bracket rfl rfl (by decide) rest
    exact hopen.append ((h.cuts _ (delimits_cons (by decide) rest)).append hclose)
  tidy := by
    simpa [Segment.isTidy, or_imp, forall_and] using h.tidy
  derives ts hts := by
    simp only [List.cons_append, List.flatMap_cons, List.flatMap_append, List.flatMap_nil, Segment.tokens, List.append_nil,
      List.nil_append] at hts
    obtain ⟨opening, ts, rfl, hopening, hts⟩ := List.map_eq_cons_iff.mp hts
    obtain ⟨inside, ts, rfl, hinside, hts⟩ := List.map_eq_append_iff.mp hts
    obtain ⟨closing, ts, rfl, hclosing, hts⟩ := List.map_eq_cons_iff.mp hts
    obtain rfl := List.map_eq_nil_iff.mp hts
    obtain ⟨e', he', hbare⟩ := h.derives inside hinside
    refine ⟨.grouping e', ?_, hbare⟩
    exact (Derives.grouping (Token.kind_of_bare hopening) (Token.kind_of_bare hclosing) he').primary_toCall

theorem Prints.sign {t : Token} {text : List Char} {segments : List Segment} {right : Node} (ht : t.IsScanned)
    (hkind : t.kind = .bang ∨ t.kind = .minus) (hstarts : StartsExpression text) (h : Prints .call text segments right) :
    Prints .assignment (t.text.toList ++ text) ([.lexeme t.kind t.text.toList] ++ segments) (.unary (.token t) right) where
  cuts rest hrest := by
    obtain ⟨c, htext, hmark, hslash⟩ := ht.lexeme.1.sign hkind
    have hsign : Cuts [c] [.lexeme t.kind [c]] (text ++ rest) :=
      Segment.split_mark hmark (fun hc => absurd hc hslash) fun _ => hstarts.head.2
    rw [htext]
    exact hsign.append (h.cuts rest hrest)
  tidy := by
    simpa [Segment.isTidy] using h.tidy
  derives ts hts := by
    simp only [List.cons_append, List.flatMap_cons, Segment.tokens, List.nil_append] at hts
    obtain ⟨sign, ts, rfl, hsign, hts⟩ := List.map_eq_cons_iff.mp hts
    obtain ⟨e', he', hbare⟩ := h.derives ts hts
    refine ⟨.unary (.token sign) e', ?_, ?_⟩
    · rw [← Token.kind_of_bare hsign] at hkind
      exact (Derives.sign hkind (.noSign he')).unary_toExpression
    · simp only [Node.bare, hsign, ht.lexeme.2, hbare]

/-- A lexeme with blanks around it before an expression. -/
theorem Cuts.between {kind : Kind} {lexeme text rest : List Char} {segments : List Segment} (h : IsLexeme kind lexeme)
    (hstarts : StartsExpression text) (htext : Cuts text segments rest) :
    Cuts ([' '] ++ (lexeme ++ ([' '] ++ text)))
      ([.blanks [' ']] ++ ([.lexeme kind lexeme] ++ ([.blanks [' ']] ++ segments))) rest := by
  have hbehind : Cuts ([' '] ++ text) ([.blanks [' ']] ++ segments) rest := (Cuts.space hstarts.head.1).append htext
  have hlexeme := (Cuts.lexeme h (delimits_cons (by decide) (text ++ rest))).append hbehind
  have hblank : ∀ c ∈ (lexeme ++ ([' '] ++ text) ++ rest).head?, Segment.isBlank c = false := by
    obtain ⟨c, more, rfl, hc⟩ := h.head_not_blank
    intro d hd
    cases hd
    exact hc
  exact (Cuts.space hblank).append hlexeme

/-- An operator with blanks around it and an operand on either side. -/
theorem Prints.operation {l : Operation} {t : Token} {leftText rightText : List Char}
    {leftSegments rightSegments : List Segment} {left right : Node} (ht : t.IsScanned) (hkind : t.kind ∈ l.operators)
    (hstarts : StartsExpression rightText) (hleft : Prints .call leftText leftSegments left)
    (hright : Prints .call rightText rightSegments right) :
    Prints .assignment (leftText ++ ([' '] ++ (t.text.toList ++ ([' '] ++ rightText))))
      (leftSegments ++ ([.blanks [' ']] ++ ([.lexeme t.kind t.text.toList] ++ ([.blanks [' ']] ++ rightSegments))))
      (l.node left (.token t) right) where
  cuts rest hrest :=
    (hleft.cuts _ (delimits_cons (by decide) _)).append (.between ht.lexeme.1 hstarts (hright.cuts rest hrest))
  tidy := by
    simpa [Segment.isTidy, or_imp, forall_and] using ⟨hleft.tidy, hright.tidy⟩
  derives ts hts := by
    simp only [List.cons_append, List.flatMap_cons, List.flatMap_append, Segment.tokens, List.nil_append] at hts
    obtain ⟨us, ts, rfl, hus, hts⟩ := List.map_eq_append_iff.mp hts
    obtain ⟨operator, vs, rfl, hoperator, hvs⟩ := List.map_eq_cons_iff.mp hts
    obtain ⟨left', hleft', hleftBare⟩ := hleft.derives us hus
    obtain ⟨right', hright', hrightBare⟩ := hright.derives vs hvs
    refine ⟨l.node left' (.token operator) right', ?_, ?_⟩
    · rw [← Token.kind_of_bare hoperator] at hkind
      have htail := Derives.operation [⟨operator, ⟨vs, right'⟩⟩] (hleft'.call_toOperand l) (by simpa using hkind)
        (by simpa using hright'.call_toOperand l)
      simpa [Operand.tokens, Operand.onto] using htail.operation_toExpression
    · cases l <;> simp only [Operation.node, Node.bare, hoperator, ht.lexeme.2, hleftBare, hrightBare]

theorem Prints.assign {t : Token} {text : List Char} {segments : List Segment} {value : Node} (ht : t.IsScanned)
    (hkind : t.kind = .identifier) (hstarts : StartsExpression text) (h : Prints .call text segments value) :
    Prints .assignment (t.text.toList ++ ([' '] ++ (['='] ++ ([' '] ++ text))))
      ([.lexeme t.kind t.text.toList] ++ ([.blanks [' ']] ++ ([.lexeme .equal ['=']] ++ ([.blanks [' ']] ++ segments))))
      (.assign (.token t) value) where
  cuts rest hrest := by
    have hequal : IsLexeme .equal ['='] := .mark rfl
    exact (Cuts.lexeme ht.lexeme.1 (delimits_cons (by decide) _)).append (.between hequal hstarts (h.cuts rest hrest))
  tidy := by
    simpa [Segment.isTidy] using h.tidy
  derives ts hts := by
    simp only [List.cons_append, List.flatMap_cons, Segment.tokens, List.nil_append] at hts
    obtain ⟨name, ts, rfl, hname, hts⟩ := List.map_eq_cons_iff.mp hts
    obtain ⟨equals, ts, rfl, hequals, hts⟩ := List.map_eq_cons_iff.mp hts
    obtain ⟨e', he', hbare⟩ := h.derives ts hts
    refine ⟨.assign (.token name) e', ?_, ?_⟩
    · rw [← Token.kind_of_bare hname] at hkind
      exact .assign hkind (Token.kind_of_bare hequals) he'.call_toExpression
    · simp only [Node.bare, hname, ht.lexeme.2, hbare]

/-! ### Printed calls -/

theorem Node.bareAll_eq (nodes : List Node) : Node.bareAll nodes = nodes.map Node.bare := by
  induction nodes with
  | nil => rfl
  | cons n rest ih => rw [Node.bareAll, ih, List.map_cons]

/-- As `Prints`, for expressions with commas between them. -/
structure PrintsList (text : List Char) (segments : List Segment) (nodes : List Node) : Prop where
  starts : nodes ≠ [] → StartsExpression text
  cuts : ∀ rest, Delimits rest → Cuts text segments rest
  tidy : ∀ s ∈ segments, s.isTidy = true
  derives : ∀ ts : List Token, ts.map Token.bare = segments.flatMap Segment.tokens →
    ∃ items : List (Phrase Node), Separated (items.map Phrase.tokens) ts ∧
      (∀ x ∈ items, DerivesExpression x.tokens x.tree) ∧ items.map (Node.bare ∘ Phrase.tree) = nodes.map Node.bare

theorem PrintsList.nil : PrintsList [] [] [] where
  starts h := absurd rfl h
  cuts rest _ := .nil rest
  tidy := by simp
  derives ts hts := by
    obtain rfl := List.map_eq_nil_iff.mp hts
    exact ⟨[], .none, by simp, rfl⟩

theorem PrintsList.one {text : List Char} {segments : List Segment} {n : Node} (hstarts : StartsExpression text)
    (h : Prints .call text segments n) : PrintsList text segments [n] where
  starts _ := hstarts
  cuts := h.cuts
  tidy := h.tidy
  derives ts hts := by
    obtain ⟨e', he', hbare⟩ := h.derives ts hts
    exact ⟨[⟨ts, e'⟩], .one ts, by simpa using he'.call_toExpression, by simpa using hbare⟩

theorem PrintsList.more {first text : List Char} {firstSegments segments : List Segment} {n : Node} {nodes : List Node}
    (hstarts : StartsExpression first) (hfirst : Prints .call first firstSegments n) (hne : nodes ≠ [])
    (h : PrintsList text segments nodes) :
    PrintsList (first ++ ([','] ++ ([' '] ++ text)))
      (firstSegments ++ ([.lexeme .comma [',']] ++ ([.blanks [' ']] ++ segments))) (n :: nodes) where
  starts _ := by
    obtain ⟨c, more, rfl, hc⟩ := hstarts
    exact ⟨c, _, rfl, hc⟩
  cuts rest hrest := by
    have hbehind : Cuts ([' '] ++ text) ([.blanks [' ']] ++ segments) rest :=
      (Cuts.space (h.starts hne).head.1).append (h.cuts rest hrest)
    have hcomma : Cuts [','] [.lexeme .comma [',']] ([' '] ++ text ++ rest) := .bracket rfl rfl (by decide) _
    exact (hfirst.cuts _ (delimits_cons (by decide) _)).append (hcomma.append hbehind)
  tidy := by
    simpa [Segment.isTidy, or_imp, forall_and] using ⟨hfirst.tidy, h.tidy⟩
  derives ts hts := by
    simp only [List.cons_append, List.flatMap_cons, List.flatMap_append, Segment.tokens, List.nil_append] at hts
    obtain ⟨us, ts, rfl, hus, hts⟩ := List.map_eq_append_iff.mp hts
    obtain ⟨comma, vs, rfl, hcomma, hvs⟩ := List.map_eq_cons_iff.mp hts
    obtain ⟨e', he', hbare⟩ := hfirst.derives us hus
    obtain ⟨items, hseparated, hitems, hbares⟩ := h.derives vs hvs
    cases items with
    | nil => exact absurd (List.map_eq_nil_iff.mp hbares.symm) hne
    | cons x items =>
      refine ⟨⟨us, e'⟩ :: x :: items, .more (Token.kind_of_bare hcomma) hseparated, ?_, ?_⟩
      · exact List.forall_mem_cons.mpr ⟨he'.call_toExpression, hitems⟩
      · rw [List.map_cons, hbares, List.map_cons, Function.comp_apply, hbare]

/-- A callee with the parentheses of its arguments. -/
theorem Prints.call {t : Token} {calleeText text : List Char} {calleeSegments segments : List Segment} {callee : Node}
    {arguments : List Node} (ht : t.IsScanned) (hkind : t.kind = .rightParen) (hwithin : arguments.length ≤ mostItems)
    (hcallee : Prints .call calleeText calleeSegments callee) (h : PrintsList text segments arguments) :
    Prints .call (calleeText ++ (['('] ++ (text ++ [')'])))
      (calleeSegments ++ ([.lexeme .leftParen ['(']] ++ (segments ++ [.lexeme .rightParen [')']])))
      (.call callee (.token t) arguments) where
  cuts rest hrest := by
    have hclose : Cuts [')'] [.lexeme .rightParen [')']] rest := .bracket rfl rfl (by decide) rest
    have hinside := (h.cuts _ (delimits_cons (by decide) rest)).append hclose
    have hopen : Cuts ['('] [.lexeme .leftParen ['(']] (text ++ [')'] ++ rest) := .bracket rfl rfl (by decide) _
    exact (hcallee.cuts _ (delimits_cons (by decide) _)).append (hopen.append hinside)
  tidy := by
    simpa [Segment.isTidy, or_imp, forall_and] using ⟨hcallee.tidy, h.tidy⟩
  derives ts hts := by
    simp only [List.cons_append, List.flatMap_cons, List.flatMap_append, List.flatMap_nil, Segment.tokens, List.append_nil,
      List.nil_append] at hts
    obtain ⟨us, ts, rfl, hus, hts⟩ := List.map_eq_append_iff.mp hts
    obtain ⟨opening, ts, rfl, hopening, hts⟩ := List.map_eq_cons_iff.mp hts
    obtain ⟨inside, ts, rfl, hinside, hts⟩ := List.map_eq_append_iff.mp hts
    obtain ⟨closing, ts, rfl, hclosing, hts⟩ := List.map_eq_cons_iff.mp hts
    obtain rfl := List.map_eq_nil_iff.mp hts
    obtain ⟨callee', hcallee', hcalleeBare⟩ := hcallee.derives us hus
    obtain ⟨items, hseparated, hitems, hbares⟩ := h.derives inside hinside
    have hlength : items.length = arguments.length := by simpa using congrArg List.length hbares
    have henclosed : Arguments.Enclosed ⟨opening, items, inside, closing⟩ :=
      ⟨Token.kind_of_bare hopening, Token.kind_of_bare hclosing, hseparated, by rw [hlength]; exact hwithin⟩
    refine ⟨_, hcallee'.call_append henclosed hitems, ?_⟩
    have hparen : closing.bare = t.bare := by
      rw [hclosing, ht.lexeme.2, ht.lexeme.1.closing hkind, hkind]
    simp only [Arguments.onto, Node.bare, Node.bareAll_eq, List.map_map, hbares, hcalleeBare, hparen]

/-! ### Printed trees -/

namespace Node

theorem numbersAll_eq (nodes : List Node) : numbersAll nodes = nodes.flatMap numbers := by
  induction nodes with
  | nil => rfl
  | cons n rest ih => rw [numbersAll, ih, List.flatMap_cons]

theorem numbers_operation (l : Operation) (left operator right : Node) :
    (l.node left operator right).numbers = left.numbers ++ right.numbers := by
  cases l <;> simp only [Operation.node, numbers]

theorem source_operation (l : Operation) {left right : Node} {leftText rightText : String} (t : Token)
    (hleft : left.source = .ok leftText) (hright : right.source = .ok rightText) :
    (l.node left (.token t) right).source = .ok ("(" ++ leftText ++ " " ++ t.text ++ " " ++ rightText ++ ")") := by
  cases l <;> simp only [Operation.node] <;> rw [source, hleft, hright] <;> rfl

/-- The expression has a text that prints it. -/
def Printed (e : Node) : Prop :=
  ∃ text segments, e.source = .ok text ∧ StartsExpression text.toList ∧ Prints .call text.toList segments e

theorem printed_lexeme {e : Node} {kind : Kind} {text : String} (hsource : e.source = .ok text)
    (h : IsLexeme kind text.toList) (hkind : kind ∉ [.equal, .equalEqual])
    (hderives : ∀ t : Token, t.bare = Token.ofLexeme kind text.toList 0 → ∃ e', Derives .primary [t] e' ∧ e'.bare = e.bare) :
    Printed e := by
  simp only [List.mem_cons, List.not_mem_nil, or_false, not_or] at hkind
  obtain ⟨c, more, htext, hblank⟩ := h.head_not_blank
  have hequal := h.head_ne_equal hkind.1 hkind.2
  refine ⟨text, _, hsource, ⟨c, more, htext, hblank, fun hc => hequal ?_⟩, .lexeme h hderives⟩
  rw [htext, hc]
  rfl

theorem printed_parentheses {e : Node} {text : String} {inside : List Char} {segments : List Segment}
    (hsource : e.source = .ok text) (htext : text.toList = '(' :: inside ++ [')'])
    (h : Prints .assignment inside segments e) : Printed e := by
  refine ⟨text, _, hsource, ?_, by rw [htext]; exact h.parentheses⟩
  rw [htext]
  exact ⟨'(', _, rfl, by decide, by decide⟩

/-- Arguments that print each print together. -/
theorem printed_list {nodes : List Node} (h : ∀ n ∈ nodes, Printed n) :
    ∃ texts segments, sources nodes = .ok texts ∧ texts.length = nodes.length ∧
      PrintsList (", ".intercalate texts).toList segments nodes := by
  induction nodes with
  | nil => exact ⟨[], [], rfl, rfl, .nil⟩
  | cons n rest ih =>
    obtain ⟨⟨text, segments, hsource, hstarts, hprints⟩, hrest⟩ := List.forall_mem_cons.mp h
    obtain ⟨texts, restSegments, hsources, hlength, hprintsRest⟩ := ih hrest
    have hall : sources (n :: rest) = .ok (text :: texts) := by
      rw [sources, hsource, hsources]
      rfl
    cases texts with
    | nil =>
      obtain rfl := List.length_eq_zero_iff.mp hlength.symm
      exact ⟨[text], segments, hall, rfl, by simpa using PrintsList.one hstarts hprints⟩
    | cons second texts =>
      have hne : rest ≠ [] := by
        rintro rfl
        cases hlength
      have htext : (", ".intercalate (text :: second :: texts)).toList =
          text.toList ++ ([','] ++ ([' '] ++ (", ".intercalate (second :: texts)).toList)) := by
        rw [String.intercalate_cons_cons]
        simp
      have hmore := PrintsList.more hstarts hprints hne hprintsRest
      rw [← htext] at hmore
      exact ⟨text :: second :: texts, _, hall, by simpa using hlength, hmore⟩

theorem Readable.hasTextSource {e : Node} (h : e.Readable) : e.hasTextSource = true := by
  cases h with
  | reference ht =>
    obtain ⟨kind, text, -, htoken⟩ := ht
    rw [htoken]
    rfl
  | @operation l => cases l <;> rfl
  | _ => rfl

theorem Readable.printed {e : Node} (h : e.Readable) (hfinite : ∀ x ∈ e.numbers, x.isFinite = true) : Printed e := by
  induction h with
  | nil =>
    have hword : IsLexeme .kwNil ['n', 'i', 'l'] := .keyword rfl (by decide) (by decide)
    refine printed_lexeme (by rw [source]; rfl) hword (by decide) fun t ht => ?_
    exact ⟨_, .nil (Token.kind_of_bare ht), rfl⟩
  | bool b =>
    cases b with
    | true =>
      have hword : IsLexeme .kwTrue ['t', 'r', 'u', 'e'] := .keyword rfl (by decide) (by decide)
      refine printed_lexeme (by rw [source]; rfl) hword (by decide) fun t ht => ?_
      exact ⟨_, .yes (Token.kind_of_bare ht), rfl⟩
    | false =>
      have hword : IsLexeme .kwFalse ['f', 'a', 'l', 's', 'e'] := .keyword rfl (by decide) (by decide)
      refine printed_lexeme (by rw [source]; rfl) hword (by decide) fun t ht => ?_
      exact ⟨_, .no (Token.kind_of_bare ht), rfl⟩
  | @number x hsign =>
    obtain ⟨hnumeral, hreads⟩ := Number.source_numeral (hfinite x (by simp [numbers])) hsign
    have hsource : (Node.literal (.num x)).source = .ok x.source := by
      rw [source]
      rfl
    refine printed_lexeme hsource (.numeral hnumeral) (by decide) fun t ht => ?_
    refine ⟨_, .value (.inl (Token.kind_of_bare ht)), ?_⟩
    have hliteral : t.literal = .num x := by
      rw [show t.literal = t.bare.literal from rfl, ht]
      exact congrArg Json.num hreads
    rw [hliteral]
    rfl
  | @string s hs =>
    have htext : ("\"" ++ s ++ "\"").toList = '"' :: s.toList ++ ['"'] := by simp
    have hstring : IsLexeme .string ("\"" ++ s ++ "\"").toList := by
      rw [htext]
      exact .string hs
    have hsource : (Node.literal (.str s)).source = .ok ("\"" ++ s ++ "\"") := by
      rw [source]
      rfl
    refine printed_lexeme hsource hstring (by decide) fun t ht => ?_
    refine ⟨_, .value (.inr (Token.kind_of_bare ht)), ?_⟩
    have hliteral : t.literal = .str s := by
      rw [show t.literal = t.bare.literal from rfl, ht, htext]
      simp [Token.ofLexeme, Token.literalOf]
    rw [hliteral]
    rfl
  | @grouping inner _ ih =>
    obtain ⟨text, segments, hsource, -, hprints⟩ := ih hfinite
    have hwhole : (Node.grouping inner).source = .ok ("(" ++ text ++ ")") := by
      rw [source, hsource]
      rfl
    have hinner : Prints .assignment text.toList segments (.grouping inner) := by
      refine ⟨hprints.cuts, hprints.tidy, fun ts hts => ?_⟩
      obtain ⟨e', he', hbare⟩ := hprints.derives ts hts
      exact ⟨e', he'.call_toExpression, by rwa [bare]⟩
    exact printed_parentheses hwhole (by simp) hinner
  | @sign t right ht hkind _ ih =>
    obtain ⟨text, segments, hsource, hstarts, hprints⟩ := ih hfinite
    have hwhole : (Node.unary (.token t) right).source = .ok ("(" ++ t.text ++ text ++ ")") := by
      rw [source, hsource]
      rfl
    exact printed_parentheses hwhole (by simp) (.sign ht hkind hstarts hprints)
  | @operation l t left right ht hkind _ _ ihleft ihright =>
    rw [numbers_operation, List.forall_mem_append] at hfinite
    obtain ⟨leftText, leftSegments, hleftSource, -, hleft⟩ := ihleft hfinite.1
    obtain ⟨rightText, rightSegments, hrightSource, hstarts, hright⟩ := ihright hfinite.2
    refine printed_parentheses (source_operation l t hleftSource hrightSource) ?_ (.operation ht hkind hstarts hleft hright)
    simp
  | @reference t ht hkind =>
    have hsource : (Node.reference (.token t)).source = .ok t.text := by
      rw [source]
      rfl
    refine printed_lexeme hsource ht.lexeme.1 (by rw [hkind]; decide) fun t' ht' => ?_
    refine ⟨_, .name ((Token.kind_of_bare ht').trans hkind), ?_⟩
    simp only [bare, ht', ht.lexeme.2]
  | @assign t value ht hkind _ ih =>
    obtain ⟨text, segments, hsource, hstarts, hprints⟩ := ih hfinite
    have hwhole : (Node.assign (.token t) value).source = .ok ("(" ++ t.text ++ " = " ++ text ++ ")") := by
      rw [source, hsource]
      rfl
    exact printed_parentheses hwhole (by simp) (.assign ht hkind hstarts hprints)
  | @call t callee arguments ht hkind _ harguments hwithin ihcallee iharguments =>
    rw [numbers, List.forall_mem_append, numbersAll_eq] at hfinite
    obtain ⟨text, segments, hsource, hstarts, hprints⟩ := ihcallee hfinite.1
    have hprinted : ∀ a ∈ arguments, Printed a := by
      intro a ha
      exact iharguments a ha fun x hx => hfinite.2 x (List.mem_flatMap.mpr ⟨a, ha, hx⟩)
    obtain ⟨texts, listSegments, hsources, -, hlist⟩ := printed_list hprinted
    have hjoin : joinArguments arguments texts = .ok (", ".intercalate texts) := by
      have hall : arguments.all Node.hasTextSource = true :=
        List.all_eq_true.mpr fun a ha => (harguments a ha).hasTextSource
      rw [joinArguments, if_pos hall]
    have hwhole : (Node.call callee (.token t) arguments).source = .ok (text ++ "(" ++ ", ".intercalate texts ++ ")") := by
      rw [source, hsources, hsource]
      simp only [bind, Except.bind, hjoin]
      rfl
    have htext : (text ++ "(" ++ ", ".intercalate texts ++ ")").toList =
        text.toList ++ (['('] ++ ((", ".intercalate texts).toList ++ [')'])) := by simp
    have hcall := Prints.call ht hkind hwithin hprints hlist
    rw [← htext] at hcall
    refine ⟨_, _, hwhole, ?_, hcall⟩
    obtain ⟨c, more, hhead, hc⟩ := hstarts
    exact ⟨c, _, by rw [htext, hhead]; rfl, hc⟩

end Node

/-! ### The round trip -/

/-- Scanning a printed text gives the tokens of its segments and nothing to report. -/
theorem Prints.scan {l : Level} {text : String} {segments : List Segment} {e : Node} (h : Prints l text.toList segments e) :
    (scan text).tokens.map Token.bare = segments.flatMap Segment.tokens ∧ (scan text).diagnostics = [] :=
  scan_of_cuts (h.cuts [] (by simp [Delimits])) h.tidy

/-- An expression that was parsed without diagnostics, and whose numbers are finite, is printed as a text that is parsed
without diagnostics, to an expression that differs at most in parentheses and lines. -/
theorem parseExpression_source (source : String) (e : Node) (hparsed : parseExpression source = ⟨some e, []⟩)
    (hfinite : ∀ x ∈ e.numbers, x.isFinite = true) :
    ∃ text e', e.source = .ok text ∧ parseExpression text = ⟨some e', []⟩ ∧ e'.bare = e.bare := by
  obtain ⟨-, hderives⟩ := (parseExpression_eq_iff source e).mp hparsed
  have hreadable := hderives.readable fun t ht => scan_isScanned ht
  obtain ⟨text, segments, hsource, -, hprints⟩ := hreadable.printed hfinite
  obtain ⟨hbare, hclean⟩ := hprints.scan
  obtain ⟨e', he', hsame⟩ := hprints.derives _ hbare
  exact ⟨text, e', hsource, (parseExpression_eq_iff text e').mpr ⟨hclean, he'.call_toExpression⟩, hsame⟩

/-- The tree of `-(2)`. -/
def negatedTwo : Node := .unary (.token (.ofLexeme .minus ['-'] 1)) (.grouping (.literal (.num (.ofNumeral ['2']))))

theorem parseExpression_negatedTwo : parseExpression "-(2)" = ⟨some negatedTwo, []⟩ := by
  have hsplit : Segment.split "-(2)".toList = [.lexeme .minus ['-'], .lexeme .leftParen ['('], .lexeme .number ['2'],
      .lexeme .rightParen [')']] := by
    have hminus : Cuts ['-'] [.lexeme .minus ['-']] ['(', '2', ')'] := .bracket rfl rfl (by decide) _
    have hopen : Cuts ['('] [.lexeme .leftParen ['(']] ['2', ')'] := .bracket rfl rfl (by decide) _
    have htwo : IsNumeral ['2'] := .whole (by simp) (by simp)
    have hnumeral : Cuts ['2'] [.lexeme .number ['2']] [')'] := .lexeme (.numeral htwo) (delimits_cons (by decide) [])
    have hclose : Cuts [')'] [.lexeme .rightParen [')']] [] := .bracket rfl rfl (by decide) _
    have hall := hminus.append (hopen.append (hnumeral.append hclose))
    simpa [Cuts, Segment.split] using hall
  rw [parseExpression_eq_iff, scan, hsplit]
  have hnumeral : Derives .call [.ofLexeme .number ['2'] 1] (.literal (.num (.ofNumeral ['2']))) :=
    (Derives.value (t := .ofLexeme .number ['2'] 1) (.inl rfl)).primary_toCall
  have hgroup : Derives .call [.ofLexeme .leftParen ['('] 1, .ofLexeme .number ['2'] 1, .ofLexeme .rightParen [')'] 1]
      (.grouping (.literal (.num (.ofNumeral ['2'])))) :=
    (Derives.grouping rfl rfl hnumeral.call_toExpression).primary_toCall
  exact ⟨rfl, (Derives.sign (.inr rfl) (.noSign hgroup)).unary_toExpression⟩

theorem parseExpression_source_negatedTwo :
    ∃ text e', negatedTwo.source = .ok text ∧ parseExpression text = ⟨some e', []⟩ ∧ e'.bare = negatedTwo.bare := by
  apply parseExpression_source "-(2)" negatedTwo parseExpression_negatedTwo
  have hfinite : (Number.ofNumeral ['2']).isFinite = true := by decide +kernel
  simpa [negatedTwo, Node.numbers] using hfinite

end LoxLang
