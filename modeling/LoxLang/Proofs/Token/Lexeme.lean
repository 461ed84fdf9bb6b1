import LoxLang.Proofs.Token.Lines
/-!
# Lexemes

What the lexemes of a text can be, said without cutting: words, numerals, strings, and marks of one
or two characters. Cutting gives nothing else; and a lexeme is cut off as a whole from the front of
a text wherever what stands behind it does not make it longer.
-/

namespace LoxLang

/-! ### Character classes -/

theorem isBlank_of_isNameStart {c : Char} (h : Segment.isNameStart c = true) : Segment.isBlank c = false := by
  cases hblank : Segment.isBlank c with
  | false => rfl
  | true =>
    simp only [Segment.isBlank, Bool.or_eq_true, beq_iff_eq] at hblank
    rcases hblank with (((rfl | rfl) | rfl) | rfl) | rfl <;> revert h <;> decide

theorem isBlank_of_isDigit {c : Char} (h : c.isDigit = true) : Segment.isBlank c = false := by
  cases hblank : Segment.isBlank c with
  | false => rfl
  | true =>
    simp only [Segment.isBlank, Bool.or_eq_true, beq_iff_eq] at hblank
    rcases hblank with (((rfl | rfl) | rfl) | rfl) | rfl <;> revert h <;> decide

theorem isNameStart_of_isDigit {c : Char} (h : c.isDigit = true) : Segment.isNameStart c = false := by
  have hunderscore : c ≠ '_' := by
    intro hc
    rw [hc] at h
    revert h
    decide
  change (decide ('0'.val ≤ c.val) && decide (c.val ≤ '9'.val)) = true at h
  change ((decide ('A'.val ≤ c.val ∧ c.val ≤ 'Z'.val) || (decide ('a'.val ≤ c.val) && decide (c.val ≤ 'z'.val)))
    || c == '_') = false
  simp only [Bool.and_eq_true, decide_eq_true_eq, UInt32.le_iff_toNat_le] at h
  simp only [Bool.or_eq_false_iff, Bool.and_eq_false_iff, decide_eq_false_iff_not, UInt32.le_iff_toNat_le,
    beq_eq_false_iff_ne]
  have hnine : '9'.val.toNat = 57 := rfl
  have hupper : 'A'.val.toNat = 65 := rfl
  have hlower : 'a'.val.toNat = 97 := rfl
  exact ⟨⟨by omega, by omega⟩, hunderscore⟩

/-! ### Shapes -/

/-- Digits, and a point with digits behind it or not. -/
inductive IsNumeral : List Char → Prop
  | whole {ds : List Char} (hne : ds ≠ []) (hds : ∀ c ∈ ds, c.isDigit = true) : IsNumeral ds
  | fraction {ds fs : List Char} (hne : ds ≠ []) (hds : ∀ c ∈ ds, c.isDigit = true) (hfne : fs ≠ [])
      (hfs : ∀ c ∈ fs, c.isDigit = true) : IsNumeral (ds ++ '.' :: fs)

/-- The lexemes of each kind. -/
inductive IsLexeme : Kind → List Char → Prop
  | word {c : Char} {cs : List Char} (hc : Segment.isNameStart c = true) (hcs : ∀ d ∈ cs, Segment.isNamePart d = true) :
      IsLexeme (Segment.wordKind (c :: cs)) (c :: cs)
  | numeral {cs : List Char} (h : IsNumeral cs) : IsLexeme .number cs
  | string {inside : List Char} (h : '"' ∉ inside) : IsLexeme .string ('"' :: inside ++ ['"'])
  | mark {c : Char} {kind : Kind} (h : Segment.markKind? c = some kind) : IsLexeme kind [c]
  | equalMark {c : Char} {kind : Kind} (h : Segment.equalKind? c = some kind) : IsLexeme kind [c, '=']

theorem IsLexeme.keyword {kind : Kind} {c : Char} {cs : List Char} (hkind : Segment.wordKind (c :: cs) = kind)
    (hc : Segment.isNameStart c = true) (hcs : cs.all Segment.isNamePart = true) : IsLexeme kind (c :: cs) :=
  hkind ▸ .word hc (List.all_eq_true.mp hcs)

namespace Segment

/-! ### What is cut off is a lexeme -/

theorem forall_mem_takeWhile (p : Char → Bool) (cs : List Char) : ∀ c ∈ cs.takeWhile p, p c = true :=
  List.all_eq_true.mp List.all_takeWhile

theorem cutMark_isLexeme {c : Char} {rest text : List Char} {kind : Kind} (h : (cutMark c rest).1 = .lexeme kind text) :
    IsLexeme kind text := by
  unfold cutMark at h
  split at h
  next k after hequal =>
    cases h
    exact .equalMark hequal
  next =>
    simp only [single] at h
    split at h
    next k hmark =>
      cases h
      exact .mark hmark
    next => cases h

theorem cutNumeral_isLexeme {c : Char} {rest text : List Char} {kind : Kind} (hc : c.isDigit = true)
    (h : (cutNumeral c rest).1 = .lexeme kind text) : IsLexeme kind text := by
  have hwhole : ∀ d ∈ c :: rest.takeWhile Char.isDigit, d.isDigit = true :=
    List.forall_mem_cons.mpr ⟨hc, forall_mem_takeWhile _ _⟩
  unfold cutNumeral at h
  dsimp only at h
  split at h
  next d more _ =>
    split at h
    next hd =>
      cases h
      refine .numeral (.fraction (List.cons_ne_nil _ _) hwhole (List.cons_ne_nil _ _) ?_)
      exact List.forall_mem_cons.mpr ⟨hd, forall_mem_takeWhile _ _⟩
    next =>
      cases h
      exact .numeral (.whole (List.cons_ne_nil _ _) hwhole)
  next =>
    cases h
    exact .numeral (.whole (List.cons_ne_nil _ _) hwhole)

theorem cutString_isLexeme {rest text : List Char} {kind : Kind} (h : (cutString rest).1 = .lexeme kind text) :
    IsLexeme kind text := by
  unfold cutString at h
  dsimp only at h
  split at h
  next quote after hafter =>
    cases h
    have hquote : quote = '"' := by
      have := List.head_dropWhile_not (· != '"') (l := rest) (by simp [hafter])
      simpa [hafter] using this
    rw [hquote]
    refine .string fun hmem => ?_
    simpa using forall_mem_takeWhile _ _ _ hmem
  next => cases h

theorem cut_isLexeme {c : Char} {rest text : List Char} {kind : Kind} (h : (cut c rest).1 = .lexeme kind text) :
    IsLexeme kind text := by
  unfold cut at h
  split at h
  · cases h
  split at h
  next hc =>
    cases h
    exact .word hc (forall_mem_takeWhile _ _)
  split at h
  next hc => exact cutNumeral_isLexeme hc h
  split at h
  · exact cutString_isLexeme h
  split at h
  · cases h
  · exact cutMark_isLexeme h

theorem split_isLexeme {cs text : List Char} {kind : Kind} (h : .lexeme kind text ∈ split cs) : IsLexeme kind text := by
  induction cs using split.induct with
  | case1 => simp [split] at h
  | case2 c rest ih =>
    rw [split, List.mem_cons] at h
    rcases h with h | h
    · exact cut_isLexeme h.symm
    · exact ih h

/-! ### A lexeme is cut off as a whole -/

theorem takeWhile_append_stop {α : Type} {p : α → Bool} {cs rest : List α} (hcs : ∀ c ∈ cs, p c = true)
    (hrest : ∀ c ∈ rest.head?, p c = false) : (cs ++ rest).takeWhile p = cs ∧ (cs ++ rest).dropWhile p = rest := by
  have hstop : rest.takeWhile p = [] ∧ rest.dropWhile p = rest := by
    cases rest with
    | nil => exact ⟨rfl, rfl⟩
    | cons c rest =>
      have hc := hrest c rfl
      exact ⟨by simp [hc], by simp [hc]⟩
  rw [List.takeWhile_append_of_pos hcs, List.dropWhile_append_of_pos hcs, hstop.1, hstop.2, List.append_nil]
  exact ⟨rfl, rfl⟩

theorem split_cut {c : Char} {cs rest : List Char} {segment : Segment} (h : cut c cs = (segment, rest)) :
    split (c :: cs) = segment :: split rest := by
  rw [split, h]

theorem split_word {c : Char} {cs rest : List Char} (hc : isNameStart c = true) (hcs : ∀ d ∈ cs, isNamePart d = true)
    (hrest : ∀ d ∈ rest.head?, isNamePart d = false) :
    split (c :: cs ++ rest) = .lexeme (wordKind (c :: cs)) (c :: cs) :: split rest := by
  obtain ⟨htake, hdrop⟩ := takeWhile_append_stop hcs hrest
  apply split_cut
  simp [cut, isBlank_of_isNameStart hc, hc, htake, hdrop]

theorem split_numeral {cs rest : List Char} (h : IsNumeral cs)
    (hrest : ∀ d ∈ rest.head?, d.isDigit = false ∧ d ≠ '.') : split (cs ++ rest) = .lexeme .number cs :: split rest := by
  have hcut {c : Char} {more text : List Char} (hc : c.isDigit = true)
      (hmore : cutNumeral c more = (.lexeme .number text, rest)) : split (c :: more) = .lexeme .number text :: split rest := by
    apply split_cut
    simp [cut, isBlank_of_isDigit hc, isNameStart_of_isDigit hc, hc, hmore]
  have hstop : ∀ d ∈ rest.head?, d.isDigit = false := fun d hd => (hrest d hd).1
  cases h with
  | whole hne hds =>
    obtain ⟨c, ds, rfl⟩ := List.exists_cons_of_ne_nil hne
    obtain ⟨hc, hds⟩ := List.forall_mem_cons.mp hds
    obtain ⟨htake, hdrop⟩ := takeWhile_append_stop hds hstop
    rw [List.cons_append]
    apply hcut hc
    unfold cutNumeral
    rw [htake, hdrop]
    dsimp only
    split
    next d more => exact absurd rfl (hrest '.' rfl).2
    next => rfl
  | @fraction ds fs hne hds hfne hfs =>
    obtain ⟨c, ds, rfl⟩ := List.exists_cons_of_ne_nil hne
    obtain ⟨f, fs, rfl⟩ := List.exists_cons_of_ne_nil hfne
    obtain ⟨hc, hds⟩ := List.forall_mem_cons.mp hds
    obtain ⟨hf, hfs⟩ := List.forall_mem_cons.mp hfs
    have hpoint : ∀ d ∈ ('.' :: f :: fs ++ rest).head?, d.isDigit = false := by
      intro d hd
      cases hd
      decide
    obtain ⟨htake, hdrop⟩ := takeWhile_append_stop hds hpoint
    obtain ⟨htake', hdrop'⟩ := takeWhile_append_stop hfs hstop
    rw [List.append_assoc, List.cons_append]
    apply hcut hc
    unfold cutNumeral
    rw [htake, hdrop]
    simp only [List.cons_append, hf, if_true, htake', hdrop']

theorem split_string {inside : List Char} (h : '"' ∉ inside) (rest : List Char) :
    split ('"' :: inside ++ ['"'] ++ rest) = .lexeme .string ('"' :: inside ++ ['"']) :: split rest := by
  have hinside : ∀ c ∈ inside, (c != '"') = true := by
    intro c hc
    simp only [bne_iff_ne, ne_eq]
    intro hquote
    exact h (hquote ▸ hc)
  have hquote : ∀ c ∈ ('"' :: rest).head?, (c != '"') = false := by simp
  obtain ⟨htake, hdrop⟩ := takeWhile_append_stop hinside hquote
  rw [List.append_assoc, List.cons_append, List.singleton_append]
  apply split_cut
  have hcut : cut '"' (inside ++ '"' :: rest) = cutString (inside ++ '"' :: rest) := rfl
  rw [hcut, cutString, htake, hdrop]

/-- The characters that are marks. -/
def marks : List Char :=
  ['(', ')', '\x7b', '\x7d', ',', '.', '-', '+', ';', '/', '*', '!', '=', '>', '<']

theorem mem_marks {c : Char} {kind : Kind} (h : markKind? c = some kind) : c ∈ marks := by
  by_cases hc : c ∈ marks
  · exact hc
  · simp only [marks, List.mem_cons, List.not_mem_nil, or_false, not_or] at hc
    obtain ⟨h₁, h₂, h₃, h₄, h₅, h₆, h₇, h₈, h₉, h₁₀, h₁₁, h₁₂, h₁₃, h₁₄, h₁₅⟩ := hc
    simp only [markKind?, h₁, h₂, h₃, h₄, h₅, h₆, h₇, h₈, h₉, h₁₀, h₁₁, h₁₂, h₁₃, h₁₄, h₁₅, if_false] at h
    cases h

theorem mark_classes {c : Char} {kind : Kind} (h : markKind? c = some kind) :
    isBlank c = false ∧ isNameStart c = false ∧ c.isDigit = false ∧ c ≠ '"' := by
  have hall : (marks.all fun m => !isBlank m && !isNameStart m && !m.isDigit && m != '"') = true := by decide
  simpa [and_assoc] using List.all_eq_true.mp hall c (mem_marks h)

/-- The marks that an equals sign makes longer, with what they become. -/
def longerMarks : List (Char × Kind) :=
  [('!', .bangEqual), ('=', .equalEqual), ('>', .greaterEqual), ('<', .lessEqual)]

theorem mem_longerMarks {c : Char} {kind : Kind} (h : equalKind? c = some kind) :
    (c, kind) ∈ longerMarks := by
  unfold equalKind? at h
  split at h
  next hc =>
    cases h
    simp [longerMarks, hc]
  split at h
  next hc =>
    cases h
    simp [longerMarks, hc]
  split at h
  next hc =>
    cases h
    simp [longerMarks, hc]
  split at h
  next hc =>
    cases h
    simp [longerMarks, hc]
  next => cases h

theorem markKind?_of_equalKind? {c : Char} {kind : Kind} (h : equalKind? c = some kind) : ∃ k, markKind? c = some k := by
  have hall : ∀ p ∈ longerMarks, (markKind? p.1).isSome = true := by decide
  exact Option.isSome_iff_exists.mp (hall _ (mem_longerMarks h))

/-- Marks are cut as marks, unless two slashes start a comment. -/
theorem cut_mark {c : Char} {kind : Kind} (h : markKind? c = some kind) {rest : List Char}
    (hslash : c = '/' → rest.head? ≠ some '/') : cut c rest = cutMark c rest := by
  obtain ⟨hblank, hname, hdigit, hquote⟩ := mark_classes h
  have hcomment : ¬(c = '/' && rest.head? == some '/') = true := by
    intro hboth
    simp only [Bool.and_eq_true, decide_eq_true_eq, beq_iff_eq] at hboth
    exact hslash hboth.1 hboth.2
  rw [cut, if_neg (by simp [hblank]), if_neg (by simp [hname]), if_neg (by simp [hdigit]), if_neg hquote, if_neg hcomment]

theorem split_mark {c : Char} {kind : Kind} (h : markKind? c = some kind) {rest : List Char}
    (hslash : c = '/' → rest.head? ≠ some '/') (hequal : (equalKind? c).isSome = true → rest.head? ≠ some '=') :
    split (c :: rest) = .lexeme kind [c] :: split rest := by
  apply split_cut
  rw [cut_mark h hslash]
  unfold cutMark
  split
  next after hlonger => exact absurd rfl (hequal (by simp [hlonger]))
  next => simp only [single, h]

theorem split_equalMark {c : Char} {kind : Kind} (h : equalKind? c = some kind) (rest : List Char) :
    split (c :: '=' :: rest) = .lexeme kind [c, '='] :: split rest := by
  obtain ⟨k, hk⟩ := markKind?_of_equalKind? h
  apply split_cut
  rw [cut_mark hk (by simp)]
  simp only [cutMark, h]

theorem wordKind_mem (word : List Char) : wordKind word ∈ .identifier :: reserved.map Prod.snd := by
  unfold wordKind
  cases hlookup : reserved.lookup word with
  | none => exact List.mem_cons_self
  | some kind =>
    obtain ⟨before, after, hreserved, -⟩ := List.lookup_eq_some_iff.mp hlookup
    exact List.mem_cons_of_mem _ (List.mem_map.mpr ⟨(word, kind), by simp [hreserved], rfl⟩)

end Segment

/-- What stands behind does not make a lexeme longer. -/
def Delimits (rest : List Char) : Prop :=
  ∀ c ∈ rest.head?, Segment.isNamePart c = false ∧ c ≠ '.' ∧ c ≠ '=' ∧ c ≠ '/'

theorem delimits_cons {c : Char} (hc : c ∈ [' ', '(', ')', ',']) (rest : List Char) : Delimits (c :: rest) := by
  have hall : ([' ', '(', ')', ','].all fun d => !Segment.isNamePart d && d != '.' && d != '=' && d != '/') = true := by
    decide
  intro d hd
  cases hd
  simpa [and_assoc] using List.all_eq_true.mp hall c hc

theorem IsLexeme.split {kind : Kind} {text rest : List Char} (h : IsLexeme kind text) (hrest : Delimits rest) :
    Segment.split (text ++ rest) = .lexeme kind text :: Segment.split rest := by
  cases h with
  | word hc hcs => exact Segment.split_word hc hcs fun c hd => (hrest c hd).1
  | numeral h =>
    refine Segment.split_numeral h fun c hd => ⟨?_, (hrest c hd).2.1⟩
    have hpart := (hrest c hd).1
    simp only [Segment.isNamePart, Bool.or_eq_false_iff] at hpart
    exact hpart.2
  | string h => exact Segment.split_string h rest
  | mark h =>
    refine Segment.split_mark h (fun _ hslash => ?_) fun _ hequal => ?_
    · exact (hrest _ hslash).2.2.2 rfl
    · exact (hrest _ hequal).2.2.1 rfl
  | equalMark h => exact Segment.split_equalMark h rest

/-! ### How lexemes start -/

theorem IsNumeral.head {cs : List Char} (h : IsNumeral cs) : ∃ c more, cs = c :: more ∧ c.isDigit = true := by
  cases h with
  | whole hne hds =>
    obtain ⟨c, ds, rfl⟩ := List.exists_cons_of_ne_nil hne
    exact ⟨c, ds, rfl, hds c (by simp)⟩
  | fraction hne hds =>
    obtain ⟨c, ds, rfl⟩ := List.exists_cons_of_ne_nil hne
    exact ⟨c, _, rfl, hds c (by simp)⟩

theorem IsLexeme.head_not_blank {kind : Kind} {text : List Char} (h : IsLexeme kind text) :
    ∃ c more, text = c :: more ∧ Segment.isBlank c = false := by
  cases h with
  | word hc => exact ⟨_, _, rfl, isBlank_of_isNameStart hc⟩
  | numeral h =>
    obtain ⟨c, more, rfl, hc⟩ := h.head
    exact ⟨c, more, rfl, isBlank_of_isDigit hc⟩
  | string => exact ⟨_, _, rfl, by decide⟩
  | mark h => exact ⟨_, _, rfl, (Segment.mark_classes h).1⟩
  | equalMark h =>
    obtain ⟨k, hk⟩ := Segment.markKind?_of_equalKind? h
    exact ⟨_, _, rfl, (Segment.mark_classes hk).1⟩

theorem IsLexeme.head_ne_equal {kind : Kind} {text : List Char} (h : IsLexeme kind text) (hequal : kind ≠ .equal)
    (hequals : kind ≠ .equalEqual) : text.head? ≠ some '=' := by
  intro hhead
  cases h with
  | word hc =>
    cases hhead
    revert hc
    decide
  | numeral h =>
    obtain ⟨c, more, rfl, hc⟩ := h.head
    cases hhead
    revert hc
    decide
  | string => cases hhead
  | mark h =>
    cases hhead
    cases h
    exact hequal rfl
  | equalMark h =>
    cases hhead
    cases h
    exact hequals rfl

/-- The kinds of marks of one character. -/
def markKinds : List Kind :=
  [.leftParen, .rightParen, .leftBrace, .rightBrace, .comma, .dot, .minus, .plus, .semicolon, .slash, .star, .bang, .equal,
    .greater, .less]

theorem IsLexeme.single {kind : Kind} {text : List Char} (h : IsLexeme kind text) (hkind : kind ∈ markKinds) :
    ∃ c, text = [c] ∧ Segment.markKind? c = some kind := by
  cases h with
  | @word c cs =>
    have hall : ∀ k ∈ .identifier :: Segment.reserved.map Prod.snd, k ∉ markKinds := by decide
    exact absurd hkind (hall _ (Segment.wordKind_mem (c :: cs)))
  | numeral => exact absurd hkind (by decide)
  | string => exact absurd hkind (by decide)
  | @mark c kind h => exact ⟨c, rfl, h⟩
  | equalMark h =>
    have hall : ∀ p ∈ Segment.longerMarks, p.2 ∉ markKinds := by decide
    exact absurd hkind (hall _ (Segment.mem_longerMarks h))

/-- A sign is not the mark that may start a comment. -/
theorem IsLexeme.sign {kind : Kind} {text : List Char} (h : IsLexeme kind text) (hkind : kind = .bang ∨ kind = .minus) :
    ∃ c, text = [c] ∧ Segment.markKind? c = some kind ∧ c ≠ '/' := by
  have hmark : kind ∈ markKinds := by rcases hkind with rfl | rfl <;> decide
  obtain ⟨c, htext, hc⟩ := h.single hmark
  refine ⟨c, htext, hc, fun hslash => ?_⟩
  rw [hslash] at hc
  cases hc
  simp at hkind

theorem IsLexeme.closing {kind : Kind} {text : List Char} (h : IsLexeme kind text) (hkind : kind = .rightParen) :
    text = [')'] := by
  have hall : (Segment.marks.all fun m => Segment.markKind? m != some .rightParen || m == ')') = true := by decide
  subst hkind
  obtain ⟨c, htext, hc⟩ := h.single (by decide)
  have hparen : c = ')' := by simpa [hc] using List.all_eq_true.mp hall c (Segment.mem_marks hc)
  rw [htext, hparen]

theorem IsLexeme.inside {kind : Kind} {text : List Char} (h : IsLexeme kind text) (hkind : kind = .string) :
    ∃ inside, '"' ∉ inside ∧ text = '"' :: inside ++ ['"'] := by
  cases h with
  | @word c cs =>
    have hall : ∀ k ∈ .identifier :: Segment.reserved.map Prod.snd, k ≠ .string := by decide
    exact absurd hkind (hall _ (Segment.wordKind_mem (c :: cs)))
  | numeral => cases hkind
  | @string inside h => exact ⟨inside, h, rfl⟩
  | @mark c kind h =>
    have hall : (Segment.marks.all fun m => Segment.markKind? m != some .string) = true := by decide
    have hne := List.all_eq_true.mp hall c (Segment.mem_marks h)
    simp [h, hkind] at hne
  | equalMark h =>
    have hall : ∀ p ∈ Segment.longerMarks, p.2 ≠ .string := by decide
    exact absurd hkind (hall _ (Segment.mem_longerMarks h))

/-! ### Texts put together -/

/-- A text that is cut into the given segments when `rest` stands behind it. -/
def Cuts (text : List Char) (segments : List Segment) (rest : List Char) : Prop :=
  Segment.split (text ++ rest) = segments ++ Segment.split rest

namespace Cuts

variable {xs ys rest : List Char} {ss ss' : List Segment}

theorem nil (rest : List Char) : Cuts [] [] rest := rfl

theorem append (hxs : Cuts xs ss (ys ++ rest)) (hys : Cuts ys ss' rest) : Cuts (xs ++ ys) (ss ++ ss') rest := by
  rw [Cuts, List.append_assoc, hxs, hys, List.append_assoc]

theorem lexeme {kind : Kind} (h : IsLexeme kind xs) (hrest : Delimits rest) : Cuts xs [.lexeme kind xs] rest :=
  h.split hrest

theorem space (hrest : ∀ c ∈ rest.head?, Segment.isBlank c = false) : Cuts [' '] [.blanks [' ']] rest := by
  have hcut : Segment.cut ' ' rest = (.blanks (' ' :: rest.takeWhile Segment.isBlank), rest.dropWhile Segment.isBlank) := rfl
  have hnone : ∀ c ∈ ([] : List Char), Segment.isBlank c = true := by simp
  obtain ⟨htake, hdrop⟩ := Segment.takeWhile_append_stop hnone hrest
  rw [List.nil_append] at htake hdrop
  rw [Cuts, List.singleton_append, Segment.split, hcut, htake, hdrop]
  rfl

/-- A mark that no other character makes longer. -/
theorem bracket {c : Char} {kind : Kind} (h : Segment.markKind? c = some kind) (hequal : Segment.equalKind? c = none)
    (hslash : c ≠ '/') (rest : List Char) : Cuts [c] [.lexeme kind [c]] rest := by
  refine Segment.split_mark h (fun hc => absurd hc hslash) fun hlonger => ?_
  rw [hequal] at hlonger
  cases hlonger

end Cuts

/-! ### Tokens without their lines -/

namespace Token

def bare (t : Token) : Token := { t with line := 0 }

/-- A token that a scan can give. -/
def IsScanned (t : Token) : Prop := ∃ kind text, IsLexeme kind text ∧ t = ofLexeme kind text t.line

/-- A scanned token is settled by its kind and its text, but for the line. -/
theorem IsScanned.lexeme {t : Token} (h : t.IsScanned) :
    IsLexeme t.kind t.text.toList ∧ t.bare = ofLexeme t.kind t.text.toList 0 := by
  obtain ⟨kind, text, hlexeme, htoken⟩ := h
  have hkind : t.kind = kind := congrArg Token.kind htoken
  have htext : t.text.toList = text := by
    rw [htoken]
    exact String.toList_ofList
  rw [hkind, htext]
  exact ⟨hlexeme, congrArg bare htoken⟩

end Token

namespace Segment

/-- The tokens of a segment, which are one or none. -/
def tokens : Segment → List Token
  | lexeme kind text => [Token.ofLexeme kind text 0]
  | _ => []

/-- Whether there is nothing to report about the segment. -/
def isTidy : Segment → Bool
  | stray _ | unterminated _ => false
  | _ => true

end Segment

theorem Scan.ofSegments_bare (line : Int) (segments : List Segment) :
    (Scan.ofSegments line segments).tokens.map Token.bare = segments.flatMap Segment.tokens := by
  induction segments generalizing line with
  | nil => rfl
  | cons segment rest ih =>
    rw [List.flatMap_cons, ← ih (line + lineBreaks segment.text)]
    cases segment <;> rfl

theorem Scan.ofSegments_tidy {segments : List Segment} (h : ∀ s ∈ segments, s.isTidy = true) (line : Int) :
    (Scan.ofSegments line segments).diagnostics = [] := by
  induction segments generalizing line with
  | nil => rfl
  | cons segment rest ih =>
    obtain ⟨hsegment, hrest⟩ := List.forall_mem_cons.mp h
    have hbehind := ih hrest (line + lineBreaks segment.text)
    cases segment with
    | stray c => cases hsegment
    | unterminated text => cases hsegment
    | lexeme kind text => exact hbehind
    | blanks text => exact hbehind
    | comment text => exact hbehind

/-- A text that is cut into tidy segments is scanned to their tokens, and there is nothing to report about it. -/
theorem scan_of_cuts {text : String} {segments : List Segment} (hcuts : Cuts text.toList segments [])
    (htidy : ∀ s ∈ segments, s.isTidy = true) :
    (scan text).tokens.map Token.bare = segments.flatMap Segment.tokens ∧ (scan text).diagnostics = [] := by
  have hsplit : Segment.split text.toList = segments := by
    rw [Cuts, List.append_nil] at hcuts
    simpa [Segment.split] using hcuts
  rw [scan, hsplit]
  exact ⟨Scan.ofSegments_bare 1 segments, Scan.ofSegments_tidy htidy 1⟩

theorem scan_isScanned {source : String} {t : Token} (ht : t ∈ (scan source).tokens) : t.IsScanned := by
  obtain ⟨⟨kind, text, hsegment, htoken⟩, -, -⟩ := Scan.ofSegments_tokens ht
  exact ⟨kind, text, Segment.split_isLexeme hsegment, htoken⟩

end LoxLang
