import LoxLang.Proofs.Token.Lexeme
import Mathlib.Data.List.Infix
/-!
# The lexicon

What the terminals of the language are, said without cutting: blanks and comments, names, numerals,
strings with their closing quote or without it, and the one spelling of each mark and each reserved
word. A cover of a text goes from left to right and takes the longest text that a terminal matches, or
one character where none matches. Every text has one cover, and it is how texts are cut.
-/

namespace LoxLang

namespace Kind

/-- The text of a mark or of a reserved word. -/
def spelling? : Kind → Option String
  | leftParen => "(" | rightParen => ")" | leftBrace => "\x7b" | rightBrace => "\x7d"
  | comma => "," | dot => "." | minus => "-" | plus => "+" | semicolon => ";" | slash => "/" | star => "*"
  | bang => "!" | bangEqual => "!=" | equal => "=" | equalEqual => "=="
  | greater => ">" | greaterEqual => ">=" | less => "<" | lessEqual => "<="
  | kwAnd => "and" | kwClass => "class" | kwElse => "else" | kwFalse => "false" | kwFun => "fun" | kwFor => "for"
  | kwIf => "if" | kwNil => "nil" | kwOr => "or" | kwPrint => "print" | kwReturn => "return" | kwSuper => "super"
  | kwThis => "this" | kwTrue => "true" | kwVar => "var" | kwWhile => "while"
  | identifier | string | number | eof => none

end Kind

/-- What the lexicon knows. -/
inductive Terminal where
  | blanks
  | comment
  | identifier
  | number
  | string
  | unterminated
  /-- A mark or a reserved word. -/
  | fixed (kind : Kind)
deriving DecidableEq

namespace Terminal

inductive Matches : Terminal → List Char → Prop
  | blanks {text : List Char} (hne : text ≠ []) (h : ∀ c ∈ text, Segment.isBlank c = true) : Matches .blanks text
  | comment {text : List Char} (h : '\n' ∉ text) : Matches .comment ('/' :: '/' :: text)
  | identifier {c : Char} {cs : List Char} (hc : Segment.isNameStart c = true)
      (hcs : ∀ d ∈ cs, Segment.isNamePart d = true) : Matches .identifier (c :: cs)
  | number {text : List Char} (h : IsNumeral text) : Matches .number text
  | string {inside : List Char} (h : '"' ∉ inside) : Matches .string ('"' :: inside ++ ['"'])
  | unterminated {inside : List Char} (h : '"' ∉ inside) : Matches .unterminated ('"' :: inside)
  | fixed {kind : Kind} {text : List Char} (h : kind.spelling?.map String.toList = some text) :
      Matches (.fixed kind) text

/-- The segment that a text is if the terminal matches it. -/
def segment : Terminal → List Char → Segment
  | .blanks, text => .blanks text
  | .comment, text => .comment text
  | .identifier, text => .lexeme .identifier text
  | .number, text => .lexeme .number text
  | .string, text => .lexeme .string text
  | .unterminated, text => .unterminated text
  | .fixed kind, text => .lexeme kind text

@[simp] theorem segment_text (t : Terminal) (text : List Char) : (t.segment text).text = text := by cases t <;> rfl

/-- The terminal matches a text in front, and no terminal matches a longer one. A text with a spelling of its own
is no identifier. -/
structure IsLongest (cs : List Char) (t : Terminal) (text : List Char) : Prop where
  front : text <+: cs
  matched : t.Matches text
  longest : ∀ t' text', text' <+: cs → Matches t' text' → text'.length ≤ text.length
  unreserved : t = .identifier → ∀ kind, ¬Matches (.fixed kind) text

end Terminal

/-- The segments of a text from left to right, each as long as the lexicon allows. -/
inductive Covers : List Segment → List Char → Prop
  | nil : Covers [] []
  | longest {t : Terminal} {text rest : List Char} {segments : List Segment}
      (h : Terminal.IsLongest (text ++ rest) t text) (hrest : Covers segments rest) :
      Covers (t.segment text :: segments) (text ++ rest)
  | stray {c : Char} {rest : List Char} {segments : List Segment}
      (h : ∀ t text, text <+: c :: rest → ¬Terminal.Matches t text) (hrest : Covers segments rest) :
      Covers (.stray c :: segments) (c :: rest)

/-! ### Spellings -/

namespace Kind

theorem spelling_isLexeme {kind : Kind} {text : List Char} (h : kind.spelling?.map String.toList = some text) :
    IsLexeme kind text := by
  cases kind
  case identifier | string | number | eof => cases h
  case bangEqual | equalEqual | greaterEqual | lessEqual =>
    cases h
    exact .equalMark rfl
  case kwAnd | kwClass | kwElse | kwFalse | kwFun | kwFor | kwIf | kwNil | kwOr | kwPrint | kwReturn | kwSuper |
      kwThis | kwTrue | kwVar | kwWhile =>
    cases h
    exact .keyword rfl rfl rfl
  all_goals
    cases h
    exact .mark rfl

theorem spelling_of_reserved {word : List Char} {kind : Kind} (h : (word, kind) ∈ Segment.reserved) :
    kind.spelling?.map String.toList = some word := by
  have hall : ∀ p ∈ Segment.reserved, p.2.spelling?.map String.toList = some p.1 := by decide
  exact hall _ h

theorem spelling_of_mark {c : Char} {kind : Kind} (h : Segment.markKind? c = some kind) :
    kind.spelling?.map String.toList = some [c] := by
  have hall : (Segment.marks.all fun m => ((Segment.markKind? m).bind spelling?).map String.toList == some [m]) = true := by
    decide
  simpa [h] using List.all_eq_true.mp hall c (Segment.mem_marks h)

theorem spelling_of_equalMark {c : Char} {kind : Kind} (h : Segment.equalKind? c = some kind) :
    kind.spelling?.map String.toList = some [c, '='] := by
  have hall : ∀ p ∈ Segment.longerMarks, p.2.spelling?.map String.toList = some [p.1, '='] := by decide
  exact hall _ (Segment.mem_longerMarks h)

end Kind

theorem IsLexeme.wordKind {kind : Kind} {c : Char} {cs : List Char} (h : IsLexeme kind (c :: cs))
    (hc : Segment.isNameStart c = true) : Segment.wordKind (c :: cs) = kind := by
  cases h with
  | word => rfl
  | numeral h =>
    obtain ⟨d, more, hhead, hd⟩ := h.head
    cases hhead
    rw [isNameStart_of_isDigit hd] at hc
    cases hc
  | string => exact absurd hc (by decide)
  | mark h => exact absurd hc (by simp [(Segment.mark_classes h).2.1])
  | equalMark h =>
    obtain ⟨k, hk⟩ := Segment.markKind?_of_equalKind? h
    exact absurd hc (by simp [(Segment.mark_classes hk).2.1])

/-- The kind of a word is the one with its spelling, if there is one. -/
theorem spelling_wordKind (word : List Char) :
    (Segment.wordKind word).spelling?.map String.toList = some word ∨ Segment.wordKind word = .identifier := by
  unfold Segment.wordKind
  cases hlookup : Segment.reserved.lookup word with
  | none => exact .inr rfl
  | some kind =>
    obtain ⟨before, after, hreserved, -⟩ := List.lookup_eq_some_iff.mp hlookup
    exact .inl (Kind.spelling_of_reserved (by simp [hreserved]))

theorem wordKind_eq_identifier_iff {c : Char} {cs : List Char} (hc : Segment.isNameStart c = true) :
    Segment.wordKind (c :: cs) = .identifier ↔ ∀ kind : Kind, kind.spelling?.map String.toList ≠ some (c :: cs) := by
  constructor
  · intro hword kind hkind
    have hsame := (Kind.spelling_isLexeme hkind).wordKind hc
    rw [← hsame, hword] at hkind
    cases hkind
  · intro hnone
    exact (spelling_wordKind (c :: cs)).resolve_left (hnone _)

/-- A word is a keyword if the whole of it is reserved, and a name otherwise. -/
theorem wordKind_eq_iff {c : Char} {cs : List Char} (hc : Segment.isNameStart c = true) {kind : Kind} :
    Segment.wordKind (c :: cs) = kind ↔ kind.spelling?.map String.toList = some (c :: cs) ∨
      kind = .identifier ∧ ∀ k : Kind, k.spelling?.map String.toList ≠ some (c :: cs) := by
  constructor
  · rintro rfl
    exact (spelling_wordKind _).imp_right fun hword => ⟨hword, (wordKind_eq_identifier_iff hc).mp hword⟩
  · rintro (hspelled | ⟨rfl, hnone⟩)
    · exact (Kind.spelling_isLexeme hspelled).wordKind hc
    · exact (wordKind_eq_identifier_iff hc).mpr hnone

namespace Terminal

theorem matches_fixed_iff {kind : Kind} {text : List Char} :
    Matches (.fixed kind) text ↔ kind.spelling?.map String.toList = some text :=
  ⟨fun h => by cases h with | fixed h => exact h, .fixed⟩

/-- A lexeme is matched by the terminal of its kind. -/
theorem of_isLexeme {kind : Kind} {text : List Char} (h : IsLexeme kind text) :
    ∃ t : Terminal, t.segment text = .lexeme kind text ∧ t.Matches text ∧
      (t = .identifier → ∀ kind, ¬Matches (.fixed kind) text) := by
  have hfixed {kind : Kind} {text : List Char} (h : kind.spelling?.map String.toList = some text) :
      ∃ t : Terminal, t.segment text = .lexeme kind text ∧ t.Matches text ∧
        (t = .identifier → ∀ kind, ¬Matches (.fixed kind) text) :=
    ⟨.fixed kind, rfl, .fixed h, nofun⟩
  cases h with
  | @word c cs hc hcs =>
    rcases spelling_wordKind (c :: cs) with hspelled | hword
    · exact hfixed hspelled
    · refine ⟨.identifier, by rw [hword]; rfl, .identifier hc hcs, fun _ kind hmatch => ?_⟩
      exact (wordKind_eq_identifier_iff hc).mp hword kind (matches_fixed_iff.mp hmatch)
  | numeral h => exact ⟨.number, rfl, .number h, nofun⟩
  | string h => exact ⟨.string, rfl, .string h, nofun⟩
  | mark h => exact hfixed (Kind.spelling_of_mark h)
  | equalMark h => exact hfixed (Kind.spelling_of_equalMark h)

/-! ### What a matched text is cut into -/

namespace Matches

variable {t : Terminal} {text : List Char}

/-- How a matched text starts. -/
theorem head (h : t.Matches text) : ∃ c more, text = c :: more ∧ (Segment.isBlank c = true ∨
    Segment.isNameStart c = true ∨ c.isDigit = true ∨ c = '"' ∨ (Segment.markKind? c).isSome = true) := by
  have hlexeme {kind : Kind} {text : List Char} (h : IsLexeme kind text) : ∃ c more, text = c :: more ∧
      (Segment.isBlank c = true ∨ Segment.isNameStart c = true ∨ c.isDigit = true ∨ c = '"' ∨
        (Segment.markKind? c).isSome = true) := by
    cases h with
    | word hc => exact ⟨_, _, rfl, .inr (.inl hc)⟩
    | numeral h =>
      obtain ⟨c, more, rfl, hc⟩ := h.head
      exact ⟨c, more, rfl, .inr (.inr (.inl hc))⟩
    | string => exact ⟨_, _, rfl, .inr (.inr (.inr (.inl rfl)))⟩
    | mark h => exact ⟨_, _, rfl, .inr (.inr (.inr (.inr (by simp [h]))))⟩
    | equalMark h =>
      obtain ⟨k, hk⟩ := Segment.markKind?_of_equalKind? h
      exact ⟨_, _, rfl, .inr (.inr (.inr (.inr (by simp [hk]))))⟩
  cases h with
  | blanks hne h =>
    obtain ⟨c, cs, rfl⟩ := List.exists_cons_of_ne_nil hne
    exact ⟨c, cs, rfl, .inl (h c List.mem_cons_self)⟩
  | comment => exact ⟨_, _, rfl, .inr (.inr (.inr (.inr rfl)))⟩
  | identifier hc => exact ⟨_, _, rfl, .inr (.inl hc)⟩
  | number h => exact hlexeme (.numeral h)
  | string h => exact hlexeme (.string h)
  | unterminated => exact ⟨_, _, rfl, .inr (.inr (.inr (.inl rfl)))⟩
  | fixed h => exact hlexeme (Kind.spelling_isLexeme h)

theorem ne_nil (h : t.Matches text) : text ≠ [] := by
  obtain ⟨c, more, rfl, -⟩ := h.head
  exact List.cons_ne_nil c more

/-- Alone, a matched text is one segment. -/
theorem split (h : t.Matches text) (hunreserved : t = .identifier → ∀ kind, ¬Matches (.fixed kind) text) :
    Segment.split text = [t.segment text] := by
  have hlexeme {kind : Kind} {text : List Char} (h : IsLexeme kind text) : Segment.split text = [.lexeme kind text] := by
    have hsplit : Segment.split (text ++ []) = .lexeme kind text :: Segment.split [] := h.split (by simp [Delimits])
    rwa [List.append_nil, Segment.split] at hsplit
  have hnone (p : Char → Bool) : ∀ c ∈ ([] : List Char).head?, p c = false := by simp
  cases h with
  | blanks hne h =>
    obtain ⟨c, cs, rfl⟩ := List.exists_cons_of_ne_nil hne
    obtain ⟨hc, hcs⟩ := List.forall_mem_cons.mp h
    obtain ⟨htake, hdrop⟩ := Segment.takeWhile_append_stop hcs (hnone _)
    rw [List.append_nil] at htake hdrop
    rw [Segment.split, Segment.cut, if_pos hc, htake, hdrop, Segment.split]
    rfl
  | @comment body h =>
    have hbody : ∀ c ∈ '/' :: body, (c != '\n') = true :=
      List.forall_mem_cons.mpr ⟨rfl, fun c hc => bne_iff_ne.mpr fun heq => h (heq ▸ hc)⟩
    obtain ⟨htake, hdrop⟩ := Segment.takeWhile_append_stop hbody (hnone _)
    rw [List.append_nil] at htake hdrop
    have hcut : Segment.cut '/' ('/' :: body) =
        (.comment ('/' :: ('/' :: body).takeWhile (· != '\n')), ('/' :: body).dropWhile (· != '\n')) := rfl
    rw [Segment.split, hcut, htake, hdrop, Segment.split]
    rfl
  | @identifier c cs hc hcs =>
    have hword : Segment.wordKind (c :: cs) = .identifier :=
      (wordKind_eq_identifier_iff hc).mpr fun kind hkind => hunreserved rfl kind (.fixed hkind)
    rw [hlexeme (.word hc hcs), hword]
    rfl
  | number h => exact hlexeme (.numeral h)
  | string h => exact hlexeme (.string h)
  | @unterminated inside h =>
    have hinside : ∀ c ∈ inside, (c != '"') = true := fun c hc => bne_iff_ne.mpr fun heq => h (heq ▸ hc)
    obtain ⟨htake, hdrop⟩ := Segment.takeWhile_append_stop hinside (hnone _)
    rw [List.append_nil] at htake hdrop
    have hcut : Segment.cut '"' inside = Segment.cutString inside := rfl
    rw [Segment.split, hcut, Segment.cutString, htake, hdrop, Segment.split]
    rfl
  | fixed h => exact hlexeme (Kind.spelling_isLexeme h)

end Matches

end Terminal

/-! ### No terminal matches more than what is cut off -/

section Length

variable {c : Char} {rest text : List Char}

theorem length_le_takeWhile {p : Char → Bool} {xs cs : List Char} (hfront : xs <+: cs) (hxs : ∀ x ∈ xs, p x = true) :
    xs.length ≤ (cs.takeWhile p).length := by
  obtain ⟨behind, rfl⟩ := hfront
  rw [List.takeWhile_append_of_pos hxs, List.length_append]
  exact Nat.le_add_right _ _

theorem one_le_length_cut : 1 ≤ (Segment.cut c rest).1.text.length := by
  have htext := congrArg List.length (Segment.cut_text c rest)
  have hafter := Segment.cut_length c rest
  rw [List.length_append, List.length_cons] at htext
  omega

theorem IsNumeral.length_le (h : IsNumeral text) (hfront : text <+: c :: rest) :
    text.length ≤ (Segment.cut c rest).1.text.length := by
  have hcut (hc : c.isDigit = true) : Segment.cut c rest = Segment.cutNumeral c rest := by
    rw [Segment.cut, if_neg (by simp [isBlank_of_isDigit hc]), if_neg (by simp [isNameStart_of_isDigit hc]), if_pos hc]
  cases h with
  | whole hne hds =>
    obtain ⟨d, ds, rfl⟩ := List.exists_cons_of_ne_nil hne
    obtain ⟨rfl, hbehind⟩ := List.cons_prefix_cons.mp hfront
    obtain ⟨hd, hds⟩ := List.forall_mem_cons.mp hds
    have hwhole := length_le_takeWhile hbehind hds
    rw [hcut hd, Segment.cutNumeral]
    split
    · split
      · simp only [Segment.text, List.length_append, List.length_cons]
        omega
      · exact Nat.succ_le_succ hwhole
    · exact Nat.succ_le_succ hwhole
  | @fraction ds fs hne hds hfne hfs =>
    obtain ⟨d, ds, rfl⟩ := List.exists_cons_of_ne_nil hne
    obtain ⟨f, fs, rfl⟩ := List.exists_cons_of_ne_nil hfne
    obtain ⟨behind, htext⟩ := hfront
    obtain ⟨rfl, rfl⟩ : d = c ∧ ds ++ '.' :: f :: (fs ++ behind) = rest := by simpa using htext
    obtain ⟨hd, hds⟩ := List.forall_mem_cons.mp hds
    obtain ⟨hf, hfs⟩ := List.forall_mem_cons.mp hfs
    have hpoint : ∀ e ∈ ('.' :: f :: (fs ++ behind)).head?, e.isDigit = false := by
      intro e he
      cases he
      decide
    obtain ⟨htake, hdrop⟩ := Segment.takeWhile_append_stop hds hpoint
    have hfraction := length_le_takeWhile (List.prefix_append fs behind) hfs
    rw [hcut hd, Segment.cutNumeral, htake, hdrop]
    simp only [hf, if_true, Segment.text, List.length_append, List.length_cons]
    omega

theorem IsLexeme.length_le {kind : Kind} (h : IsLexeme kind text) (hfront : text <+: c :: rest) :
    text.length ≤ (Segment.cut c rest).1.text.length := by
  cases h with
  | word hd hds =>
    obtain ⟨rfl, hbehind⟩ := List.cons_prefix_cons.mp hfront
    rw [Segment.cut, if_neg (by simp [isBlank_of_isNameStart hd]), if_pos hd]
    exact Nat.succ_le_succ (length_le_takeWhile hbehind hds)
  | numeral h => exact h.length_le hfront
  | @string inside h =>
    obtain ⟨behind, htext⟩ := hfront
    obtain ⟨rfl, rfl⟩ : '"' = c ∧ inside ++ '"' :: behind = rest := by simpa using htext
    have hsplit := Segment.split_string h behind
    rw [List.append_assoc, List.cons_append, List.singleton_append, Segment.split] at hsplit
    rw [(List.cons.inj hsplit).1]
    exact Nat.le_refl _
  | mark => exact one_le_length_cut
  | @equalMark d kind h =>
    obtain ⟨behind, htext⟩ := hfront
    obtain ⟨rfl, rfl⟩ : d = c ∧ '=' :: behind = rest := by simpa using htext
    have hsplit := Segment.split_equalMark h behind
    rw [Segment.split] at hsplit
    rw [(List.cons.inj hsplit).1]
    exact Nat.le_refl _

theorem Terminal.Matches.length_le {t : Terminal} (h : t.Matches text) (hfront : text <+: c :: rest) :
    text.length ≤ (Segment.cut c rest).1.text.length := by
  cases h with
  | blanks hne h =>
    obtain ⟨d, ds, rfl⟩ := List.exists_cons_of_ne_nil hne
    obtain ⟨rfl, hbehind⟩ := List.cons_prefix_cons.mp hfront
    obtain ⟨hd, hds⟩ := List.forall_mem_cons.mp h
    rw [Segment.cut, if_pos hd]
    exact Nat.succ_le_succ (length_le_takeWhile hbehind hds)
  | @comment body h =>
    obtain ⟨rfl, hbehind⟩ := List.cons_prefix_cons.mp hfront
    have hbody : ∀ c ∈ '/' :: body, (c != '\n') = true :=
      List.forall_mem_cons.mpr ⟨rfl, fun c hc => bne_iff_ne.mpr fun heq => h (heq ▸ hc)⟩
    obtain ⟨more, rfl⟩ : ∃ more, rest = '/' :: more := by
      obtain ⟨behind, rfl⟩ := hbehind
      exact ⟨_, rfl⟩
    have hcut : (Segment.cut '/' ('/' :: more)).1 = .comment ('/' :: ('/' :: more).takeWhile (· != '\n')) := rfl
    rw [hcut]
    exact Nat.succ_le_succ (length_le_takeWhile hbehind hbody)
  | identifier hd hds => exact (IsLexeme.word hd hds).length_le hfront
  | number h => exact h.length_le hfront
  | string h => exact (IsLexeme.string h).length_le hfront
  | @unterminated inside h =>
    obtain ⟨rfl, hbehind⟩ := List.cons_prefix_cons.mp hfront
    have hinside := length_le_takeWhile (p := fun c => c != '"') hbehind
      fun c hc => bne_iff_ne.mpr fun heq => h (heq ▸ hc)
    have hcut : Segment.cut '"' rest = Segment.cutString rest := rfl
    rw [hcut, Segment.cutString]
    split
    · simp only [Segment.text, List.length_append, List.length_cons]
      omega
    · exact Nat.succ_le_succ hinside
  | fixed h => exact (Kind.spelling_isLexeme h).length_le hfront

end Length

/-! ### Covers -/

/-- The segment is that of a terminal that matches its text, and of no other kind than the text is spelled. -/
def Segment.IsMatched (segment : Segment) : Prop :=
  ∃ (t : Terminal) (text : List Char), segment = t.segment text ∧ t.Matches text ∧
    (t = .identifier → ∀ kind, ¬Terminal.Matches (.fixed kind) text)

namespace Segment

theorem isMatched_of_isLexeme {kind : Kind} {text : List Char} (h : IsLexeme kind text) :
    (lexeme kind text).IsMatched := by
  obtain ⟨t, hsame, hmatch, hunreserved⟩ := Terminal.of_isLexeme h
  exact ⟨t, text, hsame.symm, hmatch, hunreserved⟩

theorem cutNumeral_isMatched {c : Char} (hc : c.isDigit = true) (rest : List Char) : (cutNumeral c rest).1.IsMatched := by
  obtain ⟨text, htext⟩ : ∃ text, (cutNumeral c rest).1 = .lexeme .number text := by
    unfold cutNumeral
    dsimp only
    split
    · split <;> exact ⟨_, rfl⟩
    · exact ⟨_, rfl⟩
  rw [htext]
  exact isMatched_of_isLexeme (cutNumeral_isLexeme hc htext)

theorem cutString_isMatched (rest : List Char) : (cutString rest).1.IsMatched := by
  cases hsegment : (cutString rest).1 with
  | lexeme kind text => exact isMatched_of_isLexeme (cutString_isLexeme hsegment)
  | unterminated text =>
    have htext : text = '"' :: rest.takeWhile (· != '"') := by
      unfold cutString at hsegment
      split at hsegment
      · cases hsegment
      · cases hsegment
        rfl
    have hinside : '"' ∉ rest.takeWhile (· != '"') := fun hmem => by simpa using forall_mem_takeWhile _ _ _ hmem
    exact ⟨.unterminated, text, rfl, htext ▸ .unterminated hinside, nofun⟩
  | blanks | comment | stray =>
    unfold cutString at hsegment
    split at hsegment <;> cases hsegment

theorem cutMark_isMatched (c : Char) (rest : List Char) :
    (cutMark c rest).1.IsMatched ∨ ((cutMark c rest).1 = .stray c ∧ markKind? c = none) := by
  unfold cutMark
  split
  next hequal => exact .inl (isMatched_of_isLexeme (.equalMark hequal))
  next =>
    unfold single
    split
    next hmark => exact .inl (isMatched_of_isLexeme (.mark hmark))
    next hnone => exact .inr ⟨rfl, hnone⟩

/-- What is cut off is matched by a terminal, or it is a character that starts nothing the lexicon knows. -/
theorem cut_isMatched (c : Char) (rest : List Char) : (cut c rest).1.IsMatched ∨
    ((cut c rest).1 = .stray c ∧ ¬(isBlank c = true ∨ isNameStart c = true ∨ c.isDigit = true ∨ c = '"' ∨
      (markKind? c).isSome = true)) := by
  unfold cut
  by_cases hblank : isBlank c = true
  · rw [if_pos hblank]
    have hall : ∀ d ∈ c :: rest.takeWhile isBlank, isBlank d = true :=
      List.forall_mem_cons.mpr ⟨hblank, forall_mem_takeWhile _ _⟩
    exact .inl ⟨.blanks, _, rfl, .blanks (List.cons_ne_nil _ _) hall, nofun⟩
  by_cases hname : isNameStart c = true
  · rw [if_neg hblank, if_pos hname]
    exact .inl (isMatched_of_isLexeme (.word hname (forall_mem_takeWhile _ _)))
  by_cases hdigit : c.isDigit = true
  · rw [if_neg hblank, if_neg hname, if_pos hdigit]
    exact .inl (cutNumeral_isMatched hdigit rest)
  by_cases hquote : c = '"'
  · rw [if_neg hblank, if_neg hname, if_neg hdigit, if_pos hquote]
    exact .inl (cutString_isMatched rest)
  rw [if_neg hblank, if_neg hname, if_neg hdigit, if_neg hquote]
  split
  next hslash =>
    obtain ⟨rfl, hhead⟩ : c = '/' ∧ rest.head? = some '/' := by simpa using hslash
    obtain ⟨more, rfl⟩ := List.head?_eq_some_iff.mp hhead
    refine .inl ⟨.comment, _, rfl, .comment fun hmem => ?_, nofun⟩
    simpa using forall_mem_takeWhile (· != '\n') more _ hmem
  next =>
    refine (cutMark_isMatched c rest).imp_right fun ⟨hstray, hnone⟩ => ⟨hstray, ?_⟩
    simp [hblank, hname, hdigit, hquote, hnone]

end Segment

/-- The longest match in front of a text is what is cut off. -/
theorem Terminal.IsLongest.cut {t : Terminal} {c : Char} {rest text : List Char}
    (h : IsLongest (c :: rest) t text) : (Segment.cut c rest).1 = t.segment text := by
  rcases Segment.cut_isMatched c rest with ⟨t', text', hsegment, hmatch, hunreserved⟩ | ⟨-, hnone⟩
  · have hfront : text' <+: c :: rest := by
      have htext := Segment.cut_text c rest
      rw [hsegment, segment_text] at htext
      exact ⟨_, htext⟩
    have hlength : text'.length = text.length := by
      have hle := h.matched.length_le h.front
      rw [hsegment, segment_text] at hle
      exact Nat.le_antisymm (h.longest t' text' hfront hmatch) hle
    have hsame : text' = text := by
      rw [List.prefix_iff_eq_take.mp hfront, List.prefix_iff_eq_take.mp h.front, hlength]
    -- Both terminals match this text, and alone it is cut into one segment.
    subst hsame
    have halone := (hmatch.split hunreserved).symm.trans (h.matched.split h.unreserved)
    rw [hsegment, List.singleton_inj.mp halone]
  · obtain ⟨d, more, rfl, hd⟩ := h.matched.head
    obtain ⟨rfl, -⟩ := List.cons_prefix_cons.mp h.front
    exact absurd hd hnone

theorem covers_split (cs : List Char) : Covers (Segment.split cs) cs := by
  induction cs using Segment.split.induct with
  | case1 =>
    rw [Segment.split]
    exact .nil
  | case2 c rest ih =>
    have htext := Segment.cut_text c rest
    rw [Segment.split]
    rcases Segment.cut_isMatched c rest with ⟨t, text, hsegment, hmatch, hunreserved⟩ | ⟨hsegment, hnone⟩
    · rw [hsegment, Terminal.segment_text] at htext
      rw [hsegment, ← htext]
      refine .longest ⟨List.prefix_append _ _, hmatch, fun t' text' hfront hmatch' => ?_, hunreserved⟩ ih
      have hle := hmatch'.length_le (htext ▸ hfront)
      rwa [hsegment, Terminal.segment_text] at hle
    · rw [hsegment] at htext
      have hrest : (Segment.cut c rest).2 = rest := List.append_cancel_left htext
      rw [hrest] at ih
      rw [hsegment, hrest]
      refine .stray (fun t text hfront hmatch => ?_) ih
      obtain ⟨d, more, rfl, hd⟩ := hmatch.head
      obtain ⟨rfl, -⟩ := List.cons_prefix_cons.mp hfront
      exact hnone hd

/-- A text has one cover, and it is how the text is cut. -/
theorem covers_iff {segments : List Segment} {cs : List Char} : Covers segments cs ↔ segments = Segment.split cs := by
  constructor
  · intro h
    induction h with
    | nil => rw [Segment.split]
    | @longest t text rest segments h _ ih =>
      obtain ⟨c, more, rfl⟩ := List.exists_cons_of_ne_nil h.matched.ne_nil
      have hcut : (Segment.cut c (more ++ rest)).1 = t.segment (c :: more) := h.cut
      have htext := Segment.cut_text c (more ++ rest)
      rw [hcut, Terminal.segment_text, ← List.cons_append] at htext
      rw [List.cons_append, Segment.split, hcut, List.append_cancel_left htext, ih]
    | @stray c rest segments h _ ih =>
      have htext := Segment.cut_text c rest
      rcases Segment.cut_isMatched c rest with ⟨t, text, hsegment, hmatch, -⟩ | ⟨hsegment, -⟩
      · rw [hsegment, Terminal.segment_text] at htext
        exact absurd hmatch (h t text ⟨_, htext⟩)
      · rw [hsegment] at htext
        rw [Segment.split, hsegment, List.append_cancel_left htext, ih]
  · rintro rfl
    exact covers_split cs

/-! ### What a segment is, and what stands behind it -/

/-- What a segment of a cover is when the given text stands behind it. -/
def Segment.StandsBefore (rest : List Char) : Segment → Prop
  | .blanks text => text ≠ [] ∧ (∀ c ∈ text, isBlank c = true) ∧ ∀ c ∈ rest.head?, isBlank c = false
  | .comment text => (∃ body, text = '/' :: '/' :: body ∧ '\n' ∉ body) ∧ ∀ c ∈ rest.head?, c = '\n'
  | .lexeme kind text => IsLexeme kind text
  | .stray c => ∀ t text, text <+: c :: rest → ¬Terminal.Matches t text
  | .unterminated text => (∃ inside, text = '"' :: inside ∧ '"' ∉ inside) ∧ rest = []

theorem Segment.StandsBefore.text_ne_nil {segment : Segment} {rest : List Char} (h : segment.StandsBefore rest) :
    segment.text ≠ [] := by
  cases segment with
  | blanks text => exact h.1
  | comment text =>
    obtain ⟨⟨body, rfl, -⟩, -⟩ := h
    exact List.cons_ne_nil _ _
  | lexeme kind text =>
    obtain ⟨c, more, rfl, -⟩ := IsLexeme.head_not_blank h
    exact List.cons_ne_nil c more
  | stray c => exact List.cons_ne_nil c []
  | unterminated text =>
    obtain ⟨⟨inside, rfl, -⟩, -⟩ := h
    exact List.cons_ne_nil _ _

theorem Terminal.IsLongest.standsBefore {t : Terminal} {text rest : List Char} (h : IsLongest (text ++ rest) t text) :
    (t.segment text).StandsBefore rest := by
  have hlonger {d : Char} (hd : d ∈ rest.head?) (t' : Terminal) : ¬t'.Matches (text ++ [d]) := by
    obtain ⟨more, rfl⟩ := List.head?_eq_some_iff.mp hd
    intro hmatch
    have hle := h.longest t' (text ++ [d]) ⟨more, by simp⟩ hmatch
    rw [List.length_append, List.length_singleton] at hle
    omega
  cases h.matched with
  | blanks hne hall =>
    refine ⟨hne, hall, fun d hd => Bool.eq_false_iff.mpr fun hblank => hlonger hd .blanks ?_⟩
    exact .blanks (by simp) (List.forall_mem_append.mpr ⟨hall, by simpa using hblank⟩)
  | @comment body hbody =>
    refine ⟨⟨body, rfl, hbody⟩, fun d hd => by_contra fun hbreak => hlonger hd .comment ?_⟩
    exact @Matches.comment (body ++ [d]) (by simpa [hbody] using Ne.symm hbreak)
  | @identifier c cs hc hcs =>
    have hword : Segment.wordKind (c :: cs) = .identifier :=
      (wordKind_eq_identifier_iff hc).mpr fun kind hkind => h.unreserved rfl kind (.fixed hkind)
    change IsLexeme .identifier (c :: cs)
    rw [← hword]
    exact .word hc hcs
  | number hnumeral => exact .numeral hnumeral
  | string hinside => exact .string hinside
  | @unterminated inside hinside =>
    refine ⟨⟨inside, rfl, hinside⟩, List.eq_nil_iff_forall_not_mem.mpr fun _ hmem => ?_⟩
    obtain ⟨d, more, rfl⟩ := List.exists_cons_of_ne_nil (List.ne_nil_of_mem hmem)
    by_cases hquote : d = '"'
    · subst hquote
      exact hlonger rfl .string (.string hinside)
    · exact hlonger rfl .unterminated (@Matches.unterminated (inside ++ [d]) (by simpa [hinside] using Ne.symm hquote))
  | fixed hkind => exact Kind.spelling_isLexeme hkind

theorem Covers.text {segments : List Segment} {cs : List Char} (h : Covers segments cs) :
    segments.flatMap Segment.text = cs := by
  rw [covers_iff.mp h, Segment.split_text]

/-- Every segment of a cover, before the segments that come after it. -/
theorem Covers.standsBefore {before after : List Segment} {segment : Segment} {cs : List Char}
    (h : Covers (before ++ segment :: after) cs) : segment.StandsBefore (after.flatMap Segment.text) := by
  induction before generalizing cs with
  | nil =>
    cases h with
    | longest h hrest =>
      rw [hrest.text]
      exact h.standsBefore
    | stray h hrest =>
      rw [hrest.text]
      exact h
  | cons first before ih =>
    cases h with
    | longest _ hrest => exact ih hrest
    | stray _ hrest => exact ih hrest

end LoxLang
