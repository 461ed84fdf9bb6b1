import LoxLang.Proofs.Number.ReadBack
import LoxLang.Proofs.Token.Join
import LoxLang.Proofs.Token.Lexicon
/-!
# What a scan makes of a text

A scan goes along the one cover of its text: the lexemes give the tokens in order, each with the value
its characters spell; every stray character and every string that never ends is reported once, in
order. The same comes out of a scanner that gives its lexer a slice of the text, up to the first
character the lexer knows nothing for, and starts again with the slice behind that character.
-/

namespace LoxLang

/-- The value that a lexeme of the kind spells. -/
inductive LiteralOf : Kind → List Char → Json → Prop
  | whole {ds : List Char} (hds : ∀ c ∈ ds, c.isDigit = true) :
      LiteralOf .number ds (.num (Number.ofDecimal (Nat.ofDigitChars 10 ds 0) 0))
  | fraction {ds fs : List Char} (hds : ∀ c ∈ ds, c.isDigit = true) (hfs : ∀ c ∈ fs, c.isDigit = true) :
      LiteralOf .number (ds ++ '.' :: fs)
        (.num (Number.ofDecimal (Nat.ofDigitChars 10 (ds ++ fs) 0) (-(fs.length : Int))))
  | string {inside : List Char} : LiteralOf .string ('"' :: inside ++ ['"']) (.str (String.ofList inside))
  | none {kind : Kind} {text : List Char} (hnumber : kind ≠ .number) (hstring : kind ≠ .string) :
      LiteralOf kind text .null

/-- The token of a lexeme, on whatever line. -/
def Token.IsOf (t : Token) (lexeme : Kind × List Char) : Prop :=
  t.kind = lexeme.1 ∧ t.lexeme = .str (String.ofList lexeme.2) ∧ LiteralOf lexeme.1 lexeme.2 t.literal

namespace Segment

def lexeme? : Segment → Option (Kind × List Char)
  | lexeme kind text => some (kind, text)
  | _ => none

def complaint? : Segment → Option Complaint
  | stray _ => some .unexpectedCharacter
  | unterminated _ => some .unterminatedString
  | _ => none

def isStray : Segment → Bool
  | stray _ => true
  | _ => false

end Segment

/-- A scan of the segments of a text. -/
structure Scan.Reads (scan : Scan) (segments : List Segment) : Prop where
  tokens : List.Forall₂ Token.IsOf scan.tokens (segments.filterMap Segment.lexeme?)
  diagnostics : scan.diagnostics.map (fun d => (d.place, d.complaint)) =
    (segments.filterMap Segment.complaint?).map fun complaint => (.nowhere, complaint)
  eof : scan.eof = ⟨.eof, .str "", .null, 1 + (segments.flatMap Segment.text).count '\n'⟩
  no_other_eof : ∀ t ∈ scan.tokens, t.kind ≠ .eof

/-! ### Literals -/

theorem IsLexeme.literal {kind : Kind} {text : List Char} (h : IsLexeme kind text) :
    LiteralOf kind text (Token.literalOf kind text) := by
  obtain ⟨t, hsegment, hmatch, -⟩ := Terminal.of_isLexeme h
  cases hmatch with
  | blanks | comment | unterminated => cases hsegment
  | identifier =>
    cases hsegment
    exact .none nofun nofun
  | number hnumeral =>
    cases hsegment
    cases hnumeral with
    | whole hne hds =>
      rw [Token.literalOf, Number.ofNumeral_whole hds]
      exact .whole hds
    | fraction hne hds hfne hfs =>
      rw [Token.literalOf, Number.ofNumeral_fraction hds]
      exact .fraction hds hfs
  | @string inside =>
    cases hsegment
    have hinside : (('"' :: inside ++ ['"']).drop 1).dropLast = inside := by simp
    rw [Token.literalOf, hinside]
    exact .string
  | fixed hspelled =>
    cases hsegment
    cases kind
    case number | string => cases hspelled
    all_goals exact .none nofun nofun

theorem IsLexeme.kind_ne_eof {kind : Kind} {text : List Char} (h : IsLexeme kind text) : kind ≠ .eof := by
  obtain ⟨t, hsegment, hmatch, -⟩ := Terminal.of_isLexeme h
  rintro rfl
  cases t <;> cases hsegment
  cases hmatch with
  | fixed h => cases h

/-! ### The tokens and the reports of the segments -/

namespace Scan

theorem ofSegments_tokens_isOf {segments : List Segment}
    (hlexemes : ∀ kind text, .lexeme kind text ∈ segments → IsLexeme kind text) (line : Int) :
    List.Forall₂ Token.IsOf (ofSegments line segments).tokens (segments.filterMap Segment.lexeme?) := by
  induction segments generalizing line with
  | nil => exact .nil
  | cons segment rest ih =>
    have hrest := ih (fun kind text hmem => hlexemes kind text (List.mem_cons_of_mem _ hmem))
      (line + lineBreaks segment.text)
    cases segment with
    | lexeme kind text =>
      exact .cons ⟨rfl, rfl, (hlexemes kind text List.mem_cons_self).literal⟩ hrest
    | blanks | comment | stray | unterminated => exact hrest

theorem ofSegments_complaints (line : Int) (segments : List Segment) :
    (ofSegments line segments).diagnostics.map (fun d => (d.place, d.complaint)) =
      (segments.filterMap Segment.complaint?).map fun complaint => (.nowhere, complaint) := by
  induction segments generalizing line with
  | nil => rfl
  | cons segment rest ih =>
    have hrest := ih (line + lineBreaks segment.text)
    cases segment with
    | stray | unterminated => exact congrArg (_ :: ·) hrest
    | blanks | comment | lexeme => exact hrest

theorem reads_split (source : String) : (scan source).Reads (Segment.split source.toList) where
  tokens := ofSegments_tokens_isOf (fun _ _ hmem => Segment.split_isLexeme hmem) 1
  diagnostics := ofSegments_complaints 1 _
  eof := ofSegments_eof 1 _
  no_other_eof t ht := by
    obtain ⟨kind, text, hlexeme, htoken⟩ := scan_isScanned ht
    rw [htoken]
    exact hlexeme.kind_ne_eof

/-! ### Starting again behind a stray character -/

/-- A scan from an offset on, where the given line starts. The lexer reads the slice up to the first character it knows
nothing for, and the scan starts again behind that. -/
def restart (source : List Char) (offset : Nat) (line : Int) : Scan :=
  let slice := source.drop offset
  let known := (Segment.split slice).takeWhile fun segment => !segment.isStray
  let found := ofSegments line known
  let read := known.flatMap Segment.text
  if _ : read.length < slice.length then
    let line := line + lineBreaks read
    let behind := restart source (offset + read.length + 1) line
    ⟨found.tokens ++ behind.tokens, behind.eof,
      found.diagnostics ++ ⟨line, .nowhere, .unexpectedCharacter⟩ :: behind.diagnostics⟩
  else ⟨found.tokens, Token.atEnd (1 + lineBreaks source), found.diagnostics⟩
termination_by source.length - offset
decreasing_by
  rename_i h
  rw [List.length_drop] at h
  omega

/-- A text is known as a whole, or up to a stray character, and then it is cut behind that as if it began there. -/
theorem split_stray {cs : List Char} {known : List Segment}
    (hknown : (Segment.split cs).takeWhile (fun segment => !segment.isStray) = known) :
    (Segment.split cs = known ∧ cs = known.flatMap Segment.text) ∨
      ∃ c rest, c ≠ '\n' ∧ Segment.split cs = known ++ .stray c :: Segment.split rest ∧
        cs = known.flatMap Segment.text ++ c :: rest := by
  induction cs using Segment.split.induct generalizing known with
  | case1 =>
    rw [Segment.split, List.takeWhile_nil] at hknown
    rw [Segment.split, ← hknown]
    exact .inl ⟨rfl, rfl⟩
  | case2 c rest ih =>
    have htext := Segment.cut_text c rest
    have hmatched := Segment.cut_isMatched c rest
    rw [Segment.split] at hknown ⊢
    generalize Segment.cut c rest = piece at *
    obtain ⟨first, after⟩ := piece
    rcases hmatched with ⟨t, text, rfl, -, -⟩ | ⟨rfl, hnone⟩
    · have hfirst : (t.segment text).isStray = false := by cases t <;> rfl
      rw [List.takeWhile_cons_of_pos (by simp [hfirst])] at hknown
      subst hknown
      rw [List.flatMap_cons, ← htext]
      rcases ih rfl with ⟨hsplit, hall⟩ | ⟨d, behind, hd, hsplit, hall⟩
      · exact .inl ⟨congrArg _ hsplit, congrArg _ hall⟩
      · refine .inr ⟨d, behind, hd, congrArg _ hsplit, ?_⟩
        rw [List.append_assoc]
        exact congrArg _ hall
    · rw [List.takeWhile_cons_of_neg (by simp [Segment.isStray])] at hknown
      obtain rfl : after = rest := List.append_cancel_left htext
      refine .inr ⟨c, after, ?_, by rw [← hknown]; rfl, by rw [← hknown]; rfl⟩
      rintro rfl
      exact hnone (.inl rfl)

theorem ofSegments_append (line : Int) (xs ys : List Segment) :
    ofSegments line (xs ++ ys) =
      (ofSegments line xs).join (ofSegments (line + lineBreaks (xs.flatMap Segment.text)) ys) := by
  induction xs generalizing line with
  | nil => simp [ofSegments, join, lineBreaks]
  | cons segment rest ih =>
    have hline : line + lineBreaks ((segment :: rest).flatMap Segment.text) =
        line + lineBreaks segment.text + lineBreaks (rest.flatMap Segment.text) := by
      rw [List.flatMap_cons, lineBreaks_append]
      omega
    rw [List.cons_append, ofSegments_cons, ih, ← join_assoc, ← ofSegments_cons, hline]

theorem restart_eq (source : List Char) (offset : Nat) (line : Int)
    (hline : line + lineBreaks (source.drop offset) = 1 + lineBreaks source) :
    restart source offset line = ofSegments line (Segment.split (source.drop offset)) := by
  induction hlength : source.length - offset using Nat.strong_induction_on generalizing offset line with
  | _ n ih =>
    subst hlength
    generalize hknown : (Segment.split (source.drop offset)).takeWhile (fun segment => !segment.isStray) = known
    rw [restart, hknown]
    dsimp only
    rcases split_stray hknown with ⟨hsplit, hall⟩ | ⟨c, rest, hc, hsplit, hall⟩
    · have heof := ofSegments_eof line known
      rw [← hall, hline] at heof
      rw [dif_neg (by rw [← hall]; exact Nat.lt_irrefl _), hsplit, ← heof]
    · generalize hread : known.flatMap Segment.text = read at *
      have hrest : source.drop (offset + read.length + 1) = rest := by
        rw [Nat.add_assoc, ← List.drop_drop, hall, List.drop_length_add_append]
        rfl
      have hshorter : source.length - (offset + read.length + 1) < source.length - offset := by
        have := congrArg List.length hall
        rw [List.length_drop, List.length_append, List.length_cons] at this
        omega
      have hstray (cs : List Char) : lineBreaks (c :: cs) = lineBreaks cs := List.count_cons_of_ne hc
      have hbehind := ih _ hshorter (offset + read.length + 1) (line + lineBreaks read)
        (by rw [hrest, ← hline, hall, lineBreaks_append, hstray]; omega) rfl
      have hown : lineBreaks [c] = 0 := hstray []
      rw [dif_pos (by rw [hall, List.length_append, List.length_cons]; omega), hbehind, hrest, hsplit, ofSegments_append,
        hread, ofSegments_cons _ (.stray c)]
      simp only [ofSegments, Segment.text, hown, join, Int.natCast_zero, Int.add_zero, List.nil_append,
        List.singleton_append]

end Scan

/-- Every text has exactly one cover, a scan gives its lexemes and its complaints in order, and starting again behind
each stray character makes no difference. -/
theorem scan_covers (source : String) : ∃ segments, Covers segments source.toList ∧
    (∀ other, Covers other source.toList → other = segments) ∧
    segments.flatMap Segment.text = source.toList ∧
    (∀ segment ∈ segments, segment.text ≠ []) ∧
    (∀ before segment after, segments = before ++ segment :: after →
      segment.StandsBefore (after.flatMap Segment.text)) ∧
    (∀ kind text, .lexeme kind text ∈ segments → Terminal.Matches .identifier text → ∀ k : Kind,
      kind = k ↔ k.spelling?.map String.toList = some text ∨
        k = .identifier ∧ ∀ k' : Kind, k'.spelling?.map String.toList ≠ some text) ∧
    (scan source).Reads segments ∧
    scan source = Scan.restart source.toList 0 1 := by
  refine ⟨_, covers_split _, fun _ => covers_iff.mp, Segment.split_text _, ?_, ?_, ?_, Scan.reads_split source, ?_⟩
  · intro segment hmem
    obtain ⟨before, after, hsplit⟩ := List.append_of_mem hmem
    exact Segment.StandsBefore.text_ne_nil (Covers.standsBefore (hsplit ▸ covers_split source.toList))
  · rintro before segment after hsplit
    exact Covers.standsBefore (hsplit ▸ covers_split source.toList)
  · intro kind text hmem hword k
    cases hword with
    | identifier hc => rw [← (Segment.split_isLexeme hmem).wordKind hc, wordKind_eq_iff hc]
  · exact (Scan.restart_eq source.toList 0 1 rfl).symm

end LoxLang
