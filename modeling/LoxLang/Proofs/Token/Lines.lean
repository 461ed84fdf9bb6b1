import LoxLang.Token.Scan
/-!
# Where tokens stand

Cutting a source text loses nothing of it: the texts of the segments in a row are the source. So the
line breaks before a segment are those of the source, and every token and every diagnostic of a scan
stands on a line that the source has.
-/

namespace LoxLang

namespace Segment

theorem cutMark_text (c : Char) (rest : List Char) : (cutMark c rest).1.text ++ (cutMark c rest).2 = c :: rest := by
  have hsingle : (single c).text = [c] := by
    unfold single
    split <;> rfl
  unfold cutMark
  split
  · rfl
  · rw [hsingle]
    rfl

theorem cutNumeral_text (c : Char) (rest : List Char) :
    (cutNumeral c rest).1.text ++ (cutNumeral c rest).2 = c :: rest := by
  have hrest : rest.takeWhile Char.isDigit ++ rest.dropWhile Char.isDigit = rest := List.takeWhile_append_dropWhile
  have hwhole : (c :: rest.takeWhile Char.isDigit) ++ rest.dropWhile Char.isDigit = c :: rest := by
    rw [List.cons_append, hrest]
  unfold cutNumeral
  dsimp only
  split
  next d more hafter =>
    split
    · have hmore : more.takeWhile Char.isDigit ++ more.dropWhile Char.isDigit = more := List.takeWhile_append_dropWhile
      rw [hafter] at hwhole
      simpa only [text, List.append_assoc, List.cons_append, hmore] using hwhole
    · exact hwhole
  next => exact hwhole

theorem cutString_text (rest : List Char) : (cutString rest).1.text ++ (cutString rest).2 = '"' :: rest := by
  have hrest : rest.takeWhile (· != '"') ++ rest.dropWhile (· != '"') = rest := List.takeWhile_append_dropWhile
  unfold cutString
  dsimp only
  split
  next quote after hafter =>
    rw [hafter] at hrest
    simpa [text] using hrest
  next hafter =>
    rw [hafter, List.append_nil] at hrest
    simp [text, hrest]

theorem cut_text (c : Char) (rest : List Char) : (cut c rest).1.text ++ (cut c rest).2 = c :: rest := by
  have htaken (p : Char → Bool) : c :: rest.takeWhile p ++ rest.dropWhile p = c :: rest := by
    rw [List.cons_append, List.takeWhile_append_dropWhile]
  unfold cut
  split
  · exact htaken isBlank
  split
  · exact htaken isNamePart
  split
  · exact cutNumeral_text c rest
  split
  next hquote =>
    rw [hquote]
    exact cutString_text rest
  split
  · exact htaken (· != '\n')
  · exact cutMark_text c rest

/-- The texts of the segments in a row are the source. -/
theorem split_text (cs : List Char) : (split cs).flatMap text = cs := by
  induction cs using split.induct with
  | case1 => simp [split]
  | case2 c rest ih =>
    rw [split, List.flatMap_cons, ih]
    exact cut_text c rest

end Segment

namespace Scan

theorem lineBreaks_append (xs ys : List Char) : lineBreaks (xs ++ ys) = lineBreaks xs + lineBreaks ys :=
  List.count_append

theorem ofSegments_eof (line : Int) (segments : List Segment) :
    (ofSegments line segments).eof = Token.atEnd (line + lineBreaks (segments.flatMap Segment.text)) := by
  induction segments generalizing line with
  | nil => simp [ofSegments, lineBreaks]
  | cons segment rest ih =>
    have hline : line + lineBreaks segment.text + lineBreaks (rest.flatMap Segment.text)
        = line + lineBreaks ((segment :: rest).flatMap Segment.text) := by
      rw [List.flatMap_cons, lineBreaks_append]
      omega
    rw [← hline, ← ih]
    cases segment <;> rfl

/-- Every token is that of a lexeme, on a line that the text reaches. -/
theorem ofSegments_tokens {line : Int} {segments : List Segment} {t : Token} (ht : t ∈ (ofSegments line segments).tokens) :
    (∃ kind text, .lexeme kind text ∈ segments ∧ t = Token.ofLexeme kind text t.line) ∧
      line ≤ t.line ∧ t.line ≤ line + lineBreaks (segments.flatMap Segment.text) := by
  induction segments generalizing line with
  | nil => simp [ofSegments] at ht
  | cons segment rest ih =>
    rw [List.flatMap_cons, lineBreaks_append]
    -- A token behind the first segment stands where it stands without that segment.
    have hbehind (h : t ∈ (ofSegments (line + lineBreaks segment.text) rest).tokens) :
        (∃ kind text, .lexeme kind text ∈ segment :: rest ∧ t = Token.ofLexeme kind text t.line) ∧ line ≤ t.line ∧
          t.line ≤ line + (lineBreaks segment.text + lineBreaks (rest.flatMap Segment.text) : Nat) := by
      obtain ⟨⟨kind, text, hmem, htoken⟩, hlow, hhigh⟩ := ih h
      exact ⟨⟨kind, text, List.mem_cons_of_mem _ hmem, htoken⟩, by omega, by omega⟩
    cases segment with
    | lexeme kind text =>
      rw [show (ofSegments line (.lexeme kind text :: rest)).tokens = Token.ofLexeme kind text (line + lineBreaks text) ::
        (ofSegments (line + lineBreaks text) rest).tokens from rfl, List.mem_cons] at ht
      rcases ht with rfl | ht
      · refine ⟨⟨kind, text, List.mem_cons_self .., rfl⟩, ?_, ?_⟩
        · simp only [Token.ofLexeme]
          omega
        · simp only [Token.ofLexeme, Segment.text]
          omega
      · exact hbehind ht
    | stray c => exact hbehind ht
    | unterminated text => exact hbehind ht
    | blanks text => exact hbehind ht
    | comment text => exact hbehind ht

theorem ofSegments_diagnostics {line : Int} {segments : List Segment} {d : Diagnostic}
    (hd : d ∈ (ofSegments line segments).diagnostics) :
    line ≤ d.line ∧ d.line ≤ line + lineBreaks (segments.flatMap Segment.text) := by
  induction segments generalizing line with
  | nil => simp [ofSegments] at hd
  | cons segment rest ih =>
    rw [List.flatMap_cons, lineBreaks_append]
    have hbehind (h : d ∈ (ofSegments (line + lineBreaks segment.text) rest).diagnostics) : line ≤ d.line ∧
        d.line ≤ line + (lineBreaks segment.text + lineBreaks (rest.flatMap Segment.text) : Nat) := by
      have := ih h
      omega
    have hfirst (place : Place) (complaint : Complaint)
        (h : d ∈ ⟨line + lineBreaks segment.text, place, complaint⟩ ::
          (ofSegments (line + lineBreaks segment.text) rest).diagnostics) : line ≤ d.line ∧
        d.line ≤ line + (lineBreaks segment.text + lineBreaks (rest.flatMap Segment.text) : Nat) := by
      rcases List.mem_cons.mp h with rfl | h
      · dsimp only
        omega
      · exact hbehind h
    cases segment with
    | stray c => exact hfirst _ _ hd
    | unterminated text => exact hfirst _ _ hd
    | lexeme kind text => exact hbehind hd
    | blanks text => exact hbehind hd
    | comment text => exact hbehind hd

end Scan

/-! ### Whole texts -/

/-- A line of a text: there is one more than it has line breaks. -/
def IsLineOf (source : String) (line : Int) : Prop := 1 ≤ line ∧ line ≤ source.toList.count '\n' + 1

private theorem lineBreaks_split (source : String) :
    Scan.lineBreaks ((Segment.split source.toList).flatMap Segment.text) = source.toList.count '\n' := by
  rw [Segment.split_text, Scan.lineBreaks]

theorem scan_token_line {source : String} {t : Token} (ht : t ∈ (scan source).tokens) : IsLineOf source t.line := by
  obtain ⟨-, hlow, hhigh⟩ := Scan.ofSegments_tokens ht
  rw [lineBreaks_split] at hhigh
  exact ⟨hlow, by omega⟩

theorem scan_eof_line (source : String) : IsLineOf source (scan source).eof.line := by
  rw [scan, Scan.ofSegments_eof, lineBreaks_split]
  simp only [IsLineOf, Token.atEnd]
  omega

theorem scan_diagnostic_line {source : String} {d : Diagnostic} (hd : d ∈ (scan source).diagnostics) :
    IsLineOf source d.line := by
  obtain ⟨hlow, hhigh⟩ := Scan.ofSegments_diagnostics hd
  rw [lineBreaks_split] at hhigh
  exact ⟨hlow, by omega⟩

/-- The lexeme of a scanned token is a text. -/
theorem scan_token_lexeme {source : String} {t : Token} (ht : t ∈ (scan source).tokens) :
    ∃ name, t.lexeme = .str name := by
  obtain ⟨⟨kind, text, -, htoken⟩, -, -⟩ := Scan.ofSegments_tokens ht
  rw [htoken]
  exact ⟨_, rfl⟩

end LoxLang
