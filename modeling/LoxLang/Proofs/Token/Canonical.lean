import LoxLang.Proofs.Token.Lexeme
/-!
# Canonical text

The lexemes of tokens one after the other, with one space between each and the next, are a text that
scans to these tokens again. Comments, blanks and stray characters are gone, and so is whatever stood
close together: a space makes no lexeme longer, and every lexeme alone is recognised as what it was.
A string may hold spaces, slashes and line breaks of its own, which are cut off with it.
-/

namespace LoxLang

/-- The lexemes of tokens with single spaces between them. -/
def canonicalText (tokens : List Token) : String := " ".intercalate (tokens.map Token.text)

theorem toList_canonicalText_cons (t next : Token) (rest : List Token) :
    (canonicalText (t :: next :: rest)).toList = t.text.toList ++ ([' '] ++ (canonicalText (next :: rest)).toList) := by
  rw [canonicalText, List.map_cons, List.map_cons, String.intercalate_cons_cons]
  simp [canonicalText]

namespace Token

/-- The lexeme of a token as a piece of a text. -/
def segment (t : Token) : Segment := .lexeme t.kind t.text.toList

/-- The pieces of canonical text. -/
def spaced : List Token → List Segment
  | [] => []
  | [t] => [t.segment]
  | t :: next :: rest => t.segment :: .blanks [' '] :: spaced (next :: rest)

theorem spaced_tidy (tokens : List Token) : ∀ s ∈ spaced tokens, s.isTidy = true := by
  fun_induction spaced tokens with
  | case1 => simp
  | case2 t => simp [segment, Segment.isTidy]
  | case3 t next rest ih =>
    have hspace : ∀ s ∈ .blanks [' '] :: spaced (next :: rest), Segment.isTidy s = true :=
      List.forall_mem_cons.mpr ⟨rfl, ih⟩
    exact List.forall_mem_cons.mpr ⟨rfl, hspace⟩

/-- A scanned token is the one that its lexeme gives. -/
theorem IsScanned.tokens_segment {t : Token} (h : t.IsScanned) : t.segment.tokens = [t.bare] := by
  rw [h.lexeme.2]
  rfl

theorem spaced_tokens {tokens : List Token} (h : ∀ t ∈ tokens, t.IsScanned) :
    (spaced tokens).flatMap Segment.tokens = tokens.map bare := by
  fun_induction spaced tokens with
  | case1 => rfl
  | case2 t => simp [(h t (by simp)).tokens_segment]
  | case3 t next rest ih =>
    obtain ⟨ht, hrest⟩ := List.forall_mem_cons.mp h
    rw [List.flatMap_cons, List.flatMap_cons, ih hrest, ht.tokens_segment]
    rfl

end Token

open Token

/-- Canonical text starts with a lexeme, which no blank starts. -/
theorem canonicalText_head {t : Token} (ht : t.IsScanned) (rest : List Token) :
    ∀ c ∈ (canonicalText (t :: rest)).toList.head?, Segment.isBlank c = false := by
  obtain ⟨first, more, htext, hblank⟩ := ht.lexeme.1.head_not_blank
  have hfront : ∃ behind, (canonicalText (t :: rest)).toList = t.text.toList ++ behind := by
    cases rest with
    | nil => exact ⟨[], by simp [canonicalText]⟩
    | cons next rest => exact ⟨_, toList_canonicalText_cons t next rest⟩
  obtain ⟨behind, hbehind⟩ := hfront
  intro c hc
  rw [hbehind, htext] at hc
  cases hc
  exact hblank

/-- Canonical text is cut at its spaces and nowhere else, but for those inside of strings. -/
theorem cuts_canonicalText {tokens : List Token} (h : ∀ t ∈ tokens, t.IsScanned) :
    Cuts (canonicalText tokens).toList (spaced tokens) [] := by
  fun_induction spaced tokens with
  | case1 => exact Cuts.nil []
  | case2 t =>
    have hlexeme : Cuts t.text.toList [t.segment] [] := .lexeme (h t (by simp)).lexeme.1 (by simp [Delimits])
    simpa [canonicalText] using hlexeme
  | case3 t next rest ih =>
    obtain ⟨ht, hrest⟩ := List.forall_mem_cons.mp h
    have hspace : Cuts [' '] [.blanks [' ']] ((canonicalText (next :: rest)).toList ++ []) := by
      apply Cuts.space
      rw [List.append_nil]
      exact canonicalText_head (hrest next (by simp)) rest
    have hlexeme : Cuts t.text.toList [t.segment] ([' '] ++ (canonicalText (next :: rest)).toList ++ []) :=
      .lexeme ht.lexeme.1 (delimits_cons (by decide) _)
    rw [toList_canonicalText_cons]
    exact hlexeme.append (hspace.append (ih hrest))

/-- Tokens that a scan can give are scanned again from their canonical text, and nothing is reported about it. -/
theorem scan_canonicalText_of_scanned {tokens : List Token} (h : ∀ t ∈ tokens, t.IsScanned) :
    (scan (canonicalText tokens)).tokens.map Token.bare = tokens.map Token.bare ∧
      (scan (canonicalText tokens)).diagnostics = [] := by
  rw [← spaced_tokens h]
  exact scan_of_cuts (cuts_canonicalText h) (spaced_tidy tokens)

/-- All of a token but its line. -/
def Token.content (t : Token) : Kind × Json × Json := (t.kind, t.lexeme, t.literal)

theorem map_content_eq_of_bare {tokens tokens' : List Token} (h : tokens.map Token.bare = tokens'.map Token.bare) :
    tokens.map Token.content = tokens'.map Token.content := by
  have hcontent := congrArg (List.map Token.content) h
  rwa [List.map_map, List.map_map] at hcontent

/-- Whatever a text is, mistakes in it included, its tokens put together with single spaces are scanned without a report
to the same kinds, lexemes and values in the same order, up to the mark of the end. -/
theorem scan_canonicalText (source : String) :
    (scan (canonicalText (scan source).tokens)).diagnostics = [] ∧
      ((scan (canonicalText (scan source).tokens)).tokens ++ [(scan (canonicalText (scan source).tokens)).eof]).map
        Token.content = ((scan source).tokens ++ [(scan source).eof]).map Token.content := by
  have hscanned : ∀ t ∈ (scan source).tokens, t.IsScanned := fun t ht => scan_isScanned ht
  obtain ⟨hbare, hclean⟩ := scan_canonicalText_of_scanned hscanned
  have heof (text : String) : (scan text).eof.content = (.eof, .str "", .null) := by
    rw [scan, Scan.ofSegments_eof]
    rfl
  refine ⟨hclean, ?_⟩
  rw [List.map_append, List.map_append, map_content_eq_of_bare hbare, List.map_singleton, List.map_singleton, heof, heof]

end LoxLang
