import LoxLang.Proofs.Token.Cover
/-!
# Lines and offsets

The line of a place in a text is one more than the number of line breaks in front of it. So every line
that a scan gives can be read off the text: a token is on the line of the place where its lexeme ends,
a stray character on its own line, and what is wrong with a string that never ends is on the last line,
like the end itself.

A scanner that starts again behind every stray character has a lexer that counts lines from the start
of the slice it is given. It comes to the same lines if it moves them to the line on which the slice
starts, and that line is found by moving the line of the stray character in the same way.
-/

namespace LoxLang

/-- The line of the place behind the first `k` characters. -/
def lineAt (cs : List Char) (k : Nat) : Int := 1 + (cs.take k).count '\n'

namespace Segment

/-- A segment and the offset where it starts. -/
structure Placed where
  offset : Nat
  segment : Segment

/-- The segments one after the other, the first of them at the given offset. -/
def placedFrom (offset : Nat) : List Segment → List Placed
  | [] => []
  | segment :: rest => ⟨offset, segment⟩ :: placedFrom (offset + segment.text.length) rest

namespace Placed

/-- The segment stands in the text at its offset. -/
def StandsIn (cs : List Char) (p : Placed) : Prop := p.segment.text <+: cs.drop p.offset

/-- The token of a lexeme, on the line where the lexeme ends. -/
def token? (cs : List Char) (p : Placed) : Option Token :=
  match p.segment with
  | .lexeme kind text => some (.ofLexeme kind text (lineAt cs (p.offset + text.length)))
  | _ => none

/-- What is wrong with a segment: a stray character is reported where it stands, and a string that never ends where the
text ends. -/
def diagnostic? (cs : List Char) (p : Placed) : Option Diagnostic :=
  match p.segment with
  | .stray _ => some ⟨lineAt cs p.offset, .nowhere, .unexpectedCharacter⟩
  | .unterminated _ => some ⟨1 + cs.count '\n', .nowhere, .unterminatedString⟩
  | _ => none

end Placed

end Segment

open Segment

theorem lineAt_append (front back : List Char) : lineAt (front ++ back) front.length = 1 + Scan.lineBreaks front := by
  rw [lineAt, List.take_left]
  rfl

theorem Segment.placedFrom_standsIn (front : List Char) (segments : List Segment) :
    ∀ p ∈ placedFrom front.length segments, p.StandsIn (front ++ segments.flatMap text) := by
  induction segments generalizing front with
  | nil => exact fun p hp => absurd hp List.not_mem_nil
  | cons segment rest ih =>
    intro p hp
    rcases List.mem_cons.mp hp with rfl | hp
    · rw [Placed.StandsIn, List.drop_left, List.flatMap_cons]
      exact List.prefix_append _ _
    · rw [List.flatMap_cons, ← List.append_assoc]
      rw [← List.length_append] at hp
      exact ih (front ++ segment.text) p hp

namespace Scan

/-- The scan of a text that is read off the offsets of its segments. -/
def ofPlaced (cs : List Char) (placed : List Placed) : Scan where
  tokens := placed.filterMap (Placed.token? cs)
  eof := Token.atEnd (1 + cs.count '\n')
  diagnostics := placed.filterMap (Placed.diagnostic? cs)

/-- One more segment in front. A stray character is no line break, and nothing stands behind a string that never ends,
so it does not matter on which side of them the line breaks are counted. -/
theorem ofSegments_cons_eq_ofPlaced {segment : Segment} {segments : List Segment} {rest : List Char}
    (hstands : segment.StandsBefore rest) (front : List Char)
    (hrest : ofSegments (1 + lineBreaks (front ++ segment.text)) segments =
      ofPlaced ((front ++ segment.text) ++ rest) (placedFrom (front ++ segment.text).length segments)) :
    ofSegments (1 + lineBreaks front) (segment :: segments) =
      ofPlaced (front ++ (segment.text ++ rest)) (placedFrom front.length (segment :: segments)) := by
  have hline : (1 : Int) + lineBreaks front + lineBreaks segment.text = 1 + lineBreaks (front ++ segment.text) := by
    rw [lineBreaks_append]
    omega
  have hend : (1 : Int) + lineBreaks (front ++ segment.text) =
      lineAt (front ++ (segment.text ++ rest)) (front.length + segment.text.length) := by
    rw [← List.append_assoc, ← List.length_append, lineAt_append]
  rw [List.append_assoc, List.length_append] at hrest
  rw [ofSegments_cons, hline, hrest]
  cases segment with
  | blanks | comment => rfl
  | lexeme kind text =>
    rw [ofSegments, hline, hend]
    rfl
  | stray c =>
    have hc : c ≠ '\n' := by
      rintro rfl
      exact hstands .blanks ['\n'] (List.prefix_append _ _) (.blanks (List.cons_ne_nil _ _) (by simp [isBlank]))
    have hown : lineBreaks [c] = 0 := List.count_eq_zero.mpr (by simpa using Ne.symm hc)
    have hhere : (1 : Int) + lineBreaks front + lineBreaks [c] = lineAt (front ++ ([c] ++ rest)) front.length := by
      rw [lineAt_append, hown]
      rfl
    rw [ofSegments]
    simp only [text, hhere]
    rfl
  | unterminated text =>
    obtain ⟨-, rfl⟩ := hstands
    have hall : (1 : Int) + lineBreaks front + lineBreaks text = 1 + (front ++ (text ++ [])).count '\n' := by
      rw [List.append_nil]
      exact hline
    rw [ofSegments]
    simp only [Segment.text, hall]
    rfl

/-- Counting lines along the segments gives the lines of their offsets. -/
theorem ofSegments_eq_ofPlaced {segments : List Segment} {back : List Char} (h : Covers segments back)
    (front : List Char) : ofSegments (1 + lineBreaks front) segments =
      ofPlaced (front ++ back) (placedFrom front.length segments) := by
  induction h generalizing front with
  | nil => simp [ofSegments, placedFrom, ofPlaced, lineBreaks]
  | @longest t text rest segments h hrest ih =>
    have hstep := ofSegments_cons_eq_ofPlaced h.standsBefore front (ih _)
    rwa [t.segment_text] at hstep
  | @stray c rest segments h hrest ih => exact @ofSegments_cons_eq_ofPlaced (.stray c) segments rest h front (ih _)

/-! ### Lines within a slice -/

/-- The scan of a slice that starts on the line `base`, made from one that counts lines from the start of the slice. -/
def rebase (base : Int) (scan : Scan) : Scan where
  tokens := scan.tokens.map fun t => { t with line := base + t.line - 1 }
  eof := { scan.eof with line := base + scan.eof.line - 1 }
  diagnostics := scan.diagnostics.map fun d => { d with line := base + d.line - 1 }

theorem ofSegments_rebase (base line : Int) (segments : List Segment) :
    ofSegments (base + line - 1) segments = (ofSegments line segments).rebase base := by
  induction segments generalizing line with
  | nil => rfl
  | cons segment rest ih =>
    have hline : base + line - 1 + lineBreaks segment.text = base + (line + lineBreaks segment.text) - 1 := by omega
    simp only [ofSegments, hline, ih]
    cases segment <;> rfl

/-- A scan from an offset on, which stands on the line `base`. All that the lexer says about the slice, the line of the
first stray character included, counts from the start of the slice. -/
def restartRebased (source : List Char) (offset : Nat) (base : Int) : Scan :=
  let slice := source.drop offset
  let known := (Segment.split slice).takeWhile fun segment => !segment.isStray
  let found := (ofSegments 1 known).rebase base
  let stray := (known.flatMap Segment.text).length
  if _ : stray < slice.length then
    let line := base + lineAt slice stray - 1
    let behind := restartRebased source (offset + stray + 1) line
    ⟨found.tokens ++ behind.tokens, behind.eof,
      found.diagnostics ++ ⟨line, .nowhere, .unexpectedCharacter⟩ :: behind.diagnostics⟩
  else ⟨found.tokens, Token.atEnd (1 + source.count '\n'), found.diagnostics⟩
termination_by source.length - offset
decreasing_by
  rename_i h
  rw [List.length_drop] at h
  omega

/-- The line breaks of the known part are those in front of the stray character, so moving lines from slice to slice is
counting on. -/
theorem restartRebased_eq (source : List Char) (offset : Nat) (base : Int) :
    restartRebased source offset base = restart source offset base := by
  induction hlength : source.length - offset using Nat.strong_induction_on generalizing offset base with
  | _ n ih =>
    subst hlength
    generalize hknown : (Segment.split (source.drop offset)).takeWhile (fun segment => !segment.isStray) = known
    have hfound : (ofSegments 1 known).rebase base = ofSegments base known := by
      rw [← ofSegments_rebase, Int.add_sub_cancel]
    rw [restartRebased, restart, hknown, hfound]
    dsimp only
    generalize hread : known.flatMap Segment.text = read
    by_cases hstray : read.length < (source.drop offset).length
    · have hline : base + lineAt (source.drop offset) read.length - 1 = base + lineBreaks read := by
        rcases split_stray hknown with ⟨-, hall⟩ | ⟨c, rest, -, -, hall⟩
        · rw [hread] at hall
          rw [hall] at hstray
          exact absurd hstray (Nat.lt_irrefl _)
        · rw [hall, hread, lineAt_append]
          omega
      have hshorter : source.length - (offset + read.length + 1) < source.length - offset := by
        rw [List.length_drop] at hstray
        omega
      rw [dif_pos hstray, dif_pos hstray, hline, ih _ hshorter (offset + read.length + 1) (base + lineBreaks read) rfl]
    · rw [dif_neg hstray, dif_neg hstray]
      rfl

/-! ### Lines never decrease -/

/-- Lines are only counted on. -/
theorem ofSegments_lines_le (line : Int) (segments : List Segment) :
    (((ofSegments line segments).tokens ++ [(ofSegments line segments).eof]).map Token.line).Pairwise (· ≤ ·) ∧
      ∀ t ∈ (ofSegments line segments).tokens ++ [(ofSegments line segments).eof], line ≤ t.line := by
  induction segments generalizing line with
  | nil => simp [ofSegments, Token.atEnd]
  | cons segment rest ih =>
    obtain ⟨hpairs, hleast⟩ := ih (line + lineBreaks segment.text)
    have hle : line ≤ line + lineBreaks segment.text := by omega
    have hlater (t : Token) (ht : t ∈ (ofSegments (line + lineBreaks segment.text) rest).tokens ++
        [(ofSegments (line + lineBreaks segment.text) rest).eof]) : line ≤ t.line := hle.trans (hleast t ht)
    cases segment with
    | lexeme kind text =>
      refine ⟨List.pairwise_cons.mpr ⟨fun other hother => ?_, hpairs⟩, List.forall_mem_cons.mpr ⟨hle, hlater⟩⟩
      obtain ⟨t, ht, rfl⟩ := List.mem_map.mp hother
      exact hleast t ht
    | blanks | comment | stray | unterminated => exact ⟨hpairs, hlater⟩

end Scan

/-- For every text: its segments stand where they are placed, its scan has the lines of their offsets, and so does a
scan that starts again behind each stray character and counts lines within slices. Lines never decrease from token to
token, up to the end. -/
theorem scan_lines (source : String) : ∃ segments, Covers segments source.toList ∧
    (∀ p ∈ placedFrom 0 segments, p.StandsIn source.toList) ∧
    scan source = Scan.ofPlaced source.toList (placedFrom 0 segments) ∧
    Scan.restartRebased source.toList 0 1 = scan source ∧
    (((scan source).tokens ++ [(scan source).eof]).map Token.line).Pairwise (· ≤ ·) := by
  refine ⟨_, covers_split _, ?_, ?_, ?_, ?_⟩
  · have hstands := placedFrom_standsIn [] (Segment.split source.toList)
    rwa [Segment.split_text] at hstands
  · exact Scan.ofSegments_eq_ofPlaced (covers_split source.toList) []
  · rw [Scan.restartRebased_eq, Scan.restart_eq source.toList 0 1 rfl]
    rfl
  · exact (Scan.ofSegments_lines_le 1 _).1

end LoxLang
