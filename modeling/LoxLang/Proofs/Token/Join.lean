import LoxLang.Proofs.Token.Lines
import Mathlib
/-!
# Texts joined line by line

Texts that are scanned without a diagnostic may be put together with a line break after each but the
last. The tokens of the whole are those of the texts one after the other, each moved down by the lines
of the texts before its own. A line break ends whatever a text ends with: a comment goes no further,
a word or a numeral is not made longer, and only blanks go on into the next text.
-/

namespace LoxLang

/-- The token so many lines further down. -/
def Token.moved (lines : Nat) (t : Token) : Token := { t with line := t.line + lines }

theorem Token.moved_zero (t : Token) : t.moved 0 = t := by simp [Token.moved]

theorem Token.moved_moved (lines more : Nat) (t : Token) : (t.moved lines).moved more = t.moved (more + lines) := by
  simp only [Token.moved, Token.mk.injEq, true_and]
  push_cast
  omega

theorem Token.moved_injective (lines : Nat) : Function.Injective (Token.moved lines) := by
  intro t t' h
  cases t
  cases t'
  simpa [Token.moved] using h

namespace Segment

/-! ### Cutting before a line break -/

/-- What stops inside of a text is not changed by what comes behind the text. -/
theorem takeWhile_dropWhile_append {p : Char → Bool} {xs : List Char} (hstop : xs.dropWhile p ≠ []) (ys : List Char) :
    (xs ++ ys).takeWhile p = xs.takeWhile p ∧ (xs ++ ys).dropWhile p = xs.dropWhile p ++ ys := by
  induction xs with
  | nil => exact absurd rfl hstop
  | cons x xs ih =>
    by_cases hx : p x = true
    · obtain ⟨htake, hdrop⟩ := ih (by simpa [hx] using hstop)
      simp [hx, htake, hdrop]
    · simp [hx]

theorem takeWhile_break {p : Char → Bool} (hp : p '\n' = false) (rest after : List Char) :
    (rest ++ '\n' :: after).takeWhile p = rest.takeWhile p := by
  induction rest with
  | nil => simp [hp]
  | cons c rest ih => rw [List.cons_append, List.takeWhile_cons, List.takeWhile_cons, ih]

theorem dropWhile_break {p : Char → Bool} (hp : p '\n' = false) (rest after : List Char) :
    (rest ++ '\n' :: after).dropWhile p = rest.dropWhile p ++ '\n' :: after := by
  induction rest with
  | nil => simp [hp]
  | cons c rest ih =>
    rw [List.cons_append, List.dropWhile_cons, List.dropWhile_cons, ih]
    split <;> rfl

theorem cutMark_break (c : Char) (rest after : List Char) :
    cutMark c (rest ++ '\n' :: after) = ((cutMark c rest).1, (cutMark c rest).2 ++ '\n' :: after) := by
  unfold cutMark
  cases rest with
  | nil => cases equalKind? c <;> simp
  | cons d rest =>
    by_cases hd : d = '='
    · subst hd
      cases equalKind? c <;> rfl
    · cases equalKind? c <;> simp [hd]

theorem cutNumeral_break (c : Char) (rest after : List Char) :
    cutNumeral c (rest ++ '\n' :: after) = ((cutNumeral c rest).1, (cutNumeral c rest).2 ++ '\n' :: after) := by
  have hdigit : Char.isDigit '\n' = false := rfl
  unfold cutNumeral
  rw [takeWhile_break hdigit, dropWhile_break hdigit]
  cases rest.dropWhile Char.isDigit with
  | nil => simp
  | cons point more =>
    by_cases hpoint : point = '.'
    · subst hpoint
      cases more with
      | nil => simp [hdigit]
      | cons d more =>
        simp only [List.cons_append, takeWhile_break hdigit, dropWhile_break hdigit]
        split <;> rfl
    · simp [hpoint]

theorem cutString_break {rest : List Char} (after : List Char)
    (hended : ∀ text, (cutString rest).1 ≠ .unterminated text) :
    cutString (rest ++ '\n' :: after) = ((cutString rest).1, (cutString rest).2 ++ '\n' :: after) := by
  unfold cutString at hended ⊢
  dsimp only at hended ⊢
  cases hafter : rest.dropWhile (· != '"') with
  | nil =>
    rw [hafter] at hended
    exact absurd rfl (hended _)
  | cons quote more =>
    have hstop : rest.dropWhile (· != '"') ≠ [] := by simp [hafter]
    obtain ⟨htake, hdrop⟩ := takeWhile_dropWhile_append hstop ('\n' :: after)
    rw [htake, hdrop, hafter]
    rfl

/-- A segment in front of a line break is cut as at the end of a text, unless it never ends or there are only blanks. -/
theorem cut_break {c : Char} {rest : List Char} (after : List Char)
    (hblank : isBlank c = true → rest.dropWhile isBlank ≠ []) (hended : ∀ text, (cut c rest).1 ≠ .unterminated text) :
    cut c (rest ++ '\n' :: after) = ((cut c rest).1, (cut c rest).2 ++ '\n' :: after) := by
  have hpart : isNamePart '\n' = false := rfl
  have hhead : ((rest ++ '\n' :: after).head? == some '/') = (rest.head? == some '/') := by cases rest <;> rfl
  unfold cut at hended ⊢
  rw [hhead]
  by_cases hc : isBlank c = true
  · obtain ⟨htake, hdrop⟩ := takeWhile_dropWhile_append (hblank hc) ('\n' :: after)
    rw [if_pos hc, if_pos hc, htake, hdrop]
  rw [if_neg hc] at hended
  rw [if_neg hc, if_neg hc]
  by_cases hname : isNameStart c = true
  · rw [if_pos hname, if_pos hname, takeWhile_break hpart, dropWhile_break hpart]
  rw [if_neg hname] at hended
  rw [if_neg hname, if_neg hname]
  by_cases hdigit : c.isDigit = true
  · rw [if_pos hdigit, if_pos hdigit, cutNumeral_break]
  rw [if_neg hdigit] at hended
  rw [if_neg hdigit, if_neg hdigit]
  by_cases hquote : c = '"'
  · rw [if_pos hquote] at hended
    rw [if_pos hquote, if_pos hquote, cutString_break after hended]
  rw [if_neg hquote, if_neg hquote]
  by_cases hslash : (c = '/' && rest.head? == some '/') = true
  · have hcomment (after : List Char) : (rest ++ '\n' :: after).takeWhile (· != '\n') = rest.takeWhile (· != '\n') ∧
        (rest ++ '\n' :: after).dropWhile (· != '\n') = rest.dropWhile (· != '\n') ++ '\n' :: after :=
      ⟨takeWhile_break rfl rest after, dropWhile_break rfl rest after⟩
    rw [if_pos hslash, if_pos hslash, (hcomment after).1, (hcomment after).2]
  · rw [if_neg hslash, if_neg hslash, cutMark_break]

end Segment

namespace Scan

/-! ### Scanning from a later line -/

/-- A scan that stands so many lines further down. -/
def moved (lines : Nat) (scan : Scan) : Scan where
  tokens := scan.tokens.map (Token.moved lines)
  eof := scan.eof.moved lines
  diagnostics := scan.diagnostics.map fun d => { d with line := d.line + lines }

theorem ofSegments_moved (lines : Nat) (line : Int) (segments : List Segment) :
    ofSegments (line + lines) segments = (ofSegments line segments).moved lines := by
  induction segments generalizing line with
  | nil => rfl
  | cons segment rest ih =>
    have hline : line + lines + lineBreaks segment.text = line + lineBreaks segment.text + lines := by omega
    simp only [ofSegments, hline, ih]
    cases segment <;> rfl

/-- One scan behind the other. -/
def join (first second : Scan) : Scan where
  tokens := first.tokens ++ second.tokens
  eof := second.eof
  diagnostics := first.diagnostics ++ second.diagnostics

theorem join_assoc (first second third : Scan) : (first.join second).join third = first.join (second.join third) := by
  simp only [join, List.append_assoc]

theorem ofSegments_cons (line : Int) (segment : Segment) (rest : List Segment) :
    ofSegments line (segment :: rest) =
      (ofSegments line [segment]).join (ofSegments (line + lineBreaks segment.text) rest) := by
  cases segment <;> rfl

/-- Blanks at the front of a text only move it down. -/
theorem ofSegments_blanks (line : Int) (cs : List Char) :
    ofSegments line (Segment.split cs) =
      ofSegments (line + lineBreaks (cs.takeWhile Segment.isBlank)) (Segment.split (cs.dropWhile Segment.isBlank)) := by
  cases cs with
  | nil => simp [lineBreaks]
  | cons c rest =>
    by_cases hc : Segment.isBlank c = true
    · rw [List.takeWhile_cons_of_pos hc, List.dropWhile_cons_of_pos hc, Segment.split, Segment.cut, if_pos hc]
      rfl
    · simp [hc, lineBreaks]

/-- Nothing but blanks and a line break in front of a text. -/
theorem ofSegments_break (line : Int) {blanks : List Char} (hblanks : ∀ c ∈ blanks, Segment.isBlank c = true)
    (after : List Char) :
    ofSegments line (Segment.split (blanks ++ '\n' :: after)) =
      ofSegments (line + (lineBreaks blanks + 1 : Nat)) (Segment.split after) := by
  have htake : (blanks ++ '\n' :: after).takeWhile Segment.isBlank =
      blanks ++ '\n' :: after.takeWhile Segment.isBlank := by
    rw [List.takeWhile_append_of_pos hblanks]
    rfl
  have hdrop : (blanks ++ '\n' :: after).dropWhile Segment.isBlank = after.dropWhile Segment.isBlank := by
    rw [List.dropWhile_append_of_pos hblanks]
    rfl
  have hbreaks : lineBreaks (blanks ++ '\n' :: after.takeWhile Segment.isBlank) =
      lineBreaks blanks + 1 + lineBreaks (after.takeWhile Segment.isBlank) := by
    rw [lineBreaks_append]
    simp only [lineBreaks, List.count_cons_self]
    omega
  rw [ofSegments_blanks line, ofSegments_blanks (line + (lineBreaks blanks + 1 : Nat)), htake, hdrop, hbreaks]
  congr 1
  omega

/-- Two texts with a line break between them: the second one stands below the first. -/
theorem ofSegments_join (line : Int) (first second : List Char)
    (hended : ∀ text, .unterminated text ∉ Segment.split first) :
    ofSegments line (Segment.split (first ++ '\n' :: second)) =
      (ofSegments line (Segment.split first)).join
        (ofSegments (line + (lineBreaks first + 1 : Nat)) (Segment.split second)) := by
  induction first using Segment.split.induct generalizing line with
  | case1 =>
    have hbreak := ofSegments_break line (List.forall_mem_nil _) second
    rw [List.nil_append] at hbreak ⊢
    rw [hbreak, Segment.split]
    rfl
  | case2 c rest ih =>
    by_cases hall : Segment.isBlank c = true ∧ rest.dropWhile Segment.isBlank = []
    · -- The whole text is one run of blanks, which the line break and the next text may make longer.
      obtain ⟨hc, hrest⟩ := hall
      have hblanks : ∀ d ∈ c :: rest, Segment.isBlank d = true :=
        List.forall_mem_cons.mpr ⟨hc, List.dropWhile_eq_nil_iff.mp hrest⟩
      have hsplit : Segment.split (c :: rest) = [.blanks (c :: rest.takeWhile Segment.isBlank)] := by
        rw [Segment.split, Segment.cut, if_pos hc, hrest, Segment.split]
      rw [ofSegments_break line hblanks second, hsplit]
      rfl
    · rw [Segment.split] at hended
      obtain ⟨hfirst, hlater⟩ : (∀ text, (Segment.cut c rest).1 ≠ .unterminated text) ∧
          ∀ text, .unterminated text ∉ Segment.split (Segment.cut c rest).2 := by
        simpa [forall_and, eq_comm] using hended
      have hcut := Segment.cut_break second (fun hc hnil => hall ⟨hc, hnil⟩) hfirst
      have hbreaks : lineBreaks (c :: rest) =
          lineBreaks (Segment.cut c rest).1.text + lineBreaks (Segment.cut c rest).2 := by
        rw [← lineBreaks_append, Segment.cut_text]
      have hline : line + lineBreaks (Segment.cut c rest).1.text + (lineBreaks (Segment.cut c rest).2 + 1 : Nat) =
          line + (lineBreaks (c :: rest) + 1 : Nat) := by omega
      rw [List.cons_append, Segment.split, hcut, Segment.split]
      dsimp only
      rw [ofSegments_cons, ih _ hlater, hline, ofSegments_cons line _ (Segment.split (Segment.cut c rest).2),
        join_assoc]

/-- A scan without diagnostics has met no string that never ends. -/
theorem unterminated_not_mem {line : Int} {segments : List Segment} (h : (ofSegments line segments).diagnostics = [])
    (text : List Char) : .unterminated text ∉ segments := by
  induction segments generalizing line with
  | nil => exact List.not_mem_nil
  | cons segment rest ih =>
    rw [ofSegments_cons] at h
    obtain ⟨hfirst, hrest⟩ := List.append_eq_nil_iff.mp h
    intro hmem
    rcases List.mem_cons.mp hmem with rfl | hmem
    · cases hfirst
    · exact ih hrest hmem

end Scan

/-! ### Many texts -/

/-- The lines that a text takes up, if a line break is put behind it. -/
def linesOf (text : String) : Nat := Scan.lineBreaks text.toList + 1

theorem scan_join {first : String} (second : String) (hclean : (scan first).diagnostics = []) :
    scan (first ++ "\n" ++ second) = (scan first).join ((scan second).moved (linesOf first)) := by
  have htext : (first ++ "\n" ++ second).toList = first.toList ++ '\n' :: second.toList := by simp
  unfold scan
  rw [htext, Scan.ofSegments_join 1 _ _ (Scan.unterminated_not_mem hclean), Scan.ofSegments_moved]
  rfl

/-- The texts with a line break between each and the next. -/
def joinLines (texts : List String) : String := "\n".intercalate texts

theorem joinLines_cons (text next : String) (rest : List String) :
    joinLines (text :: next :: rest) = text ++ "\n" ++ joinLines (next :: rest) := String.intercalate_cons_cons

/-- The token of one of the texts, and the same token in the whole: it has moved down by the lines of
the texts before. -/
def MovedIn (texts : List String) (t t' : Token) : Prop :=
  ∃ before text after, texts = before ++ text :: after ∧ t ∈ (scan text).tokens ∧ t' = t.moved (before.map linesOf).sum

theorem movedIn_cons_iff {text : String} {texts : List String} {t t' : Token} : MovedIn (text :: texts) t t' ↔
    (t ∈ (scan text).tokens ∧ t' = t) ∨ ∃ mid, MovedIn texts t mid ∧ t' = mid.moved (linesOf text) := by
  constructor
  · rintro ⟨before, own, after, hsplit, hmem, rfl⟩
    cases before with
    | nil =>
      obtain ⟨rfl, rfl⟩ := List.cons.inj hsplit
      exact .inl ⟨hmem, t.moved_zero⟩
    | cons first before =>
      obtain ⟨rfl, rfl⟩ := List.cons.inj hsplit
      exact .inr ⟨_, ⟨before, own, after, rfl, hmem, rfl⟩, by rw [Token.moved_moved, List.map_cons, List.sum_cons]⟩
  · rintro (⟨hmem, rfl⟩ | ⟨mid, ⟨before, own, after, rfl, hmem, rfl⟩, rfl⟩)
    · exact ⟨[], text, texts, rfl, hmem, t'.moved_zero.symm⟩
    · exact ⟨text :: before, own, after, rfl, hmem, by rw [Token.moved_moved, List.map_cons, List.sum_cons]⟩

theorem MovedIn.of_mem {texts : List String} {last : String} {t : Token} (ht : t ∈ (scan last).tokens) :
    MovedIn (texts ++ [last]) t (t.moved (texts.map linesOf).sum) :=
  ⟨texts, last, [], rfl, ht, rfl⟩

theorem MovedIn.append {texts : List String} {t t' : Token} (h : MovedIn texts t t') (more : List String) :
    MovedIn (texts ++ more) t t' := by
  obtain ⟨before, own, after, rfl, hmem, rfl⟩ := h
  exact ⟨before, own, after ++ more, by simp, hmem, rfl⟩

/-- A token of one of the texts stands among their lines. -/
theorem MovedIn.line_mem {texts : List String} {t t' : Token} (h : MovedIn texts t t') :
    1 ≤ t'.line ∧ t'.line ≤ (texts.map linesOf).sum := by
  obtain ⟨before, own, after, rfl, hmem, rfl⟩ := h
  obtain ⟨hfirst, hown⟩ := scan_token_line hmem
  have hown : t.line ≤ linesOf own := hown
  have htotal : ((before ++ own :: after).map linesOf).sum =
      (before.map linesOf).sum + (linesOf own + (after.map linesOf).sum) := by simp
  rw [htotal]
  simp only [Token.moved]
  omega

/-- The line of a token of the whole tells which text it came from. -/
theorem MovedIn.left_unique {texts : List String} {t u t' : Token} (ht : MovedIn texts t t') (hu : MovedIn texts u t') :
    t = u := by
  induction texts generalizing t' with
  | nil =>
    obtain ⟨before, own, after, hsplit, -⟩ := ht
    simp at hsplit
  | cons text rest ih =>
    rcases movedIn_cons_iff.mp ht with ⟨htown, rfl⟩ | ⟨mid, hmid, rfl⟩
    · rcases movedIn_cons_iff.mp hu with ⟨-, rfl⟩ | ⟨mid, hmid, rfl⟩
      · rfl
      · have hline : (mid.moved (linesOf text)).line ≤ linesOf text := (scan_token_line htown).2
        have hbelow := hmid.line_mem.1
        simp only [Token.moved] at hline
        omega
    · rcases movedIn_cons_iff.mp hu with ⟨huown, rfl⟩ | ⟨mid', hmid', heq⟩
      · have hline : (mid.moved (linesOf text)).line ≤ linesOf text := (scan_token_line huown).2
        have hbelow := hmid.line_mem.1
        simp only [Token.moved] at hline
        omega
      · obtain rfl := Token.moved_injective _ heq
        exact ih hmid hmid'

/-- Texts that are scanned without a diagnostic, and one more below them: the tokens of the whole are first those of the
earlier texts, and then those of the last one, moved down by the lines of all the others. -/
theorem scan_joinLines {texts : List String} (hclean : ∀ text ∈ texts, (scan text).diagnostics = []) (last : String) :
    ((scan last).diagnostics = [] → (scan (joinLines (texts ++ [last]))).diagnostics = []) ∧
      ∃ earlier, List.Forall₂ (MovedIn texts) (texts.flatMap fun text => (scan text).tokens) earlier ∧
        (scan (joinLines (texts ++ [last]))).tokens =
          earlier ++ (scan last).tokens.map (Token.moved (texts.map linesOf).sum) := by
  induction texts with
  | nil =>
    have hmoved : Token.moved 0 = id := funext Token.moved_zero
    exact ⟨id, [], .nil, by simp [joinLines, hmoved]⟩
  | cons text rest ih =>
    obtain ⟨htext, hrest⟩ := List.forall_mem_cons.mp hclean
    obtain ⟨hdiagnostics, earlier, hearlier, htokens⟩ := ih hrest
    obtain ⟨next, more, hmore⟩ := List.exists_cons_of_ne_nil (List.append_ne_nil_of_right_ne_nil rest (List.cons_ne_nil last []))
    have hjoin : joinLines (text :: rest ++ [last]) = text ++ "\n" ++ joinLines (rest ++ [last]) := by
      rw [List.cons_append, hmore, joinLines_cons]
    rw [hjoin, scan_join _ htext]
    refine ⟨fun hlast => ?_, (scan text).tokens ++ earlier.map (Token.moved (linesOf text)), ?_, ?_⟩
    · simp [Scan.join, Scan.moved, htext, hdiagnostics hlast]
    · apply List.rel_append
      · exact List.forall₂_same.mpr fun t ht => movedIn_cons_iff.mpr (.inl ⟨ht, rfl⟩)
      · rw [List.forall₂_map_right_iff]
        exact hearlier.imp fun t t' h => movedIn_cons_iff.mpr (.inr ⟨t', h, rfl⟩)
    · have hmoved : Token.moved (linesOf text) ∘ Token.moved (rest.map linesOf).sum =
          Token.moved ((text :: rest).map linesOf).sum := by
        funext t
        rw [Function.comp, Token.moved_moved, List.map_cons, List.sum_cons]
      simp only [Scan.join, Scan.moved, htokens, List.map_append, List.map_map, hmoved, List.append_assoc]

/-- The text below so many empty lines. -/
def below (lines : Nat) (text : String) : String := joinLines (List.replicate lines "" ++ [text])

theorem below_zero (text : String) : below 0 text = text := by simp [below, joinLines]

theorem scan_below (lines : Nat) {text : String} (hclean : (scan text).diagnostics = []) :
    (scan (below lines text)).diagnostics = [] ∧
      (scan (below lines text)).tokens = (scan text).tokens.map (Token.moved lines) := by
  have hempty : (scan "").tokens = [] ∧ (scan "").diagnostics = [] := by
    simp [scan, Segment.split, Scan.ofSegments]
  have hclear : ∀ t ∈ List.replicate lines "", (scan t).diagnostics = [] := by
    intro t ht
    rw [List.eq_of_mem_replicate ht, hempty.2]
  obtain ⟨hdiagnostics, earlier, hearlier, htokens⟩ := scan_joinLines hclear text
  have hlines : ((List.replicate lines "").map linesOf).sum = lines := by simp [linesOf, Scan.lineBreaks]
  have hnone : earlier = [] := by
    have hnoTokens : (List.replicate lines "").flatMap (fun text => (scan text).tokens) = [] := by
      simp [hempty.1]
    rw [hnoTokens] at hearlier
    exact List.forall₂_nil_left_iff.mp hearlier
  rw [hlines, hnone] at htokens
  exact ⟨hdiagnostics hclean, htokens⟩

end LoxLang
