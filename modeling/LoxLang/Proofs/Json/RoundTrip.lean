import LoxLang.Proofs.Json.Numerals
import LoxLang.Text.Lines
/-!
# Written documents read back

Every value that can be stored is read from its written text as it was. Text is written with escapes
for whatever would end it or is refused inside it, and each escape is read as the character it stands
for. Behind a value there is nothing, a comma or a line break, so a numeral is read to its end and no
further. The reader is given enough calls: it makes fewer than there are characters.
-/

namespace LoxLang.Json

/-! ### Strings -/

/-- The three ways to write a character inside a string. -/
inductive Escape (c : Char) : List Char → Prop
  | letter {l : Char} (hl : l ≠ 'u') (h : simpleEscape? l = some c) : Escape c ['\\', l]
  | code (h : c.toNat < 0x20) : Escape c ('\\' :: 'u' :: Text.hexDigits 4 c.toNat)
  | plain (hquote : c ≠ '"') (hslash : c ≠ '\\') (hcontrol : ¬c.toNat < 0x20) : Escape c [c]

theorem escape_escapeChar (c : Char) : Escape c (escapeChar c) := by
  unfold escapeChar
  split
  next h =>
    rw [h]
    exact .letter (by decide) rfl
  next hquote =>
    split
    next h =>
      rw [h]
      exact .letter (by decide) rfl
    next hslash =>
      iterate 5
        split
        next h =>
          rw [h]
          exact .letter (by decide) rfl
      split
      next hcontrol => exact .code hcontrol
      next hcontrol => exact .plain hquote hslash hcontrol

theorem hexCode?_hexDigits : ∀ n < 0x20, hexCode? (Text.hexDigits 4 n) = some n := by decide

/-- An escaped character is read as one code. -/
theorem Escape.readCodes {c : Char} {text : List Char} (h : Escape c text) (done : List Nat) (rest : List Char) :
    readCodes done (text ++ rest) = readCodes (c.toNat :: done) rest := by
  cases h with
  | letter hl h => simp [Json.readCodes, hl, h]
  | code h =>
    have hcode := hexCode?_hexDigits c.toNat h
    simp only [Text.hexDigits, List.nil_append, List.cons_append] at hcode ⊢
    simp only [Json.readCodes, hcode]
  | plain hquote hslash hcontrol => simp [Json.readCodes, hslash, hcontrol]

theorem readCodes_escaped (cs : List Char) (done : List Nat) (rest : List Char) :
    readCodes done (cs.flatMap escapeChar ++ '"' :: rest) = .ok (done.reverse ++ cs.map Char.toNat, rest) := by
  induction cs generalizing done with
  | nil => simp [readCodes]
  | cons c cs ih =>
    rw [List.flatMap_cons, List.append_assoc, (escape_escapeChar c).readCodes, ih]
    simp

/-- No character is half of another one. -/
theorem not_surrogate (c : Char) : isHighSurrogate c.toNat = false ∧ isLowSurrogate c.toNat = false := by
  have hvalid : c.toNat < 0xd800 ∨ 0xdfff < c.toNat ∧ c.toNat < 0x110000 := c.valid
  simp only [isHighSurrogate, isLowSurrogate, Bool.and_eq_false_iff, decide_eq_false_iff_not]
  omega

theorem charsOfCodes_toNat (cs : List Char) : charsOfCodes (cs.map Char.toNat) = cs := by
  induction cs with
  | nil => rfl
  | cons c cs ih =>
    obtain ⟨hhigh, hlow⟩ := not_surrogate c
    cases cs with
    | nil => simp [charsOfCodes, hhigh, hlow]
    | cons d cs => simpa [charsOfCodes, hhigh, hlow] using ih

theorem readString_append (s : String) (rest : List Char) :
    readString (s.toList.flatMap escapeChar ++ '"' :: rest) = .ok (s, rest) := by
  rw [readString, readCodes_escaped]
  simp [charsOfCodes_toNat]

theorem writeString_append (s : String) (rest : List Char) :
    writeString s ++ rest = '"' :: (s.toList.flatMap escapeChar ++ '"' :: rest) := by
  simp [writeString]

/-! ### Blanks between values -/

theorem ends_nil : Ends [] := nofun

theorem ends_comma (rest : List Char) : Ends (',' :: rest) := by
  intro c hc
  cases hc
  exact .inl rfl

theorem ends_newline (depth : Nat) (rest : List Char) : Ends (newline depth ++ rest) := by
  intro c hc
  cases hc
  exact .inr rfl

theorem skipBlanks_of_head {c : Char} (h : isBlank c = false) (rest : List Char) :
    skipBlanks (c :: rest) = c :: rest := by
  simp [skipBlanks, h]

theorem skipBlanks_append {blanks : List Char} (hblanks : ∀ d ∈ blanks, isBlank d = true) {c : Char}
    (h : isBlank c = false) (rest : List Char) : skipBlanks (blanks ++ c :: rest) = c :: rest := by
  rw [skipBlanks, List.dropWhile_append_of_pos hblanks]
  exact skipBlanks_of_head h rest

theorem isBlank_newline (depth : Nat) : ∀ d ∈ newline depth, isBlank d = true := by
  intro d hd
  rcases List.mem_cons.mp hd with rfl | hd
  · decide
  · rw [List.eq_of_mem_replicate hd]
    decide

/-! ### Values -/

/-- A value that is read is not led by a blank, nor by the bracket that would end a list. -/
theorem readValue_head {fuel : Nat} {cs : List Char} {result : Json × List Char} (h : readValue fuel cs = .ok result) :
    ∃ c more, cs = c :: more ∧ isBlank c = false ∧ c ≠ ']' := by
  cases fuel with
  | zero => cases h
  | succ fuel =>
    cases cs with
    | nil => simp [readValue, readScalar, words, readNumeral, readWhole] at h
    | cons c more =>
      refine ⟨c, more, rfl, ?_, ?_⟩
      · by_contra hblank
        simp only [isBlank, Bool.not_eq_false, Bool.or_eq_true, beq_iff_eq] at hblank
        rcases hblank with ((rfl | rfl) | rfl) | rfl
        all_goals simp [readValue, readScalar, words, readNumeral, readWhole] at h
      · rintro rfl
        simp [readValue, readScalar, words, readNumeral, readWhole] at h

/-- The written value is read, whatever may stand behind it. -/
def ReadsBack (j : Json) : Prop := ∀ fuel depth rest, Ends rest → (writeAt depth j).length ≤ fuel →
  readValue fuel (writeAt depth j ++ rest) = .ok (j, rest)

theorem ReadsBack.head {j : Json} (h : ReadsBack j) (depth : Nat) :
    ∃ c more, writeAt depth j = c :: more ∧ isBlank c = false ∧ c ≠ ']' := by
  have hread := h (writeAt depth j).length depth [] ends_nil (Nat.le_refl _)
  rw [List.append_nil] at hread
  exact readValue_head hread

/-- Blanks in front of a value are passed over. -/
theorem ReadsBack.skipBlanks {j : Json} (h : ReadsBack j) {blanks : List Char}
    (hblanks : ∀ d ∈ blanks, isBlank d = true)
    (depth : Nat) (rest : List Char) : skipBlanks (blanks ++ (writeAt depth j ++ rest)) = writeAt depth j ++ rest := by
  obtain ⟨c, more, htext, hblank, -⟩ := h.head depth
  rw [htext, List.cons_append, skipBlanks_append hblanks hblank]

/-- The items of a list up to its end, behind those already read. -/
theorem readItems_append (depth outer : Nat) (tail : List Char) (rest : List Json) (j : Json) (done : List Json)
    (fuel : Nat) (h : ∀ x ∈ j :: rest, ReadsBack x) (hfuel : (writeAt depth j ++ writeItems depth rest).length < fuel) :
    readItems fuel done (writeAt depth j ++ (writeItems depth rest ++ (newline outer ++ ']' :: tail))) =
      .ok (.arr (done.reverse ++ j :: rest), tail) := by
  induction rest generalizing j done fuel with
  | nil =>
    obtain ⟨fuel, rfl⟩ : ∃ f, fuel = f + 1 := ⟨fuel - 1, by omega⟩
    simp only [writeItems, List.append_nil, List.nil_append] at hfuel ⊢
    have hread := h j List.mem_cons_self fuel depth (newline outer ++ ']' :: tail) (ends_newline outer _) (by omega)
    simp only [readItems, hread, bind, Except.bind, skipBlanks_append (isBlank_newline outer) (c := ']') (by decide),
      List.reverse_cons]
    rfl
  | cons k rest ih =>
    obtain ⟨fuel, rfl⟩ : ∃ f, fuel = f + 1 := ⟨fuel - 1, by omega⟩
    obtain ⟨hj, hrest⟩ := List.forall_mem_cons.mp h
    simp only [writeItems, List.cons_append, List.append_assoc, List.length_append, List.length_cons] at hfuel ⊢
    have hread := hj fuel depth
      (',' :: (newline depth ++ (writeAt depth k ++ (writeItems depth rest ++ (newline outer ++ ']' :: tail)))))
      (ends_comma _) (by omega)
    have hlater := ih k (j :: done) fuel hrest (by rw [List.length_append]; omega)
    simp only [readItems, hread, bind, Except.bind, skipBlanks_of_head (c := ',') (by decide),
      (hrest k List.mem_cons_self).skipBlanks (isBlank_newline depth), hlater, List.reverse_cons, List.append_assoc,
      List.cons_append, List.nil_append]

theorem putField_new {fields : List (String × Json)} {key : String} (h : key ∉ fields.map Prod.fst) (value : Json) :
    putField key value fields = fields ++ [(key, value)] := by
  induction fields with
  | nil => rfl
  | cons field fields ih =>
    obtain ⟨hne, hrest⟩ := not_or.mp (mt List.mem_cons.mpr h)
    rw [putField, if_neg (Ne.symm hne), ih hrest, List.cons_append]

theorem not_mem_of_nodup {done rest : List (String × Json)} {key : String} {value : Json}
    (h : ((done ++ (key, value) :: rest).map Prod.fst).Nodup) : key ∉ done.map Prod.fst := by
  rw [List.map_append, List.map_cons] at h
  exact fun hmem => (List.nodup_append.mp h).2.2 key hmem key List.mem_cons_self rfl

/-- A field up to what stands behind it. -/
theorem readFields_step {fuel depth : Nat} {key : String} {value : Json} {done : List (String × Json)}
    {rest : List Char} (h : ReadsBack value) (hnew : key ∉ done.map Prod.fst) (hrest : Ends rest)
    (hfuel : (writeAt depth value).length ≤ fuel) :
    readFields (fuel + 1) done (writeString key ++ (':' :: ' ' :: (writeAt depth value ++ rest))) =
      match skipBlanks rest with
      | ',' :: rest => readFields fuel (done ++ [(key, value)]) (skipBlanks rest)
      | '\x7d' :: rest => .ok (.obj (done ++ [(key, value)]), rest)
      | _ => .error .malformed := by
  have hblank : ∀ d ∈ [' '], isBlank d = true := by simp [isBlank]
  have hspace := h.skipBlanks hblank depth rest
  rw [List.singleton_append] at hspace
  rw [writeString_append]
  simp only [readFields, readString_append, bind, Except.bind, skipBlanks_of_head (c := ':') (by decide), hspace,
    h fuel depth rest hrest hfuel, putField_new hnew]
  rfl

theorem readFields_append (depth outer : Nat) (tail : List Char) (rest : List (String × Json)) (key : String)
    (value : Json) (done : List (String × Json)) (fuel : Nat)
    (hkeys : ((done ++ (key, value) :: rest).map Prod.fst).Nodup) (h : ∀ x ∈ (key, value) :: rest, ReadsBack x.2)
    (hfuel : (writeAt depth value ++ writeFields depth rest).length < fuel) :
    readFields fuel done (writeString key ++ (':' :: ' ' :: (writeAt depth value ++
      (writeFields depth rest ++ (newline outer ++ '\x7d' :: tail))))) =
      .ok (.obj (done ++ (key, value) :: rest), tail) := by
  induction rest generalizing key value done fuel with
  | nil =>
    obtain ⟨fuel, rfl⟩ : ∃ f, fuel = f + 1 := ⟨fuel - 1, by omega⟩
    have hvalue : ReadsBack value := h _ List.mem_cons_self
    simp only [writeFields, List.append_nil, List.nil_append] at hfuel ⊢
    rw [readFields_step hvalue (not_mem_of_nodup hkeys) (ends_newline outer _) (by omega),
      skipBlanks_append (isBlank_newline outer) (by decide)]
    rfl
  | cons field rest ih =>
    obtain ⟨fuel, rfl⟩ : ∃ f, fuel = f + 1 := ⟨fuel - 1, by omega⟩
    obtain ⟨k, v⟩ := field
    have hvalue : ReadsBack value := h _ List.mem_cons_self
    have hsplit : done ++ (key, value) :: (k, v) :: rest = done ++ [(key, value)] ++ (k, v) :: rest := by simp
    simp only [writeFields, List.cons_append, List.nil_append, List.append_assoc, List.length_append,
      List.length_cons] at hfuel ⊢
    have hlater := ih k v (done ++ [(key, value)]) fuel (hsplit ▸ hkeys) (fun x hx => h x (List.mem_cons_of_mem _ hx))
      (by rw [List.length_append]; omega)
    rw [readFields_step hvalue (not_mem_of_nodup hkeys) (ends_comma _) (by omega), skipBlanks_of_head (by decide)]
    rw [writeString_append] at hlater ⊢
    simp only [skipBlanks_append (isBlank_newline depth) (c := '"') (by decide), hlater, hsplit]

/-- Values that are written without loss: integers of no more digits than are read, one pattern for
what is not a number, and objects with one field per key. -/
inductive Storable : Json → Prop
  | null : Storable .null
  | bool (b : Bool) : Storable (.bool b)
  | int {i : Int} (h : (Nat.toDigits 10 i.natAbs).length ≤ integerDigits) : Storable (.int i)
  | num {x : Number} (h : x.isNaN = true → x = .nan) : Storable (.num x)
  | str (s : String) : Storable (.str s)
  | arr {items : List Json} (h : ∀ j ∈ items, Storable j) : Storable (.arr items)
  | obj {fields : List (String × Json)} (hkeys : (fields.map Prod.fst).Nodup) (h : ∀ field ∈ fields, Storable field.2) :
      Storable (.obj fields)

theorem readScalar_head {cs : List Char} {result : Json × List Char} (h : readScalar cs = .ok result) :
    ∃ c more, cs = c :: more ∧ c ≠ '"' ∧ c ≠ '[' ∧ c ≠ '\x7b' := by
  cases cs with
  | nil => simp [readScalar, words, readNumeral, readWhole] at h
  | cons c more =>
    refine ⟨c, more, rfl, ?_, ?_, ?_⟩
    all_goals
      rintro rfl
      simp [readScalar, words, readNumeral, readWhole] at h

theorem readValue_of_readScalar {fuel : Nat} {cs : List Char} {result : Json × List Char}
    (h : readScalar cs = .ok result) :
    readValue (fuel + 1) cs = .ok result := by
  obtain ⟨c, more, rfl, hquote, hlist, hobject⟩ := readScalar_head h
  simpa [readValue, hquote, hlist, hobject] using h

theorem readsBack_of_readScalar {j : Json}
    (h : ∀ depth rest, Ends rest → readScalar (writeAt depth j ++ rest) = .ok (j, rest)) :
    ReadsBack j := by
  intro fuel depth rest hrest hfuel
  have hown := h depth [] ends_nil
  rw [List.append_nil] at hown
  obtain ⟨c, more, htext, -⟩ := readScalar_head hown
  obtain ⟨fuel, rfl⟩ : ∃ f, fuel = f + 1 := ⟨fuel - 1, by rw [htext, List.length_cons] at hfuel; omega⟩
  exact readValue_of_readScalar (h depth rest hrest)

theorem readsBack_str (s : String) : ReadsBack (.str s) := by
  intro fuel depth rest hrest hfuel
  obtain ⟨fuel, rfl⟩ : ∃ f, fuel = f + 1 := ⟨fuel - 1, by simp [writeAt, writeString] at hfuel; omega⟩
  rw [writeAt, writeString_append]
  simp only [readValue, readString_append, bind, Except.bind]
  rfl

theorem readsBack_arr {items : List Json} (h : ∀ j ∈ items, ReadsBack j) : ReadsBack (.arr items) := by
  intro fuel depth rest hrest hfuel
  cases items with
  | nil =>
    obtain ⟨fuel, rfl⟩ : ∃ f, fuel = f + 1 := ⟨fuel - 1, by simp [writeAt] at hfuel; omega⟩
    rfl
  | cons j items =>
    simp only [writeAt, List.cons_append, List.append_assoc, List.length_cons, List.length_append] at hfuel ⊢
    obtain ⟨fuel, rfl⟩ : ∃ f, fuel = f + 1 := ⟨fuel - 1, by omega⟩
    have hj := h j List.mem_cons_self
    obtain ⟨c, more, htext, -, hbracket⟩ := hj.head (depth + 1)
    have hitems := readItems_append (depth + 1) depth rest items j [] fuel h
      (by rw [List.length_append]; omega)
    simp only [readValue, hj.skipBlanks (isBlank_newline _), List.nil_append]
    rw [htext, List.cons_append] at hitems ⊢
    split
    next heq => exact absurd (List.cons.inj heq).1 hbracket
    next => exact hitems

theorem readsBack_obj {fields : List (String × Json)} (hkeys : (fields.map Prod.fst).Nodup)
    (h : ∀ field ∈ fields, ReadsBack field.2) :
    ReadsBack (.obj fields) := by
  intro fuel depth rest hrest hfuel
  cases fields with
  | nil =>
    obtain ⟨fuel, rfl⟩ : ∃ f, fuel = f + 1 := ⟨fuel - 1, by simp [writeAt] at hfuel; omega⟩
    rfl
  | cons field fields =>
    obtain ⟨key, value⟩ := field
    simp only [writeAt, List.cons_append, List.nil_append, List.append_assoc, List.length_cons,
      List.length_append] at hfuel ⊢
    obtain ⟨fuel, rfl⟩ : ∃ f, fuel = f + 1 := ⟨fuel - 1, by omega⟩
    have hfields := readFields_append (depth + 1) depth rest fields key value [] fuel hkeys h
      (by rw [List.length_append]; omega)
    rw [writeString_append] at hfields ⊢
    simp only [readValue, skipBlanks_append (isBlank_newline (depth + 1)) (c := '"') (by decide)]
    exact hfields

/-- Every value that can be stored reads back. -/
theorem Storable.readsBack {j : Json} (h : Storable j) : ReadsBack j := by
  induction h with
  | null =>
    apply readsBack_of_readScalar
    intro _ rest _
    have hword : ("null".toList, .null) ∈ words := by simp [words]
    exact readScalar_word hword rest
  | bool b =>
    apply readsBack_of_readScalar
    intro _ rest _
    have hword : (if b then "true".toList else "false".toList, .bool b) ∈ words := by cases b <;> simp [words]
    exact readScalar_word hword rest
  | int h => exact readsBack_of_readScalar fun _ _ hrest => readScalar_integer h hrest
  | num h => exact readsBack_of_readScalar fun _ _ hrest => readScalar_number h hrest
  | str s => exact readsBack_str s
  | arr _ ih => exact readsBack_arr ih
  | obj hkeys _ ih => exact readsBack_obj hkeys ih

/-- What is written is read as it was. -/
theorem read_write {j : Json} (h : Storable j) : read (write j) = .ok j := by
  have hback := h.readsBack
  obtain ⟨c, more, htext, hblank, -⟩ := hback.head 0
  have hread := hback (2 * (writeAt 0 j).length + 2) 0 [] ends_nil (by omega)
  rw [List.append_nil, htext] at hread
  rw [write, read, String.toList_ofList, htext, skipBlanks_of_head hblank]
  simp only [hread, bind, Except.bind]
  rfl

/-! ### Line ends

A document is kept in a file, and reading a file turns carriage returns into line feeds. There are
none in a document. Numerals have no character below the blank in them, whatever their format. -/

section Numerals

variable {z : Char} (hz : z.toNat < 0x20)

include hz

theorem control_ne {c : Char} (hc : 0x20 ≤ c.toNat) : z ≠ c := by
  rintro rfl
  omega

theorem control_not_mem_digits {cs : List Char} (h : ∀ c ∈ cs, c.isDigit = true) : z ∉ cs := by
  intro hmem
  have hdigit := h z hmem
  simp only [Char.isDigit, Bool.and_eq_true, decide_eq_true_eq] at hdigit
  have hlow : 48 ≤ z.toNat := hdigit.1
  omega

theorem control_not_mem_positional (d : Decimal) : z ∉ d.positional.1 ∧ z ∉ d.positional.2 := by
  have hdigits := isDigit_toDigits d.coefficient
  obtain ⟨coefficient, exponent⟩ := d
  cases exponent with
  | ofNat e =>
    refine ⟨control_not_mem_digits hz ?_, List.not_mem_nil⟩
    exact List.forall_mem_append.mpr ⟨hdigits, Number.isDigit_of_mem_zeros e⟩
  | negSucc e =>
    obtain ⟨ds, fs, hpositional, -, hparts⟩ := Number.positional_negSucc coefficient e
    rw [hpositional]
    rcases hparts with ⟨-, hall⟩ | ⟨rfl, zeros, rfl⟩
    · rw [← hall] at hdigits
      obtain ⟨hds, hfs⟩ := List.forall_mem_append.mp hdigits
      exact ⟨control_not_mem_digits hz hds, control_not_mem_digits hz hfs⟩
    · refine ⟨control_not_mem_digits hz (by simp), control_not_mem_digits hz ?_⟩
      exact List.forall_mem_append.mpr ⟨Number.isDigit_of_mem_zeros zeros, hdigits⟩

theorem control_not_mem_scientific (d : Decimal) : z ∉ d.scientific := by
  have hdigits := control_not_mem_digits hz (isDigit_toDigits d.coefficient)
  have hpower := control_not_mem_digits hz (isDigit_toDigits d.leading.natAbs)
  have htake : z ∉ d.digits.take 1 := fun h => hdigits (List.mem_of_mem_take h)
  have hdrop : z ∉ d.digits.drop 1 := fun h => hdigits (List.mem_of_mem_drop h)
  unfold Decimal.scientific
  simp only [List.mem_append, not_or]
  refine ⟨⟨⟨⟨⟨htake, ?_⟩, hdrop⟩, ?_⟩, ?_⟩, hpower⟩
  · split <;> simp [control_ne hz]
  · split <;> simp [control_ne hz]
  · exact control_not_mem_digits hz (Number.isDigit_of_mem_zeros _)

theorem control_not_mem_number {f : NumberFormat} (hwhole : z ∉ f.whole) (hinfinity : z ∉ f.infinity) (hnan : z ∉ f.nan)
    (x : Number) : z ∉ (f.text x).toList := by
  have hdecimal (d : Decimal) : z ∉ f.decimal d := by
    unfold NumberFormat.decimal
    split
    · obtain ⟨hbefore, hfraction⟩ := control_not_mem_positional hz d
      dsimp only
      rw [List.mem_append, not_or]
      refine ⟨hbefore, ?_⟩
      split
      · exact hwhole
      · rw [List.mem_cons, not_or]
        exact ⟨control_ne hz (by decide), hfraction⟩
    · exact control_not_mem_scientific hz d
  have hunsigned : z ∉ f.unsigned x := by
    unfold NumberFormat.unsigned
    split
    · exact hdecimal _
    · exact hinfinity
  rw [NumberFormat.text, String.toList_ofList]
  split
  · exact hnan
  split
  · rw [List.mem_cons, not_or]
    exact ⟨control_ne hz (by decide), hunsigned⟩
  · exact hunsigned

theorem control_not_mem_integer (i : Int) : z ∉ (toString i).toList := by
  have hdigits := control_not_mem_digits hz (isDigit_toDigits i.natAbs)
  rw [toList_toString]
  split
  · rw [List.mem_cons, not_or]
    exact ⟨control_ne hz (by decide), hdigits⟩
  · exact hdigits

end Numerals

theorem Escape.return_not_mem {c : Char} {text : List Char} (h : Escape c text) : '\r' ∉ text := by
  cases h with
  | @letter l hl h =>
    intro hmem
    rcases List.mem_cons.mp hmem with hmem | hmem
    · cases hmem
    · obtain rfl := List.mem_singleton.mp hmem
      cases h
  | code h =>
    have hall : ∀ n < 0x20, '\r' ∉ '\\' :: 'u' :: Text.hexDigits 4 n := by decide
    exact hall c.toNat h
  | plain _ _ hcontrol =>
    intro hmem
    obtain rfl := List.mem_singleton.mp hmem
    exact hcontrol (by decide)

theorem return_not_mem_string (s : String) : '\r' ∉ writeString s := by
  simp only [writeString, List.mem_append, List.mem_cons, List.mem_flatMap, List.not_mem_nil, or_false, not_or,
    not_exists, not_and]
  exact ⟨⟨by decide, fun c _ => (escape_escapeChar c).return_not_mem⟩, by decide⟩

theorem return_not_mem_newline (depth : Nat) : '\r' ∉ newline depth := by
  intro hmem
  rcases List.mem_cons.mp hmem with hmem | hmem
  · cases hmem
  · cases List.eq_of_mem_replicate hmem

theorem return_not_mem_items {depth : Nat} {items : List Json} (h : ∀ j ∈ items, ∀ depth, '\r' ∉ writeAt depth j) :
    '\r' ∉ writeItems depth items := by
  induction items with
  | nil => exact List.not_mem_nil
  | cons j items ih =>
    obtain ⟨hj, hitems⟩ := List.forall_mem_cons.mp h
    simp [writeItems, return_not_mem_newline, hj depth, ih hitems]

theorem return_not_mem_fields {depth : Nat} {fields : List (String × Json)}
    (h : ∀ field ∈ fields, ∀ depth, '\r' ∉ writeAt depth field.2) :
    '\r' ∉ writeFields depth fields := by
  induction fields with
  | nil => exact List.not_mem_nil
  | cons field fields ih =>
    obtain ⟨hfield, hfields⟩ := List.forall_mem_cons.mp h
    simp [writeFields, return_not_mem_newline, return_not_mem_string, hfield depth, ih hfields]

theorem Storable.return_not_mem {j : Json} (h : Storable j) (depth : Nat) : '\r' ∉ writeAt depth j := by
  induction h generalizing depth with
  | null => simp [writeAt]
  | bool b => cases b <;> simp [writeAt]
  | int _ => exact control_not_mem_integer (by decide) _
  | num _ => exact control_not_mem_number (by decide) (by decide +kernel) (by decide +kernel) (by decide +kernel) _
  | str s => exact return_not_mem_string s
  | @arr items _ ih =>
    cases items with
    | nil => simp [writeAt]
    | cons j items =>
      obtain ⟨hj, hitems⟩ := List.forall_mem_cons.mp ih
      simp [writeAt, return_not_mem_newline, hj, return_not_mem_items hitems]
  | @obj fields _ _ ih =>
    cases fields with
    | nil => simp [writeAt]
    | cons field fields =>
      obtain ⟨hfield, hfields⟩ := List.forall_mem_cons.mp ih
      simp [writeAt, return_not_mem_newline, return_not_mem_string, hfield, return_not_mem_fields hfields]

theorem unifyNewlines_of_not_mem {cs : List Char} (h : '\r' ∉ cs) : Text.unifyNewlines cs = cs := by
  induction cs with
  | nil => rfl
  | cons c cs ih =>
    obtain ⟨hc, hcs⟩ := not_or.mp (mt List.mem_cons.mpr h)
    simp [Text.unifyNewlines, Ne.symm hc, ih hcs]

/-- A document in a file is read as it was written. -/
theorem unifyNewlines_write {j : Json} (h : Storable j) :
    String.ofList (Text.unifyNewlines (write j).toList) = write j := by
  rw [write, String.toList_ofList, unifyNewlines_of_not_mem (h.return_not_mem 0)]

end LoxLang.Json
