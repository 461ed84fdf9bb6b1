import LoxLang.Eval.Basic
import LoxLang.Proofs.Json.Numerals
import LoxLang.Proofs.Node.RoundTrip
/-!
# Numbers as source text

Every finite number has a text that means it: the text parses without a report, and the expression has
the number as its value, down to the sign of zero. The language has neither negative numerals nor powers
of ten, so a negative number is written as a negation in parentheses and a power of ten as zeros.

The text comes from the exact one in three steps: a zero behind the point of a whole number is dropped,
a power of ten is written out, and the sign is set apart from a number below zero. A negative zero is
not below zero and keeps its sign in front.
-/

namespace LoxLang

open Grammar

namespace Number

/-! ### Signs -/

theorem neg_neg (x : Number) : x.neg.neg = x := by
  apply congrArg Number.mk
  show x.bits ^^^ 0x8000000000000000 ^^^ 0x8000000000000000 = x.bits
  rw [UInt64.xor_assoc, UInt64.xor_self, UInt64.xor_zero]

theorem neg_abs_of_negative {x : Number} (h : x.negative = true) : x.abs.neg = x := by
  have habs := signed_abs x
  rwa [h] at habs

theorem neg_of_negative {x : Number} (h : x.negative = true) : x.neg = x.abs := by
  rw [← neg_neg x.abs, neg_abs_of_negative h]

theorem bits_abs (x : Number) : x.abs.bits.toNat = x.magnitude := by
  have hlow : x.magnitude < signBit := Nat.mod_lt _ (by decide)
  have hrange : signBit < 2 ^ 64 := by decide
  rw [abs, ofMagnitude, UInt64.toNat_ofNat', Nat.mod_eq_of_lt (by omega)]

theorem negative_abs (x : Number) : x.abs.negative = false := by
  have hlow : x.magnitude < signBit := Nat.mod_lt _ (by decide)
  rw [negative, bits_abs]
  exact decide_eq_false (Nat.not_le.mpr hlow)

theorem magnitude_abs (x : Number) : x.abs.magnitude = x.magnitude := by
  rw [magnitude, bits_abs, magnitude, Nat.mod_mod]

theorem isFinite_abs (x : Number) : x.abs.isFinite = x.isFinite := by
  rw [isFinite, magnitude_abs, isFinite]

theorem rank_zero : zero.rank = 0 := by decide

theorem negative_of_lt_zero {x : Number} (h : x.lt zero = true) : x.negative = true := by
  have hrank : x.rank < zero.rank := of_decide_eq_true (Bool.and_eq_true_iff.mp h).2
  rw [rank_zero, rank] at hrank
  split at hrank
  next hsign => exact hsign
  next => omega

/-- The only number with a sign that is not below zero is zero. -/
theorem eq_neg_zero {x : Number} (hfinite : x.isFinite = true) (hsign : x.negative = true) (hlt : x.lt zero = false) :
    x = zero.neg := by
  have hnumber : comparable x zero = true := by
    have hbound : x.magnitude < infinityBits := of_decide_eq_true hfinite
    have hself : x.isNaN = false := decide_eq_false (Nat.not_lt.mpr (Nat.le_of_lt hbound))
    have hzero : zero.isNaN = false := by decide
    rw [comparable, hself, hzero]
    rfl
  have hrank : ¬x.rank < zero.rank := by
    rw [lt, hnumber, Bool.true_and] at hlt
    exact of_decide_eq_false hlt
  have hmagnitude : x.magnitude = 0 := by
    rw [rank_zero, rank, if_pos hsign] at hrank
    omega
  rw [← neg_abs_of_negative hsign, abs, hmagnitude]
  rfl

/-! ### From the exact text -/

/-- The text without a point and a zero at its end. -/
def dropZeroPlace (text : List Char) : List Char :=
  if ['.', '0'] <:+ text then text.take (text.length - 2) else text

/-- The text with its power of ten, if it has one, written out as digits. -/
def writeOut (text : List Char) : List Char :=
  match text.dropWhile (· != 'e') with
  | _ :: sign :: power =>
    let front := text.takeWhile (· != 'e')
    let whole := front.takeWhile Char.isDigit
    let fraction := (front.dropWhile Char.isDigit).drop 1
    let places : Int := Nat.ofDigitChars 10 power 0
    sourceFormat.decimal
      ⟨Nat.ofDigitChars 10 (whole ++ fraction) 0, (if sign = '-' then -places else places) - fraction.length⟩
  | _ => text

/-- The numeral that the exact text of a number stands for. -/
def plainText (x : Number) : String := String.ofList (writeOut (dropZeroPlace x.exact.toList))

theorem text_of_not_negative (f : NumberFormat) {x : Number} (hfinite : x.isFinite = true) (hsign : x.negative = false) :
    f.text x = String.ofList (f.decimal x.shortest) := by
  have hbound : x.magnitude < infinityBits := of_decide_eq_true hfinite
  have hnumber : x.isNaN = false := decide_eq_false (Nat.not_lt.mpr (Nat.le_of_lt hbound))
  simp [NumberFormat.text, hnumber, hsign, NumberFormat.unsigned, hfinite]

/-! ### The zero behind the point -/

theorem dropZeroPlace_append (text : List Char) : dropZeroPlace (text ++ ['.', '0']) = text := by
  rw [dropZeroPlace, if_pos (List.suffix_append _ _)]
  simp

theorem not_suffix_of_digits {front digits : List Char} (hdigits : ∀ c ∈ digits, c.isDigit = true)
    (hlength : 2 ≤ digits.length) : ¬['.', '0'] <:+ front ++ digits := by
  intro hsuffix
  have hwithin : ['.', '0'] <:+ digits := List.suffix_of_suffix_length_le hsuffix (List.suffix_append _ _) hlength
  have hpoint := hdigits '.' (hwithin.subset (by simp))
  revert hpoint
  decide

/-- A fraction that is not a lone zero stays. -/
theorem not_suffix_of_fraction {whole fraction : List Char} (hdigits : ∀ c ∈ fraction, c.isDigit = true)
    (hne : fraction ≠ []) (hzero : fraction ≠ ['0']) : ¬['.', '0'] <:+ whole ++ '.' :: fraction := by
  intro hsuffix
  rcases Nat.lt_or_ge fraction.length 2 with hshort | hlong
  · obtain ⟨c, more, rfl⟩ := List.exists_cons_of_ne_nil hne
    have hmore : more = [] := List.eq_nil_of_length_eq_zero (by simpa using hshort)
    subst hmore
    have hsame : ['.', '0'] = ['.', c] :=
      (List.suffix_of_suffix_length_le hsuffix (List.suffix_append _ _) (by simp)).eq_of_length rfl
    exact hzero (List.cons.inj hsame).2.symm
  · have happend : whole ++ '.' :: fraction = whole ++ ['.'] ++ fraction := by simp
    rw [happend] at hsuffix
    exact not_suffix_of_digits hdigits hlong hsuffix

theorem ofDigitChars_concat_mod {c : Char} (hc : c.isDigit = true) (cs : List Char) :
    Nat.ofDigitChars 10 (cs ++ [c]) 0 % 10 = 0 ↔ c = '0' := by
  have hrange : 48 ≤ c.toNat ∧ c.toNat ≤ 57 := by
    simpa [Char.isDigit, UInt32.le_iff_toNat_le] using hc
  have hzero : c = '0' ↔ c.toNat = 48 := by
    constructor
    · rintro rfl
      rfl
    · intro h
      exact Char.toNat_inj.mp h
  have hfirst : '0'.toNat = 48 := rfl
  rw [Nat.ofDigitChars_append, Nat.ofDigitChars_cons, Nat.ofDigitChars_nil, hzero, hfirst]
  omega

/-- The digits around the point are those of the coefficient, behind zeros. -/
theorem positional_value {d : Decimal} {whole fraction : List Char} (h : d.positional = (whole, fraction))
    (hfraction : fraction ≠ []) : (∀ c ∈ whole ++ fraction, c.isDigit = true) ∧
      Nat.ofDigitChars 10 (whole ++ fraction) 0 = d.coefficient ∧ d.exponent = -(fraction.length : Int) := by
  obtain ⟨coefficient, exponent⟩ := d
  cases exponent with
  | ofNat e => exact absurd (Prod.mk.inj h).2.symm hfraction
  | negSucc e =>
    obtain ⟨ds, fs, hpositional, hlength, hdigits⟩ := positional_negSucc coefficient e
    obtain ⟨rfl, rfl⟩ := Prod.mk.inj (hpositional.symm.trans h)
    have hall : ∃ zeros, ds ++ fs = List.replicate zeros '0' ++ Nat.toDigits 10 coefficient := by
      rcases hdigits with ⟨-, hall⟩ | ⟨rfl, zeros, rfl⟩
      · exact ⟨0, hall⟩
      · exact ⟨zeros + 1, rfl⟩
    obtain ⟨zeros, hall⟩ := hall
    rw [hall, hlength]
    refine ⟨?_, Json.ofDigitChars_zeros_append zeros coefficient, rfl⟩
    exact List.forall_mem_append.mpr ⟨isDigit_of_mem_zeros zeros, Json.isDigit_toDigits coefficient⟩

/-- A power of ten ends in at least two digits. -/
theorem scientific_ends (d : Decimal) : ∃ front power, d.scientific = front ++ power ∧
    (∀ c ∈ power, c.isDigit = true) ∧ 2 ≤ power.length := by
  refine ⟨_, List.replicate (2 - (Nat.toDigits 10 d.leading.natAbs).length) '0' ++ Nat.toDigits 10 d.leading.natAbs,
    List.append_assoc .., ?_, ?_⟩
  · exact List.forall_mem_append.mpr ⟨isDigit_of_mem_zeros _, Json.isDigit_toDigits _⟩
  · rw [List.length_append, List.length_replicate]
    omega

/-- Without a zero at the end of its digits, the exact text of a decimal differs from the displayed one by the zero of
whole numbers alone. -/
theorem dropZeroPlace_decimal {d : Decimal} (hlast : d.coefficient % 10 ≠ 0 ∨ d.exponent ≠ -1) :
    dropZeroPlace (exactFormat.decimal d) = displayFormat.decimal d := by
  have hsame : displayFormat.isPositional d = exactFormat.isPositional d := rfl
  unfold NumberFormat.decimal
  rw [hsame]
  split
  · cases hparts : d.positional with
    | mk whole fraction =>
      dsimp only
      by_cases hempty : fraction = []
      · rw [hempty]
        show dropZeroPlace (whole ++ ['.', '0']) = whole ++ []
        rw [dropZeroPlace_append, List.append_nil]
      · obtain ⟨hdigits, hvalue, hexponent⟩ := positional_value hparts hempty
        have hzero : fraction ≠ ['0'] := by
          rintro rfl
          have hten : d.coefficient % 10 = 0 := hvalue ▸ (ofDigitChars_concat_mod rfl whole).mpr rfl
          rcases hlast with hlast | hlast
          · exact hlast hten
          · exact hlast hexponent
        have hstays : ¬['.', '0'] <:+ whole ++ '.' :: fraction :=
          not_suffix_of_fraction (List.forall_mem_append.mp hdigits).2 hempty hzero
        have hpoint : fraction.isEmpty = false := by simpa using hempty
        rw [hpoint]
        exact if_neg hstays
  · obtain ⟨front, power, hscientific, hdigits, hlength⟩ := scientific_ends d
    rw [hscientific]
    exact if_neg (not_suffix_of_digits hdigits hlength)

/-! ### Trailing zeros -/

theorem trim_coefficient_mod {d : Decimal} (hne : d.coefficient ≠ 0) : d.trim.coefficient % 10 ≠ 0 := by
  generalize hdigits : Nat.toDigits 10 d.coefficient = digits
  have hvalue : Nat.ofDigitChars 10 digits 0 = d.coefficient := hdigits ▸ Nat.ofDigitChars_ten_toDigits
  generalize hzeros : (digits.reverse.takeWhile (· == '0')).length = zeros
  have hall : digits.reverse.takeWhile (· == '0') = List.replicate zeros '0' := by
    apply List.eq_replicate_iff.mpr
    exact ⟨hzeros, fun c hc => by simpa using List.all_eq_true.mp List.all_takeWhile c hc⟩
  have hsplit : digits = (digits.reverse.dropWhile (· == '0')).reverse ++ List.replicate zeros '0' := by
    have hreverse := congrArg List.reverse (List.takeWhile_append_dropWhile (p := (· == '0')) (l := digits.reverse))
    rw [List.reverse_append, List.reverse_reverse, hall, List.reverse_replicate] at hreverse
    exact hreverse.symm
  have hcoefficient : d.trim.coefficient = Nat.ofDigitChars 10 (digits.reverse.dropWhile (· == '0')).reverse 0 := by
    rw [hsplit, Nat.ofDigitChars_append, Nat.ofDigitChars_replicate_zero] at hvalue
    rw [Decimal.trim, hdigits, hzeros, Nat.pow_eq, ← hvalue]
    exact Nat.mul_div_cancel_left _ (ten_pow_pos zeros)
  rw [hcoefficient]
  cases hrest : digits.reverse.dropWhile (· == '0') with
  | nil =>
    rw [hsplit, hrest, List.reverse_nil, List.nil_append, Nat.ofDigitChars_replicate_zero] at hvalue
    exact absurd hvalue.symm hne
  | cons c more =>
    have hmem : c ∈ Nat.toDigits 10 d.coefficient := by
      rw [hdigits, hsplit, hrest]
      simp
    have hstop : c ≠ '0' := by
      have hhead := List.head_dropWhile_not (· == '0') (l := digits.reverse) (by simp [hrest])
      simpa [hrest] using hhead
    rw [List.reverse_cons]
    exact fun hmod => hstop ((ofDigitChars_concat_mod (Json.isDigit_toDigits _ c hmem) _).mp hmod)

/-- The shortest decimal of a number has no zero at the end of its digits, if these end right behind the point. -/
theorem shortest_last {x : Number} (hfinite : x.isFinite = true) :
    x.shortest.coefficient % 10 ≠ 0 ∨ x.shortest.exponent ≠ -1 := by
  have htrim {d : Decimal} {coefficient : Nat} {place : Int} (h : x.readsBack? coefficient place = some d) :
      ∃ d₀ : Decimal, d = d₀.trim := by
    simp only [readsBack?, Option.ite_none_right_eq_some, Option.some.injEq] at h
    exact ⟨⟨coefficient, place⟩, h.2.symm⟩
  have hfound {d : Decimal} {place : Int} (h : x.onGrid? place = some d) : ∃ d₀ : Decimal, d = d₀.trim := by
    simp only [onGrid?, Option.orElse_eq_orElse, Option.orElse_eq_or, Option.or_eq_some_iff] at h
    rcases h with h | ⟨-, h⟩
    · exact htrim h
    · exact htrim h
  have hcases : x.shortest = ⟨0, 0⟩ ∨ x.shortest = x.expansion ∨ ∃ d₀ : Decimal, x.shortest = d₀.trim := by
    unfold shortest
    split
    · exact .inl rfl
    · dsimp only
      cases hgrid : (List.range 17).findSome? fun n : Nat => x.onGrid? (leadingPlace x.units unitsPerOne - n) with
      | none => exact .inr (.inl rfl)
      | some d =>
        obtain ⟨n, -, hn⟩ := List.exists_of_findSome?_eq_some hgrid
        exact .inr (.inr (hfound hn))
  rcases hcases with hzero | hexpansion | ⟨d₀, htrimmed⟩
  · rw [hzero]
    exact .inr (by decide)
  · have hexponent : x.expansion.exponent = -1074 := rfl
    right
    rw [hexpansion, hexponent]
    decide
  · rcases Json.shortest_coefficient hfinite with hne | hzero
    · rw [htrimmed] at hne ⊢
      left
      apply trim_coefficient_mod
      intro hcoefficient
      apply hne
      rw [Decimal.trim, hcoefficient, Nat.zero_div]
    · rw [hzero]
      exact .inr (by decide)

/-! ### Powers of ten -/

theorem writeOut_of_not_mem {text : List Char} (h : 'e' ∉ text) : writeOut text = text := by
  have hnone : text.dropWhile (· != 'e') = [] := by
    apply List.dropWhile_eq_nil_iff.mpr
    intro c hc
    simp only [bne_iff_ne, ne_eq]
    rintro rfl
    exact h hc
  rw [writeOut, hnone]

theorem mark_not_mem_digits {digits : List Char} (h : ∀ c ∈ digits, c.isDigit = true) : 'e' ∉ digits := by
  intro hmem
  have hmark := h 'e' hmem
  revert hmark
  decide

theorem mark_not_mem_numeral {cs : List Char} (h : IsNumeral cs) : 'e' ∉ cs := by
  cases h with
  | whole _ hds => exact mark_not_mem_digits hds
  | fraction _ hds _ hfs =>
    rw [List.mem_append, List.mem_cons, not_or, not_or]
    exact ⟨mark_not_mem_digits hds, by decide, mark_not_mem_digits hfs⟩

/-- A text with a power of ten stands for the decimal of its digits. -/
theorem writeOut_power {whole point fraction power : List Char} (sign : Char) (hwhole : ∀ c ∈ whole, c.isDigit = true)
    (hfraction : ∀ c ∈ fraction, c.isDigit = true) (hpoint : point = [] ∧ fraction = [] ∨ point = ['.']) :
    writeOut (whole ++ (point ++ fraction) ++ 'e' :: sign :: power) = sourceFormat.decimal
      ⟨Nat.ofDigitChars 10 (whole ++ fraction) 0,
        (if sign = '-' then -(Nat.ofDigitChars 10 power 0 : Int) else Nat.ofDigitChars 10 power 0) - fraction.length⟩ := by
  have hmark : 'e' ∉ whole ++ (point ++ fraction) := by
    rw [List.mem_append, List.mem_append, not_or, not_or]
    refine ⟨mark_not_mem_digits hwhole, ?_, mark_not_mem_digits hfraction⟩
    rcases hpoint with ⟨rfl, -⟩ | rfl
    · exact List.not_mem_nil
    · decide
  have hfront : ∀ c ∈ whole ++ (point ++ fraction), (c != 'e') = true := by
    intro c hc
    simp only [bne_iff_ne, ne_eq]
    rintro rfl
    exact hmark hc
  have hend : ∀ c ∈ ('e' :: sign :: power).head?, (c != 'e') = false := by simp
  obtain ⟨htake, hdrop⟩ := Segment.takeWhile_append_stop hfront hend
  have hstop : ∀ c ∈ (point ++ fraction).head?, c.isDigit = false := by
    rcases hpoint with ⟨rfl, rfl⟩ | rfl
    · simp
    · simp
  obtain ⟨htakeWhole, hdropWhole⟩ := Segment.takeWhile_append_stop hwhole hstop
  have hbehind : (point ++ fraction).drop 1 = fraction := by
    rcases hpoint with ⟨rfl, rfl⟩ | rfl
    · rfl
    · rfl
  simp only [writeOut, htake, hdrop, htakeWhole, hdropWhole, hbehind]

theorem writeOut_scientific (d : Decimal) : writeOut d.scientific = sourceFormat.decimal d := by
  generalize hpower : List.replicate (2 - (Nat.toDigits 10 d.leading.natAbs).length) '0' ++
    Nat.toDigits 10 d.leading.natAbs = power
  generalize hpoint : (if d.digits.length = 1 then [] else ['.']) = point
  generalize hsign : (if d.leading < 0 then '-' else '+') = sign
  have hscientific : d.scientific = d.digits.take 1 ++ (point ++ d.digits.drop 1) ++ 'e' :: sign :: power := by
    simp only [Decimal.scientific, hpoint, hsign, ← hpower, List.append_assoc, List.cons_append, List.nil_append]
  have hdigits : ∀ c ∈ d.digits, c.isDigit = true := Json.isDigit_toDigits d.coefficient
  have hnonempty : 0 < d.digits.length := Nat.length_toDigits_pos
  have hwhole : ∀ c ∈ d.digits.take 1, c.isDigit = true := fun c hc => hdigits c (List.mem_of_mem_take hc)
  have hfraction : ∀ c ∈ d.digits.drop 1, c.isDigit = true := fun c hc => hdigits c (List.mem_of_mem_drop hc)
  have hshape : point = [] ∧ d.digits.drop 1 = [] ∨ point = ['.'] := by
    by_cases hone : d.digits.length = 1
    · exact .inl ⟨hpoint ▸ if_pos hone, List.drop_eq_nil_of_le hone.le⟩
    · exact .inr (hpoint ▸ if_neg hone)
  have hcoefficient : Nat.ofDigitChars 10 (d.digits.take 1 ++ d.digits.drop 1) 0 = d.coefficient := by
    rw [List.take_append_drop]
    exact Nat.ofDigitChars_ten_toDigits
  have hplaces : Nat.ofDigitChars 10 power 0 = d.leading.natAbs := hpower ▸ Json.ofDigitChars_zeros_append _ _
  have hexponent : (if sign = '-' then -(d.leading.natAbs : Int) else d.leading.natAbs) - (d.digits.drop 1).length =
      d.exponent := by
    have hleading : d.leading = d.exponent + d.digits.length - 1 := rfl
    rw [List.length_drop, ← hsign]
    by_cases hnegative : d.leading < 0
    · rw [if_pos hnegative, if_pos rfl]
      omega
    · rw [if_neg hnegative, if_neg (by decide)]
      omega
  rw [hscientific, writeOut_power sign hwhole hfraction hshape, hcoefficient, hplaces, hexponent]

/-- The displayed text of a decimal, with its power of ten written out if it has one, is the text without powers of
ten. -/
theorem writeOut_decimal (d : Decimal) : writeOut (displayFormat.decimal d) = sourceFormat.decimal d := by
  by_cases hpositional : displayFormat.isPositional d = true
  · have hsame : displayFormat.decimal d = sourceFormat.decimal d := by
      rw [NumberFormat.decimal, if_pos hpositional]
      rfl
    rw [hsame]
    exact writeOut_of_not_mem (mark_not_mem_numeral (decimal_numeral d).1)
  · rw [NumberFormat.decimal, if_neg hpositional]
    exact writeOut_scientific d

/-- Source text has the numeral that the exact text stands for, set apart from the sign of a number below zero. -/
theorem source_eq_plainText {x : Number} (hfinite : x.isFinite = true) :
    x.source = if x.lt zero then "(-" ++ x.neg.plainText ++ ")" else x.plainText := by
  have hplain {y : Number} (hy : y.isFinite = true) (hsign : y.negative = false) :
      sourceFormat.text y = y.plainText := by
    rw [plainText, exact, text_of_not_negative _ hy hsign, text_of_not_negative _ hy hsign, String.toList_ofList,
      dropZeroPlace_decimal (shortest_last hy), writeOut_decimal]
  rw [source]
  split
  next hlt =>
    have hneg := neg_of_negative (negative_of_lt_zero hlt)
    rw [hneg, hplain ((isFinite_abs x).trans hfinite) (negative_abs x)]
  next hlt =>
    cases hsign : x.negative with
    | false => exact hplain hfinite hsign
    | true =>
      rw [eq_neg_zero hfinite hsign (Bool.eq_false_iff.mpr hlt)]
      decide +kernel

end Number

/-! ### Parsing -/

theorem Token.literal_of_bare {t : Token} {ds : List Char} (h : t.bare = Token.ofLexeme .number ds 0) :
    t.literal = .num (Number.ofNumeral ds) :=
  congrArg Token.literal h

theorem derives_numeral {t : Token} {ds : List Char} (h : t.bare = Token.ofLexeme .number ds 0) :
    Derives .call [t] (.literal (.num (Number.ofNumeral ds))) := by
  have hvalue : Derives .primary [t] (.literal (.ofScalar t.literal)) := .value (.inl (Token.kind_of_bare h))
  rw [Token.literal_of_bare h] at hvalue
  exact hvalue.primary_toCall

theorem derives_negated {sign t : Token} {ds : List Char} (hsign : sign.kind = .minus)
    (h : t.bare = Token.ofLexeme .number ds 0) :
    DerivesExpression [sign, t] (.unary (.token sign) (.literal (.num (Number.ofNumeral ds)))) :=
  (Derives.sign (.inr hsign) (.noSign (derives_numeral h))).unary_toExpression

theorem cuts_numeral {ds rest : List Char} (h : IsNumeral ds) (hrest : Delimits rest) :
    Cuts ds [.lexeme .number ds] rest :=
  .lexeme (.numeral h) hrest

theorem cuts_negated {ds rest : List Char} (h : IsNumeral ds) (hrest : Delimits rest) :
    Cuts ('-' :: ds) [.lexeme .minus ['-'], .lexeme .number ds] rest := by
  have hminus : Cuts ['-'] [.lexeme .minus ['-']] (ds ++ rest) := .bracket rfl rfl (by decide) _
  exact hminus.append (cuts_numeral h hrest)

theorem parseExpression_numeral {text : String} (h : IsNumeral text.toList) :
    parseExpression text = ⟨some (.literal (.num (Number.ofNumeral text.toList))), []⟩ := by
  obtain ⟨htokens, hclean⟩ := scan_of_cuts (cuts_numeral h (by simp [Delimits])) (by simp [Segment.isTidy])
  obtain ⟨t, rest, hscan, ht, hrest⟩ := List.map_eq_cons_iff.mp htokens
  obtain rfl := List.map_eq_nil_iff.mp hrest
  rw [parseExpression_eq_iff, hscan]
  exact ⟨hclean, (derives_numeral ht).call_toExpression⟩

theorem parseExpression_negated {text : String} {ds : List Char} (htext : text.toList = '-' :: ds) (h : IsNumeral ds) :
    ∃ t : Token, t.kind = .minus ∧
      parseExpression text = ⟨some (.unary (.token t) (.literal (.num (Number.ofNumeral ds)))), []⟩ := by
  have hend : Delimits [] := by simp [Delimits]
  have hcuts := cuts_negated h hend
  rw [← htext] at hcuts
  obtain ⟨htokens, hclean⟩ := scan_of_cuts hcuts (by simp [Segment.isTidy])
  obtain ⟨sign, rest, hscan, hsign, hrest⟩ := List.map_eq_cons_iff.mp htokens
  obtain ⟨t, rest, rfl, ht, hrest⟩ := List.map_eq_cons_iff.mp hrest
  obtain rfl := List.map_eq_nil_iff.mp hrest
  refine ⟨sign, Token.kind_of_bare hsign, ?_⟩
  rw [parseExpression_eq_iff, hscan]
  exact ⟨hclean, derives_negated (Token.kind_of_bare hsign) ht⟩

theorem parseExpression_enclosed {text : String} {ds : List Char} (htext : text.toList = '(' :: '-' :: ds ++ [')'])
    (h : IsNumeral ds) : ∃ t : Token, t.kind = .minus ∧
      parseExpression text = ⟨some (.grouping (.unary (.token t) (.literal (.num (Number.ofNumeral ds))))), []⟩ := by
  have hopen : Cuts ['('] [.lexeme .leftParen ['(']] ('-' :: ds ++ [')'] ++ []) := .bracket rfl rfl (by decide) _
  have hclose : Cuts [')'] [.lexeme .rightParen [')']] [] := .bracket rfl rfl (by decide) _
  have hcuts := hopen.append ((cuts_negated h (delimits_cons (by decide) [])).append hclose)
  have hall : ['('] ++ ('-' :: ds ++ [')']) = text.toList := by
    rw [htext]
    rfl
  rw [hall] at hcuts
  obtain ⟨htokens, hclean⟩ := scan_of_cuts hcuts (by simp [Segment.isTidy])
  obtain ⟨opening, rest, hscan, hopening, hrest⟩ := List.map_eq_cons_iff.mp htokens
  obtain ⟨sign, rest, rfl, hsign, hrest⟩ := List.map_eq_cons_iff.mp hrest
  obtain ⟨t, rest, rfl, ht, hrest⟩ := List.map_eq_cons_iff.mp hrest
  obtain ⟨closing, rest, rfl, hclosing, hrest⟩ := List.map_eq_cons_iff.mp hrest
  obtain rfl := List.map_eq_nil_iff.mp hrest
  refine ⟨sign, Token.kind_of_bare hsign, ?_⟩
  rw [parseExpression_eq_iff, hscan]
  have hinside := derives_negated (Token.kind_of_bare hsign) ht
  have hgroup := Derives.grouping (Token.kind_of_bare hopening) (Token.kind_of_bare hclosing) hinside
  exact ⟨hclean, hgroup.primary_toCall.call_toExpression⟩

/-! ### Meaning -/

theorem eval_negated {t : Token} (ht : t.kind = .minus) (x : Number) (fuel calls : Nat) (scope : ScopeId) (st : State) :
    Eval.eval (fuel + 2) calls scope (.unary (.token t) (.literal (.num x))) st = .ok (.num x.neg) st := by
  have happly : Eval.applyUnary t (.num x) = pure (.num x.neg) := by rw [Eval.applyUnary, ht]
  show (Eval.applyUnary t (.num x)) st = _
  rw [happly]
  rfl

/-- How a finite number is written: as a numeral, which is digits with digits behind a point or not; as such behind a
minus sign in parentheses, if it is below zero; or as a zero behind a minus sign. -/
inductive Number.WrittenAs (x : Number) : List Char → Prop
  | numeral {ds : List Char} (hsign : x.negative = false) (h : IsNumeral ds) : x.WrittenAs ds
  | negativeZero (h : x = zero.neg) : x.WrittenAs ['-', '0']
  | belowZero {ds : List Char} (hlt : x.lt zero = true) (h : IsNumeral ds) : x.WrittenAs ('(' :: '-' :: ds ++ [')'])

/-- The source text of every finite number is parsed without a report to an expression whose value it is, sign of zero
included, in every state and scope. -/
theorem number_of_source (x : Number) (hfinite : x.isFinite = true) : ∃ text e,
    (Node.num x).literalSource = .ok text ∧
    text = (if x.lt .zero then "(-" ++ x.neg.plainText ++ ")" else x.plainText) ∧
    x.WrittenAs text.toList ∧
    parseExpression text = ⟨some e, []⟩ ∧
    ∀ fuel calls scope st, Eval.eval (fuel + 3) calls scope e st = .ok (.num x) st := by
  have hplain := Number.source_eq_plainText hfinite
  cases hsign : x.negative with
  | false =>
    obtain ⟨hnumeral, hreads⟩ := Number.source_numeral hfinite hsign
    refine ⟨x.source, _, rfl, hplain, .numeral hsign hnumeral, parseExpression_numeral hnumeral, ?_⟩
    intro fuel calls scope st
    rw [hreads]
    rfl
  | true =>
    obtain ⟨hnumeral, hreads⟩ := Number.source_numeral ((Number.isFinite_abs x).trans hfinite) (Number.negative_abs x)
    cases hlt : x.lt .zero with
    | true =>
      have htext : x.source.toList = '(' :: '-' :: x.abs.source.toList ++ [')'] := by
        have hpositive : ¬x.abs.lt .zero = true := by
          intro habs
          have hnegative := Number.negative_of_lt_zero habs
          rw [Number.negative_abs] at hnegative
          cases hnegative
        rw [Number.source, if_pos hlt, Number.neg_of_negative hsign, Number.source, if_neg hpositive]
        simp
      obtain ⟨t, ht, hparsed⟩ := parseExpression_enclosed htext hnumeral
      refine ⟨x.source, _, rfl, hlt ▸ hplain, htext ▸ .belowZero hlt hnumeral, hparsed, ?_⟩
      intro fuel calls scope st
      rw [Eval.eval, eval_negated ht, hreads, Number.neg_abs_of_negative hsign]
    | false =>
      have hzero := Number.eq_neg_zero hfinite hsign hlt
      have htext : x.source.toList = ['-', '0'] := by
        rw [hzero]
        decide +kernel
      obtain ⟨t, ht, hparsed⟩ := parseExpression_negated htext (.whole (by simp) (by simp))
      refine ⟨x.source, _, rfl, hlt ▸ hplain, htext ▸ .negativeZero hzero, hparsed, ?_⟩
      intro fuel calls scope st
      have hread : Number.ofNumeral ['0'] = .zero := by decide +kernel
      rw [eval_negated ht, hread, hzero]

/-- The largest number below zero, whose exact text is `-5e-324`. -/
theorem number_of_source_tiny : ∃ text e, (Node.num ⟨0x8000000000000001⟩).literalSource = .ok text ∧
    text = "(-" ++ (Number.mk 1).plainText ++ ")" ∧
    (Number.mk 0x8000000000000001).WrittenAs text.toList ∧
    parseExpression text = ⟨some e, []⟩ ∧
    ∀ fuel calls scope st, Eval.eval (fuel + 3) calls scope e st = .ok (.num ⟨0x8000000000000001⟩) st :=
  number_of_source ⟨0x8000000000000001⟩ (by decide)

end LoxLang
