import LoxLang.Json.Reader
import LoxLang.Json.Writer
import LoxLang.Proofs.Number.Scientific
/-!
# Written numbers and integers read back

A number is written with its shortest digits, around a point or in front of a power of ten, so it is
never taken for an integer. Each of the forms is read as the decimal that it was written from, and
that decimal is read as the number. Integers read back as long as the reader takes their digits.
-/

namespace LoxLang

namespace Number

/-- The sign bit and the magnitude make up a number. -/
theorem signed_abs (x : Number) : signed x.negative x.abs = x := by
  cases hsign : x.negative with
  | false => exact abs_of_not_negative hsign
  | true =>
    have hlow : 2 ^ 63 ≤ x.bits.toNat := of_decide_eq_true hsign
    have hhigh : x.bits.toNat < 2 ^ 64 := x.bits.toNat_lt
    have hbits : x.bits.toNat % 2 ^ 63 ^^^ 2 ^ 63 = x.bits.toNat := by
      apply Nat.eq_of_testBit_eq
      intro i
      rw [Nat.testBit_xor, Nat.testBit_mod_two_pow, Nat.testBit_two_pow]
      rcases Nat.lt_trichotomy i 63 with hi | rfl | hi
      · simp [hi, Nat.ne_of_gt hi]
      · simp [Nat.testBit_of_two_pow_le_and_two_pow_add_one_gt hlow hhigh]
      · have hzero : x.bits.toNat.testBit i = false :=
          Nat.testBit_lt_two_pow (Nat.lt_of_lt_of_le hhigh (Nat.pow_le_pow_right (by decide) hi))
        simp [hzero, Nat.not_lt_of_gt hi, Nat.ne_of_lt hi]
    have hmod : x.bits.toNat % 2 ^ 63 % 2 ^ 64 = x.bits.toNat % 2 ^ 63 := Nat.mod_eq_of_lt (by omega)
    apply congrArg Number.mk
    apply UInt64.toNat_inj.mp
    rw [UInt64.toNat_xor, Number.abs, ofMagnitude, UInt64.toNat_ofNat', magnitude, signBit, Nat.pow_eq, hmod]
    exact hbits

end Number

namespace Json

/-- What may stand behind a value in a written document. -/
def Ends (rest : List Char) : Prop := ∀ c ∈ rest.head?, c = ',' ∨ c = '\n'

theorem Ends.not_digit {rest : List Char} (h : Ends rest) : ∀ c ∈ rest.head?, c.isDigit = false := by
  intro c hc
  rcases h c hc with rfl | rfl
  · decide
  · decide

theorem span_digits {digits rest : List Char} (hdigits : ∀ c ∈ digits, c.isDigit = true)
    (hrest : ∀ c ∈ rest.head?, c.isDigit = false) : (digits ++ rest).span Char.isDigit = (digits, rest) := by
  obtain ⟨htake, hdrop⟩ := Segment.takeWhile_append_stop hdigits hrest
  rw [List.span_eq_takeWhile_dropWhile, htake, hdrop]

/-! ### The parts of a numeral -/

/-- The digits before a point. -/
inductive IsWhole : List Char → Prop
  | zero : IsWhole ['0']
  | digits {c : Char} {more : List Char} (hc : c ≠ '0') (hdigits : ∀ d ∈ c :: more, d.isDigit = true) :
      IsWhole (c :: more)

theorem readWhole_append {whole rest : List Char} (h : IsWhole whole) (hrest : ∀ c ∈ rest.head?, c.isDigit = false) :
    readWhole (whole ++ rest) = some (whole, rest) := by
  cases h with
  | zero => rfl
  | @digits c more hc hdigits =>
    have hspan := span_digits hdigits hrest
    rw [List.cons_append] at hspan ⊢
    unfold readWhole
    split
    next heq =>
      cases heq
      exact absurd rfl hc
    next heq =>
      cases heq
      rw [if_pos (hdigits c List.mem_cons_self), hspan]
    next heq => cases heq

theorem readFraction_append {fraction rest : List Char} (hne : fraction ≠ [])
    (hdigits : ∀ c ∈ fraction, c.isDigit = true) (hrest : ∀ c ∈ rest.head?, c.isDigit = false) :
    readFraction ('.' :: (fraction ++ rest)) = some (fraction, rest) := by
  obtain ⟨htake, hdrop⟩ := Segment.takeWhile_append_stop hdigits hrest
  simp [readFraction, htake, hdrop, hne]

theorem readFraction_none {rest : List Char} (h : ∀ c ∈ rest.head?, c ≠ '.') : readFraction rest = none := by
  unfold readFraction
  split
  next => exact absurd rfl (h '.' rfl)
  next => rfl

theorem readPower_none {rest : List Char} (h : Ends rest) : readPower rest = none := by
  cases rest with
  | nil => rfl
  | cons c rest => rcases h c rfl with rfl | rfl <;> rfl

/-- A power of ten with its sign. -/
theorem readPower_append {digits rest : List Char} (negative : Bool) (hne : digits ≠ [])
    (hdigits : ∀ c ∈ digits, c.isDigit = true) (hrest : ∀ c ∈ rest.head?, c.isDigit = false) :
    readPower ('e' :: (if negative then '-' else '+') :: (digits ++ rest)) =
      some (if negative then -(Nat.ofDigitChars 10 digits 0 : Int) else Nat.ofDigitChars 10 digits 0, rest) := by
  obtain ⟨htake, hdrop⟩ := Segment.takeWhile_append_stop hdigits hrest
  cases negative with
  | true => simp [readPower, htake, hdrop, hne]
  | false => simp [readPower, htake, hdrop, hne]

/-! ### Digits of coefficients -/

theorem isDigit_toDigits (n : Nat) : ∀ c ∈ Nat.toDigits 10 n, c.isDigit = true :=
  fun _ hc => Nat.isDigit_of_mem_toDigits (by decide) (by decide) hc

theorem toDigits_head {n : Nat} (hn : n ≠ 0) : ∃ c more, Nat.toDigits 10 n = c :: more ∧ c ≠ '0' := by
  induction n using Nat.strongRecOn with
  | ind n ih =>
    rw [Nat.toDigits_eq_if (by decide)]
    split
    next hsmall =>
      have hdigit : ∀ m < 10, m ≠ 0 → m.digitChar ≠ '0' := by decide
      exact ⟨n.digitChar, [], rfl, hdigit n hsmall hn⟩
    next hlarge =>
      obtain ⟨c, more, hdigits, hc⟩ := ih (n / 10) (Nat.div_lt_self (Nat.pos_of_ne_zero hn) (by decide)) (by omega)
      exact ⟨c, more ++ [(n % 10).digitChar], by rw [hdigits, List.cons_append], hc⟩

theorem isWhole_toDigits (n : Nat) : IsWhole (Nat.toDigits 10 n) := by
  by_cases hn : n = 0
  · rw [hn]
    exact .zero
  · have hdigits := isDigit_toDigits n
    obtain ⟨c, more, htext, hc⟩ := toDigits_head hn
    rw [htext] at hdigits ⊢
    exact .digits hc hdigits

/-- Zeros may be put behind all numbers but zero. -/
theorem isWhole_append_zeros {n : Nat} (hn : n ≠ 0) (zeros : Nat) :
    IsWhole (Nat.toDigits 10 n ++ List.replicate zeros '0') := by
  have hdigits := List.forall_mem_append.mpr ⟨isDigit_toDigits n, Number.isDigit_of_mem_zeros zeros⟩
  obtain ⟨c, more, htext, hc⟩ := toDigits_head hn
  rw [htext, List.cons_append] at hdigits ⊢
  exact .digits hc hdigits

/-- Some of the first digits of a number other than zero. -/
theorem isWhole_of_append {n : Nat} (hn : n ≠ 0) {whole more : List Char} (hne : whole ≠ [])
    (h : whole ++ more = Nat.toDigits 10 n) : IsWhole whole := by
  have hdigits := isDigit_toDigits n
  obtain ⟨c, tail, htext, hc⟩ := toDigits_head hn
  obtain ⟨d, rest, rfl⟩ := List.exists_cons_of_ne_nil hne
  rw [← h] at hdigits htext
  obtain ⟨rfl, -⟩ := List.cons.inj htext
  exact .digits hc (List.forall_mem_append.mp hdigits).1

/-! ### Numerals -/

open Number

variable (negative : Bool) {whole rest : List Char}

theorem readNumeral_integer (hwhole : IsWhole whole) (hlength : whole.length ≤ integerDigits) (hrest : Ends rest) :
    readNumeral negative (whole ++ rest) =
      .ok (.int (if negative then -(Nat.ofDigitChars 10 whole 0 : Int) else Nat.ofDigitChars 10 whole 0), rest) := by
  have hpoint : ∀ c ∈ rest.head?, c ≠ '.' := by
    intro c hc
    rcases hrest c hc with rfl | rfl
    · decide
    · decide
  simp only [readNumeral, readWhole_append hwhole hrest.not_digit, readFraction_none hpoint, readPower_none hrest,
    if_neg (Nat.not_lt.mpr hlength)]

theorem readNumeral_fraction {fraction : List Char} (hwhole : IsWhole whole) (hne : fraction ≠ [])
    (hfraction : ∀ c ∈ fraction, c.isDigit = true) (hrest : Ends rest) :
    readNumeral negative (whole ++ '.' :: (fraction ++ rest)) =
      .ok (.num (signed negative (ofDecimal (Nat.ofDigitChars 10 (whole ++ fraction) 0) (0 - fraction.length))),
        rest) := by
  have hpoint : ∀ c ∈ ('.' :: (fraction ++ rest)).head?, c.isDigit = false := by
    intro c hc
    cases hc
    decide
  simp only [readNumeral, readWhole_append hwhole hpoint, readFraction_append hne hfraction hrest.not_digit,
    readPower_none hrest, ofScientific_eq_ofDecimal]

/-- With a power of ten there may be a fraction or none. -/
theorem readNumeral_power (powerNegative : Bool) {point fraction digits : List Char} (hwhole : IsWhole whole)
    (hfraction : ∀ c ∈ fraction, c.isDigit = true) (hpoint : point = [] ∧ fraction = [] ∨ point = ['.'] ∧ fraction ≠ [])
    (hne : digits ≠ []) (hdigits : ∀ c ∈ digits, c.isDigit = true) (hrest : Ends rest) :
    readNumeral negative
      (whole ++ (point ++ (fraction ++ 'e' :: (if powerNegative then '-' else '+') :: (digits ++ rest)))) =
      .ok (.num (signed negative (ofDecimal (Nat.ofDigitChars 10 (whole ++ fraction) 0)
        ((if powerNegative then -(Nat.ofDigitChars 10 digits 0 : Int) else Nat.ofDigitChars 10 digits 0) -
          fraction.length))), rest) := by
  have hpower := readPower_append powerNegative hne hdigits hrest.not_digit
  have hmark (tail : List Char) : ∀ c ∈ ('e' :: tail).head?, c.isDigit = false := by
    intro c hc
    cases hc
    decide
  rcases hpoint with ⟨rfl, rfl⟩ | ⟨rfl, hfne⟩
  · have hnone (tail : List Char) : readFraction ('e' :: tail) = none := rfl
    simp only [List.nil_append, readNumeral, readWhole_append hwhole (hmark _), hnone, hpower,
      ofScientific_eq_ofDecimal]
  · have hpoint (tail : List Char) : ∀ c ∈ ('.' :: tail).head?, c.isDigit = false := by
      intro c hc
      cases hc
      decide
    simp only [List.cons_append, List.nil_append, readNumeral, readWhole_append hwhole (hpoint _),
      readFraction_append hfne hfraction (hmark _), hpower, ofScientific_eq_ofDecimal]

/-! ### Decimals -/

theorem ofDigitChars_toDigits (n : Nat) : Nat.ofDigitChars 10 (Nat.toDigits 10 n) 0 = n := Nat.ofDigitChars_ten_toDigits

theorem ofDigitChars_zeros_append (zeros n : Nat) :
    Nat.ofDigitChars 10 (List.replicate zeros '0' ++ Nat.toDigits 10 n) 0 = n := by
  rw [Nat.ofDigitChars_append, Nat.ofDigitChars_replicate_zero, Nat.mul_zero, ofDigitChars_toDigits]

theorem readNumeral_whole {coefficient e : Nat} (hd : coefficient ≠ 0 ∨ e = 0) (hrest : Ends rest) :
    readNumeral negative (Nat.toDigits 10 coefficient ++ List.replicate e '0' ++ ".0".toList ++ rest) =
      .ok (.num (signed negative (ofDecimal coefficient (.ofNat e))), rest) := by
  have hwhole : IsWhole (Nat.toDigits 10 coefficient ++ List.replicate e '0') := by
    rcases hd with hne | rfl
    · exact isWhole_append_zeros hne e
    · rw [List.replicate_zero, List.append_nil]
      exact isWhole_toDigits coefficient
  have hread := readNumeral_fraction negative hwhole (List.cons_ne_nil '0' []) (by simp) hrest
  have hvalue : Nat.ofDigitChars 10 (Nat.toDigits 10 coefficient ++ List.replicate e '0' ++ ['0']) 0 =
      coefficient * 10 ^ (e + 1) := by
    rw [List.append_assoc, ← List.replicate_succ', Nat.ofDigitChars_append, ofDigitChars_toDigits,
      Nat.ofDigitChars_replicate_zero, Nat.mul_comm]
  have hexponent : (0 : Int) - (['0'] : List Char).length = .ofNat e - (e + 1 : Nat) := by
    rw [List.length_singleton, Int.ofNat_eq_natCast]
    omega
  rw [hvalue, hexponent, ofDecimal_mul_pow] at hread
  rw [List.append_assoc]
  exact hread

theorem readNumeral_places {coefficient e : Nat} (hne : coefficient ≠ 0) (hrest : Ends rest) {ds fs : List Char}
    (h : Decimal.positional ⟨coefficient, .negSucc e⟩ = (ds, fs)) :
    fs ≠ [] ∧ readNumeral negative (ds ++ '.' :: fs ++ rest) =
      .ok (.num (signed negative (ofDecimal coefficient (.negSucc e))), rest) := by
  obtain ⟨ds', fs', hpositional, hlength, hdigits⟩ := positional_negSucc coefficient e
  obtain ⟨rfl, rfl⟩ := Prod.mk.inj (h.symm.trans hpositional)
  have hfne : fs ≠ [] := List.ne_nil_of_length_pos (by omega)
  have hwhole : IsWhole ds := by
    rcases hdigits with ⟨hdne, hall⟩ | ⟨rfl, -⟩
    · exact isWhole_of_append hne hdne hall
    · exact .zero
  obtain ⟨zeros, hall⟩ : ∃ zeros, ds ++ fs = List.replicate zeros '0' ++ Nat.toDigits 10 coefficient := by
    rcases hdigits with ⟨-, hall⟩ | ⟨rfl, zeros, rfl⟩
    · exact ⟨0, hall⟩
    · exact ⟨zeros + 1, rfl⟩
  have hboth : ∀ c ∈ ds ++ fs, c.isDigit = true := by
    rw [hall]
    exact List.forall_mem_append.mpr ⟨isDigit_of_mem_zeros zeros, isDigit_toDigits coefficient⟩
  have hread := readNumeral_fraction negative hwhole hfne (List.forall_mem_append.mp hboth).2 hrest
  have hexponent : (0 : Int) - fs.length = .negSucc e := by
    rw [hlength]
    omega
  rw [hall, ofDigitChars_zeros_append, hexponent] at hread
  rw [List.append_assoc, List.cons_append]
  exact ⟨hfne, hread⟩

theorem readNumeral_scientific {d : Decimal} (hne : d.coefficient ≠ 0) (hrest : Ends rest) :
    readNumeral negative (d.scientific ++ rest) = .ok (.num (signed negative d.toNumber), rest) := by
  have hdigits := isDigit_toDigits d.coefficient
  have hpositive : 0 < (Nat.toDigits 10 d.coefficient).length := Nat.length_toDigits_pos
  have hsplit := List.take_append_drop 1 (Nat.toDigits 10 d.coefficient)
  have hwhole : IsWhole ((Nat.toDigits 10 d.coefficient).take 1) := by
    apply isWhole_of_append hne _ hsplit
    apply List.ne_nil_of_length_pos
    rw [List.length_take]
    omega
  have hfraction : ∀ c ∈ (Nat.toDigits 10 d.coefficient).drop 1, c.isDigit = true :=
    fun c hc => hdigits c (List.mem_of_mem_drop hc)
  have hpoint : (if (Nat.toDigits 10 d.coefficient).length = 1 then [] else ['.']) = ([] : List Char) ∧
      (Nat.toDigits 10 d.coefficient).drop 1 = [] ∨
      (if (Nat.toDigits 10 d.coefficient).length = 1 then [] else ['.']) = ['.'] ∧
      (Nat.toDigits 10 d.coefficient).drop 1 ≠ [] := by
    by_cases hone : (Nat.toDigits 10 d.coefficient).length = 1
    · exact .inl ⟨if_pos hone, List.drop_eq_nil_of_le (by omega)⟩
    · refine .inr ⟨if_neg hone, List.ne_nil_of_length_pos ?_⟩
      rw [List.length_drop]
      omega
  have hpower : ∀ c ∈ List.replicate (2 - (Nat.toDigits 10 d.leading.natAbs).length) '0' ++
      Nat.toDigits 10 d.leading.natAbs, c.isDigit = true :=
    List.forall_mem_append.mpr ⟨isDigit_of_mem_zeros _, isDigit_toDigits _⟩
  have hread := readNumeral_power negative (decide (d.leading < 0)) hwhole hfraction hpoint
    (List.append_ne_nil_of_right_ne_nil _ Nat.toDigits_ne_nil) hpower hrest
  have hexponent : (if decide (d.leading < 0) = true then -(d.leading.natAbs : Int) else d.leading.natAbs) -
      ((Nat.toDigits 10 d.coefficient).drop 1).length = d.exponent := by
    have hleading : d.leading = d.exponent + (Nat.toDigits 10 d.coefficient).length - 1 := rfl
    rw [List.length_drop]
    split
    next hnegative =>
      have := of_decide_eq_true hnegative
      omega
    next hnegative =>
      have := of_decide_eq_false (Bool.eq_false_iff.mpr hnegative)
      omega
  rw [hsplit, ofDigitChars_toDigits, ofDigitChars_zeros_append, hexponent] at hread
  rw [Decimal.toNumber, ← hread, Decimal.scientific]
  simp only [Decimal.digits, List.append_assoc, List.cons_append, List.nil_append, decide_eq_true_eq]
  rfl

/-- A written decimal is read as it was. -/
theorem readNumeral_decimal {d : Decimal} (hd : d.coefficient ≠ 0 ∨ d = ⟨0, 0⟩) (hrest : Ends rest) :
    readNumeral negative (numberFormat.decimal d ++ rest) = .ok (.num (signed negative d.toNumber), rest) := by
  unfold NumberFormat.decimal
  split
  next hpositional =>
    obtain ⟨coefficient, exponent⟩ := d
    cases exponent with
    | ofNat e =>
      apply readNumeral_whole negative _ hrest
      rcases hd with hne | hzero
      · exact .inl hne
      · exact .inr (Int.ofNat.inj (Decimal.mk.inj hzero).2)
    | negSucc e =>
      have hne : coefficient ≠ 0 := by
        rcases hd with hne | hzero
        · exact hne
        · cases (Decimal.mk.inj hzero).2
      cases hparts : Decimal.positional ⟨coefficient, .negSucc e⟩ with
      | mk ds fs =>
        obtain ⟨hfne, hread⟩ := readNumeral_places negative hne hrest hparts
        have hempty : fs.isEmpty = false := by simpa using hfne
        simp only [hempty, Bool.false_eq_true, if_false]
        exact hread
  next hpositional =>
    apply readNumeral_scientific negative _ hrest
    rcases hd with hne | rfl
    · exact hne
    · exact absurd (by decide) hpositional

/-! ### Scalars -/

theorem ne_of_isDigit {c d : Char} (hc : c.isDigit = true) (hd : d.isDigit = false) : d ≠ c := by
  rintro rfl
  rw [hc] at hd
  cases hd

/-- None of the words starts with a digit. -/
theorem readScalar_digit {c : Char} (hc : c.isDigit = true) (cs : List Char) :
    readScalar (c :: cs) = readNumeral false (c :: cs) := by
  have hwords : ∀ entry ∈ words, ¬entry.1.isPrefixOf (c :: cs) = true := by
    simp [words, ne_of_isDigit hc (d := 'n') (by decide), ne_of_isDigit hc (d := 't') (by decide),
      ne_of_isDigit hc (d := 'f') (by decide), ne_of_isDigit hc (d := 'N') (by decide),
      ne_of_isDigit hc (d := 'I') (by decide), ne_of_isDigit hc (d := '-') (by decide)]
  rw [readScalar, List.find?_eq_none.mpr hwords]
  intro rest heq
  exact ne_of_isDigit hc (by decide) (List.cons.inj heq).1.symm

theorem readScalar_minus {c : Char} (hc : c.isDigit = true) (cs : List Char) :
    readScalar ('-' :: c :: cs) = readNumeral true (c :: cs) := by
  have hwords : ∀ entry ∈ words, ¬entry.1.isPrefixOf ('-' :: c :: cs) = true := by
    simp [words, ne_of_isDigit hc (d := 'I') (by decide)]
  rw [readScalar, List.find?_eq_none.mpr hwords]

variable {negative}

theorem readNumeral_head {cs : List Char} {result : Json × List Char} (h : readNumeral negative cs = .ok result) :
    ∃ c more, cs = c :: more ∧ c.isDigit = true := by
  unfold readNumeral at h
  cases hwhole : readWhole cs with
  | none =>
    rw [hwhole] at h
    cases h
  | some =>
    unfold readWhole at hwhole
    split at hwhole
    next rest => exact ⟨'0', rest, rfl, by decide⟩
    next c rest _ =>
      by_cases hc : c.isDigit = true
      · exact ⟨c, rest, rfl, hc⟩
      · rw [if_neg hc] at hwhole
        cases hwhole
    next => cases hwhole

/-- A numeral behind its sign is no word. -/
theorem readScalar_numeral {cs : List Char} {result : Json × List Char} (h : readNumeral negative cs = .ok result) :
    readScalar (if negative then '-' :: cs else cs) = .ok result := by
  obtain ⟨c, more, rfl, hc⟩ := readNumeral_head h
  cases negative with
  | true => rw [if_pos rfl, readScalar_minus hc, h]
  | false => rw [if_neg Bool.false_ne_true, readScalar_digit hc, h]

theorem readScalar_word {word : List Char} {value : Json} (h : (word, value) ∈ words) (rest : List Char) :
    readScalar (word ++ rest) = .ok (value, rest) := by
  simp only [words, List.mem_cons, Prod.mk.injEq, List.not_mem_nil, or_false] at h
  rcases h with ⟨rfl, rfl⟩ | ⟨rfl, rfl⟩ | ⟨rfl, rfl⟩ | ⟨rfl, rfl⟩ | ⟨rfl, rfl⟩ | ⟨rfl, rfl⟩
  all_goals rfl

/-- The shortest decimal of a number has no zeros in front. -/
theorem shortest_coefficient {x : Number} (hfinite : x.isFinite = true) :
    x.shortest.coefficient ≠ 0 ∨ x.shortest = ⟨0, 0⟩ := by
  by_cases hzero : x.units = 0
  · exact .inr (if_pos hzero)
  · left
    intro hcoefficient
    have habs := shortest_toNumber hfinite
    rw [Decimal.toNumber, hcoefficient, ofDecimal_zero, Number.abs, ofMagnitude] at habs
    have hbits : x.magnitude % 2 ^ 64 = 0 := by
      rw [← UInt64.toNat_ofNat', ← Number.mk.inj habs]
      rfl
    have hlow : x.magnitude < infinityBits := of_decide_eq_true hfinite
    have hmagnitude : x.magnitude = 0 := by
      have : infinityBits < 2 ^ 64 := by decide
      omega
    apply hzero
    rw [units, hmagnitude]
    rfl

theorem readScalar_finite {x : Number} (hfinite : x.isFinite = true) (hrest : Ends rest) :
    readScalar ((if x.negative then '-' :: numberFormat.decimal x.shortest
      else numberFormat.decimal x.shortest) ++ rest) = .ok (.num x, rest) := by
  have hread := readNumeral_decimal x.negative (shortest_coefficient hfinite) hrest
  rw [shortest_toNumber hfinite, signed_abs] at hread
  have hscalar := readScalar_numeral hread
  split at hscalar
  next hsign =>
    rw [if_pos hsign]
    exact hscalar
  next hsign =>
    rw [if_neg hsign]
    exact hscalar

theorem eq_infinity {x : Number} (hfinite : x.isFinite = false) (hnan : x.isNaN = false) :
    x = signed x.negative infinity := by
  have hmagnitude : x.magnitude = infinityBits := by
    have hlow := of_decide_eq_false hfinite
    have hhigh := of_decide_eq_false hnan
    omega
  rw [infinity, ← hmagnitude]
  exact (signed_abs x).symm

/-- Every number reads back, but of what is not a number only the one pattern that is read. -/
theorem readScalar_number {x : Number} (hnan : x.isNaN = true → x = nan) (hrest : Ends rest) :
    readScalar ((numberFormat.text x).toList ++ rest) = .ok (.num x, rest) := by
  rw [NumberFormat.text, String.toList_ofList]
  unfold NumberFormat.unsigned
  by_cases hx : x.isNaN = true
  · rw [if_pos hx, hnan hx]
    have hword : ("NaN".toList, .num nan) ∈ words := by simp [words]
    exact readScalar_word hword rest
  · rw [if_neg hx]
    by_cases hfinite : x.isFinite = true
    · simp only [hfinite, if_true]
      exact readScalar_finite hfinite hrest
    · have hinfinite := eq_infinity (Bool.eq_false_iff.mpr hfinite) (Bool.eq_false_iff.mpr hx)
      simp only [hfinite, Bool.false_eq_true, if_false]
      cases hsign : x.negative with
      | true =>
        rw [hsign] at hinfinite
        rw [hinfinite]
        have hword : ("-Infinity".toList, .num (signed true infinity)) ∈ words := by simp [words, signed]
        exact readScalar_word hword rest
      | false =>
        rw [hsign] at hinfinite
        rw [hinfinite]
        have hword : ("Infinity".toList, .num (signed false infinity)) ∈ words := by simp [words, signed]
        exact readScalar_word hword rest

theorem toList_toString (i : Int) :
    (toString i).toList = if i < 0 then '-' :: Nat.toDigits 10 i.natAbs else Nat.toDigits 10 i.natAbs := by
  rw [Int.toString_eq_repr, Int.repr_eq_if]
  by_cases hsign : i < 0
  · have habs : (-i).toNat = i.natAbs := by omega
    rw [if_neg (Int.not_le.mpr hsign), if_pos hsign, habs]
    simp [Nat.repr_eq_ofList_toDigits]
  · have habs : i.toNat = i.natAbs := by omega
    rw [if_pos (Int.not_lt.mp hsign), if_neg hsign, habs]
    simp [Nat.repr_eq_ofList_toDigits]

theorem readScalar_integer {i : Int} (hdigits : (Nat.toDigits 10 i.natAbs).length ≤ integerDigits) (hrest : Ends rest) :
    readScalar ((toString i).toList ++ rest) = .ok (.int i, rest) := by
  rw [toList_toString]
  by_cases hsign : i < 0
  · have hread := readNumeral_integer true (isWhole_toDigits i.natAbs) hdigits hrest
    have hvalue : -(i.natAbs : Int) = i := by omega
    rw [ofDigitChars_toDigits, if_pos rfl, hvalue] at hread
    rw [if_pos hsign]
    exact readScalar_numeral hread
  · have hread := readNumeral_integer false (isWhole_toDigits i.natAbs) hdigits hrest
    have hvalue : (i.natAbs : Int) = i := by omega
    rw [ofDigitChars_toDigits, if_neg Bool.false_ne_true, hvalue] at hread
    rw [if_neg hsign]
    exact readScalar_numeral hread

end Json

end LoxLang
