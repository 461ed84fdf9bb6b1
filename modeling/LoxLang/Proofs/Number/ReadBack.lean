import LoxLang.Proofs.Token.Lexeme
/-!
# Numbers read back

The numeral that source text has for a finite number is read as that number again. Reading depends on
the rational alone that a numeral denotes, and a number is its own nearest number, so the exact
expansion of a number reads back; whatever shorter decimal the search prefers has passed the reading
test. What is left is that writing a decimal with its point and reading it digit by digit agree.
-/

namespace LoxLang

/-! ### Rounding -/

theorem roundDiv_mul_right (n d : Nat) {k : Nat} (hk : 0 < k) : roundDiv (n * k) (d * k) = roundDiv n d := by
  simp only [roundDiv, Nat.mul_div_mul_right n d hk, Nat.mul_mod_mul_right]
  have hlow : 2 * (n % d * k) < d * k ↔ 2 * (n % d) < d := by
    rw [← Nat.mul_assoc]
    exact Nat.mul_lt_mul_right hk
  have hhigh : d * k < 2 * (n % d * k) ↔ d < 2 * (n % d) := by
    rw [← Nat.mul_assoc]
    exact Nat.mul_lt_mul_right hk
  simp only [hlow, hhigh]

theorem roundDiv_mul_self (n : Nat) {d : Nat} (hd : 0 < d) : roundDiv (n * d) d = n := by
  simp [roundDiv, Nat.mul_div_cancel n hd, hd]

namespace Number

theorem nearestPattern_mul_right (n d : Nat) {k : Nat} (hk : 0 < k) :
    nearestPattern (n * k) (d * k) = nearestPattern n d := by
  have hbinade : binade (n * k) (d * k) = binade n d := by
    rw [binade, Nat.mul_div_mul_right n d hk, binade]
  rw [nearestPattern, hbinade, Nat.mul_right_comm d k, roundDiv_mul_right _ _ hk, nearestPattern]

/-- Only the rational counts, not how it is written as a fraction. -/
theorem ofRatio_mul_right (n d : Nat) {k : Nat} (hk : 0 < k) : ofRatio (n * k) (d * k) = ofRatio n d := by
  rw [ofRatio, Nat.mul_right_comm n k, nearestPattern_mul_right _ _ hk, ofRatio]

/-- The pattern of a finite number is the one nearest to its own steps. -/
theorem nearestPattern_units (x : Number) : nearestPattern x.units 1 = x.magnitude := by
  have hpos : 0 < perBinade := Nat.two_pow_pos 52
  unfold units
  dsimp only
  split
  next hlow =>
    have hlog : Nat.log2 x.magnitude - 52 = 0 := by
      by_cases hzero : x.magnitude = 0
      · rw [hzero]
        rfl
      · have := (Nat.log2_lt hzero).mpr (show x.magnitude < 2 ^ 53 from hlow)
        omega
    rw [nearestPattern, binade, Nat.div_one, hlog]
    simpa using roundDiv_mul_self x.magnitude Nat.one_pos
  next hhigh =>
    -- Above the two lowest binades the significand has its leading bit, which the exponent shifts.
    generalize hs : x.magnitude % perBinade + perBinade = s
    generalize he : x.magnitude / perBinade - 1 = e
    have hrange : 2 ^ 52 ≤ s ∧ s < 2 ^ 53 := by
      have := Nat.mod_lt x.magnitude hpos
      simp only [perBinade, Nat.pow_eq] at this hs
      omega
    have hlog : Nat.log2 (s * 2 ^ e) = 52 + e := by
      have hne : s * 2 ^ e ≠ 0 := Nat.mul_ne_zero (by omega) (Nat.ne_of_gt (Nat.two_pow_pos e))
      rw [Nat.log2_eq_iff hne, Nat.add_right_comm, Nat.pow_add, Nat.pow_add]
      exact ⟨Nat.mul_le_mul_right _ hrange.1, Nat.mul_lt_mul_of_pos_right hrange.2 (Nat.two_pow_pos e)⟩
    have hcarry : e * perBinade + s = x.magnitude := by
      have hdivision := Nat.div_add_mod' x.magnitude perBinade
      obtain ⟨q, hq⟩ : ∃ q, x.magnitude / perBinade = q + 1 := by
        have := (Nat.le_div_iff_mul_le hpos).mpr (Nat.not_lt.mp hhigh)
        exact ⟨x.magnitude / perBinade - 1, by omega⟩
      rw [hq, Nat.add_mul, Nat.one_mul] at hdivision
      rw [← he, ← hs, hq, Nat.add_sub_cancel]
      omega
    rw [nearestPattern, binade, Nat.div_one, Nat.pow_eq, hlog, Nat.add_sub_cancel_left, Nat.one_mul, Nat.pow_eq,
      roundDiv_mul_self s (Nat.two_pow_pos e), hcarry]

private theorem pow_two_pos (k : Nat) : 0 < Nat.pow 2 k := Nat.two_pow_pos k

theorem unitsPerOne_pos : 0 < unitsPerOne := pow_two_pos 1074

/-- A finite number is its own nearest number. -/
theorem ofRatio_units {x : Number} (hx : x.isFinite = true) : ofRatio x.units unitsPerOne = x.abs := by
  have hpattern : nearestPattern (x.units * unitsPerOne) unitsPerOne = x.magnitude := by
    have hcancel := nearestPattern_mul_right x.units 1 unitsPerOne_pos
    rw [Nat.one_mul, nearestPattern_units] at hcancel
    exact hcancel
  have hmin : min x.magnitude infinityBits = x.magnitude := Nat.min_eq_left (Nat.le_of_lt (of_decide_eq_true hx))
  rw [ofRatio, hpattern, hmin, abs]

theorem abs_of_not_negative {x : Number} (h : x.negative = false) : x.abs = x := by
  have hsmall : x.bits.toNat < signBit := Nat.not_le.mp (of_decide_eq_false h)
  rw [abs, magnitude, Nat.mod_eq_of_lt hsmall, ofMagnitude, UInt64.ofNat_toNat]

/-! ### The shortest decimal -/

private theorem ten_pow (k : Nat) : Nat.pow 10 k = Nat.pow 2 k * Nat.pow 5 k := Nat.mul_pow 2 5 k

theorem expansion_toNumber {x : Number} (hx : x.isFinite = true) : x.expansion.toNumber = x.abs := by
  have hfive (k : Nat) : 0 < Nat.pow 5 k := Nat.pow_pos (by decide)
  have hratio : x.expansion.toNumber = ofRatio (x.units * Nat.pow 5 1074) (Nat.pow 10 1074) := rfl
  rw [hratio, ten_pow, ofRatio_mul_right _ _ (hfive _)]
  exact ofRatio_units hx

theorem readsBack?_toNumber {x : Number} {coefficient : Nat} {place : Int} {d : Decimal}
    (h : x.readsBack? coefficient place = some d) : d.toNumber = x.abs := by
  simp only [readsBack?, Option.ite_none_right_eq_some, Option.some.injEq] at h
  obtain ⟨hreads, rfl⟩ := h
  exact hreads

theorem onGrid?_toNumber {x : Number} {place : Int} {d : Decimal} (h : x.onGrid? place = some d) :
    d.toNumber = x.abs := by
  simp only [onGrid?, Option.orElse_eq_orElse, Option.orElse_eq_or, Option.or_eq_some_iff] at h
  rcases h with h | ⟨-, h⟩
  · exact readsBack?_toNumber h
  · exact readsBack?_toNumber h

/-- The shortest decimal of a finite number reads as its magnitude. -/
theorem shortest_toNumber {x : Number} (hx : x.isFinite = true) : x.shortest.toNumber = x.abs := by
  unfold shortest
  split
  next hzero =>
    have hunits := ofRatio_units hx
    rw [hzero] at hunits
    have hone := ofRatio_mul_right 0 1 unitsPerOne_pos
    rw [Nat.zero_mul, Nat.one_mul] at hone
    rw [← hunits, hone]
    rfl
  next =>
    dsimp only
    cases hfound : (List.range 17).findSome? fun n : Nat => x.onGrid? (leadingPlace x.units unitsPerOne - n) with
    | none => exact expansion_toNumber hx
    | some d =>
      obtain ⟨n, -, hgrid⟩ := List.exists_of_findSome?_eq_some hfound
      exact onGrid?_toNumber hgrid

/-! ### Numerals -/

theorem ofNumeral_whole {ds : List Char} (hds : ∀ c ∈ ds, c.isDigit = true) :
    ofNumeral ds = ofDecimal (Nat.ofDigitChars 10 ds 0) 0 := by
  have hend : ∀ c ∈ ([] : List Char).head?, c.isDigit = false := by simp
  obtain ⟨htake, hdrop⟩ := Segment.takeWhile_append_stop hds hend
  rw [List.append_nil] at htake hdrop
  simp [ofNumeral, htake, hdrop]

theorem ofNumeral_fraction {ds fs : List Char} (hds : ∀ c ∈ ds, c.isDigit = true) :
    ofNumeral (ds ++ '.' :: fs) = ofDecimal (Nat.ofDigitChars 10 (ds ++ fs) 0) (-(fs.length : Int)) := by
  have hpoint : ∀ c ∈ ('.' :: fs).head?, c.isDigit = false := by
    intro c hc
    cases hc
    decide
  obtain ⟨htake, hdrop⟩ := Segment.takeWhile_append_stop hds hpoint
  simp [ofNumeral, htake, hdrop]

theorem isDigit_of_mem_zeros (n : Nat) : ∀ c ∈ List.replicate n '0', c.isDigit = true := by
  intro c hc
  rw [List.eq_of_mem_replicate hc]
  decide

theorem decimal_ofNat (coefficient e : Nat) : sourceFormat.decimal ⟨coefficient, .ofNat e⟩
    = Nat.toDigits 10 coefficient ++ List.replicate e '0' :=
  List.append_nil _

/-- With places behind the point, the digits around it are those of the coefficient; if they are too few, zeros stand
behind a lone zero. -/
theorem positional_negSucc (coefficient e : Nat) : ∃ ds fs, Decimal.positional ⟨coefficient, .negSucc e⟩ = (ds, fs) ∧
    fs.length = e + 1 ∧ (ds ≠ [] ∧ ds ++ fs = Nat.toDigits 10 coefficient ∨
      ds = ['0'] ∧ ∃ zeros, fs = List.replicate zeros '0' ++ Nat.toDigits 10 coefficient) := by
  generalize hdigits : Nat.toDigits 10 coefficient = digits
  by_cases hplaces : e + 1 < digits.length
  · refine ⟨digits.take (digits.length - (e + 1)), digits.drop (digits.length - (e + 1)), ?_, ?_, .inl ⟨?_, ?_⟩⟩
    · simp [Decimal.positional, Decimal.digits, hdigits, hplaces]
    · rw [List.length_drop]
      omega
    · apply List.ne_nil_of_length_pos
      rw [List.length_take]
      omega
    · exact List.take_append_drop _ _
  · refine ⟨['0'], List.replicate (e + 1 - digits.length) '0' ++ digits, ?_, ?_, .inr ⟨rfl, _, rfl⟩⟩
    · simp [Decimal.positional, Decimal.digits, hdigits, hplaces]
    · rw [List.length_append, List.length_replicate]
      omega

theorem decimal_negSucc (coefficient e : Nat) : ∃ ds fs, sourceFormat.decimal ⟨coefficient, .negSucc e⟩ = ds ++ '.' :: fs ∧
    ds ≠ [] ∧ fs.length = e + 1 ∧ ∃ zeros, ds ++ fs = List.replicate zeros '0' ++ Nat.toDigits 10 coefficient := by
  obtain ⟨ds, fs, hpositional, hlength, hdigits⟩ := positional_negSucc coefficient e
  have hempty : fs.isEmpty = false := by
    cases fs with
    | nil => cases hlength
    | cons => rfl
  refine ⟨ds, fs, ?_, ?_, hlength, ?_⟩
  · simp [NumberFormat.decimal, NumberFormat.isPositional, sourceFormat, hpositional, hempty]
  · rcases hdigits with ⟨hne, -⟩ | ⟨rfl, -⟩
    · exact hne
    · exact List.cons_ne_nil _ _
  · rcases hdigits with ⟨-, hall⟩ | ⟨rfl, zeros, rfl⟩
    · exact ⟨0, hall⟩
    · exact ⟨zeros + 1, rfl⟩

/-- A decimal written without powers of ten is a numeral that reads as the decimal. -/
theorem decimal_numeral (d : Decimal) :
    IsNumeral (sourceFormat.decimal d) ∧ ofNumeral (sourceFormat.decimal d) = d.toNumber := by
  obtain ⟨coefficient, exponent⟩ := d
  have hdigits : ∀ c ∈ Nat.toDigits 10 coefficient, c.isDigit = true :=
    fun c hc => Nat.isDigit_of_mem_toDigits (by decide) (by decide) hc
  have hvalue : Nat.ofDigitChars 10 (Nat.toDigits 10 coefficient) 0 = coefficient := Nat.ofDigitChars_ten_toDigits
  cases exponent with
  | ofNat e =>
    have hall : ∀ c ∈ Nat.toDigits 10 coefficient ++ List.replicate e '0', c.isDigit = true :=
      List.forall_mem_append.mpr ⟨hdigits, isDigit_of_mem_zeros e⟩
    rw [decimal_ofNat]
    refine ⟨.whole (List.append_ne_nil_of_left_ne_nil Nat.toDigits_ne_nil _) hall, ?_⟩
    rw [ofNumeral_whole hall, Nat.ofDigitChars_append, hvalue, Nat.ofDigitChars_replicate_zero, Nat.mul_comm]
    exact congrArg (ofRatio · 1) (Nat.mul_one _)
  | negSucc e =>
    obtain ⟨ds, fs, htext, hne, hlength, zeros, hall⟩ := decimal_negSucc coefficient e
    have hboth : ∀ c ∈ ds ++ fs, c.isDigit = true := by
      rw [hall]
      exact List.forall_mem_append.mpr ⟨isDigit_of_mem_zeros zeros, hdigits⟩
    obtain ⟨hds, hfs⟩ := List.forall_mem_append.mp hboth
    have hfne : fs ≠ [] := List.ne_nil_of_length_pos (by omega)
    rw [htext]
    refine ⟨.fraction hne hds hfne hfs, ?_⟩
    rw [ofNumeral_fraction hds, hall, Nat.ofDigitChars_append, Nat.ofDigitChars_replicate_zero, Nat.mul_zero, hvalue, hlength]
    rfl

/-! ### Source text -/

theorem source_of_not_negative {x : Number} (hfinite : x.isFinite = true) (hsign : x.negative = false) :
    x.source = String.ofList (sourceFormat.decimal x.shortest) := by
  have hrank : x.lt zero = false := by
    have hle : ¬x.rank < zero.rank := by
      have hzero : zero.rank = 0 := by decide
      have hpositive : x.rank = (x.magnitude : Int) := by simp [rank, hsign]
      omega
    simp [lt, hle]
  have hnumber : x.isNaN = false := by
    have := of_decide_eq_true hfinite
    simp only [isNaN, decide_eq_false_iff_not]
    omega
  simp [source, hrank, NumberFormat.text, hnumber, hsign, NumberFormat.unsigned, hfinite]

/-- The source text of a finite number without a sign is a numeral that reads as the number. -/
theorem source_numeral {x : Number} (hfinite : x.isFinite = true) (hsign : x.negative = false) :
    IsNumeral x.source.toList ∧ ofNumeral x.source.toList = x := by
  obtain ⟨hnumeral, hreads⟩ := decimal_numeral x.shortest
  rw [source_of_not_negative hfinite hsign, String.toList_ofList]
  refine ⟨hnumeral, ?_⟩
  rw [hreads, shortest_toNumber hfinite, abs_of_not_negative hsign]

/-- The pattern of a numeral is one of zero, of a positive number or of infinity. -/
theorem ofNumeral_bits_le (cs : List Char) : (ofNumeral cs).bits.toNat ≤ infinityBits := by
  have hratio (n d : Nat) : (ofRatio n d).bits.toNat ≤ infinityBits := by
    have hle : min (nearestPattern (n * unitsPerOne) d) infinityBits ≤ infinityBits := Nat.min_le_right _ _
    have hmod := Nat.mod_le (min (nearestPattern (n * unitsPerOne) d) infinityBits) (2 ^ 64)
    simp only [ofRatio, ofMagnitude, UInt64.toNat_ofNat']
    omega
  unfold ofNumeral
  dsimp only
  unfold ofDecimal
  split
  · exact hratio _ _
  · exact hratio _ _

/-- Numerals have no sign. -/
theorem ofNumeral_negative (cs : List Char) : (ofNumeral cs).negative = false := by
  have hlimit : infinityBits < signBit := by decide
  have hbits := ofNumeral_bits_le cs
  simp only [negative, decide_eq_false_iff_not]
  omega

theorem ofNumeral_isNaN (cs : List Char) : (ofNumeral cs).isNaN = false := by
  have hbits := ofNumeral_bits_le cs
  have hmagnitude : (ofNumeral cs).magnitude ≤ (ofNumeral cs).bits.toNat := Nat.mod_le _ _
  apply decide_eq_false
  omega

end Number

end LoxLang
