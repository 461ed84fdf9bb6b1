import LoxLang.Proofs.Number.ReadBack
import Mathlib
/-!
# Powers of ten

The number nearest to a decimal depends on its value alone, however many zeros stand at its end. A
decimal beyond five thousand places before or behind the point is infinity or zero in any case, so
the guard against working out large powers of ten changes no result.
-/

namespace LoxLang.Number

/-- Two fractions of the same value have the same nearest number. -/
theorem ofRatio_eq_of_cross {n d n' d' : Nat} (hd : 0 < d) (hd' : 0 < d') (h : n * d' = n' * d) :
    ofRatio n d = ofRatio n' d' :=
  calc
    ofRatio n d = ofRatio (n * d') (d * d') := (ofRatio_mul_right n d hd').symm
    _ = ofRatio (n' * d) (d' * d) := by rw [h, Nat.mul_comm d d']
    _ = ofRatio n' d' := ofRatio_mul_right n' d' hd

/-- A decimal as a fraction: one of the two powers of ten is one. -/
theorem ofDecimal_eq_ofRatio (coefficient : Nat) (exponent : Int) :
    ofDecimal coefficient exponent = ofRatio (coefficient * 10 ^ exponent.toNat) (10 ^ (-exponent).toNat) := by
  cases exponent with
  | ofNat e =>
    have hneg : (-Int.ofNat e).toNat = 0 := by simp
    rw [hneg]
    rfl
  | negSucc e =>
    have hpos : (Int.negSucc e).toNat = 0 := rfl
    rw [hpos, Nat.pow_zero, Nat.mul_one]
    rfl

theorem ten_pow_pos (k : Nat) : 0 < 10 ^ k := Nat.pow_pos (by decide)

/-- Zeros may be added at the end of a decimal. -/
theorem ofDecimal_mul_pow (coefficient k : Nat) (exponent : Int) :
    ofDecimal (coefficient * 10 ^ k) (exponent - k) = ofDecimal coefficient exponent := by
  rw [ofDecimal_eq_ofRatio, ofDecimal_eq_ofRatio]
  apply ofRatio_eq_of_cross (ten_pow_pos _) (ten_pow_pos _)
  have hplaces : k + (exponent - k).toNat + (-exponent).toNat = exponent.toNat + (-(exponent - k)).toNat := by omega
  rw [Nat.mul_assoc coefficient, Nat.mul_assoc coefficient, Nat.mul_assoc coefficient, ← Nat.pow_add, ← Nat.pow_add,
    ← Nat.pow_add,
    hplaces]

/-! ### Out of range -/

theorem ofRatio_eq_zero {n d : Nat} (h : 2 * (n * unitsPerOne) < d) : ofRatio n d = zero := by
  generalize hsteps : n * unitsPerOne = steps at h
  have hquotient : steps / d = 0 := Nat.div_eq_of_lt (by omega)
  have hbinade : binade steps d = 0 := by
    rw [binade, hquotient]
    rfl
  have hround : roundDiv steps d = 0 := by
    rw [roundDiv, hquotient, Nat.mod_eq_of_lt (by omega), if_pos h]
  have hpattern : nearestPattern steps d = 0 := by
    rw [nearestPattern, hbinade, Nat.zero_mul, Nat.zero_add]
    simpa using hround
  rw [ofRatio, hsteps, hpattern]
  rfl

theorem div_le_roundDiv (n d : Nat) : n / d ≤ roundDiv n d := by
  unfold roundDiv
  dsimp only
  split
  · exact Nat.le_refl _
  split
  · exact Nat.le_succ _
  · exact Nat.le_add_right _ _

/-- A fraction of so many steps or more is past the largest number: its binade is, or its rounding carries out of it. -/
theorem infinityBits_le_nearestPattern {n d : Nat} (h : 2098 ≤ Nat.log2 (n / d)) :
    infinityBits ≤ nearestPattern n d := by
  have hne : n / d ≠ 0 := by
    intro hzero
    rw [hzero] at h
    exact absurd h (by decide)
  obtain ⟨b, hb⟩ : ∃ b, Nat.log2 (n / d) = b + 52 := ⟨Nat.log2 (n / d) - 52, by omega⟩
  have hsteps : 2 ^ 52 ≤ roundDiv n (d * 2 ^ b) := by
    refine Nat.le_trans ?_ (div_le_roundDiv _ _)
    rw [← Nat.div_div_eq_div_mul, Nat.le_div_iff_mul_le (Nat.two_pow_pos b), ← Nat.pow_add, Nat.add_comm, ← hb]
    exact Nat.log2_self_le hne
  have hlow : 2046 * perBinade ≤ b * perBinade := Nat.mul_le_mul_right _ (by omega)
  have hbits : infinityBits = 2046 * perBinade + 2 ^ 52 := by decide
  rw [nearestPattern, binade, hb, Nat.add_sub_cancel, hbits]
  exact Nat.add_le_add hlow hsteps

theorem ofRatio_eq_infinity {n d : Nat} (hd : 0 < d) (h : 2 ^ 1024 * d ≤ n) : ofRatio n d = infinity := by
  have hpow (a b : Nat) : 2 ^ (a + b) * d = 2 ^ a * d * 2 ^ b := by rw [Nat.mul_right_comm, ← Nat.pow_add]
  have hsteps : 2 ^ 2098 * d ≤ n * unitsPerOne := by
    rw [unitsPerOne, Nat.pow_eq, hpow 1024 1074]
    exact Nat.mul_le_mul_right _ h
  have hquotient : 2 ^ 2098 ≤ n * unitsPerOne / d := (Nat.le_div_iff_mul_le hd).mpr hsteps
  have hlog : 2098 ≤ Nat.log2 (n * unitsPerOne / d) :=
    (Nat.le_log2 (Nat.ne_of_gt (Nat.lt_of_lt_of_le (Nat.two_pow_pos _) hquotient))).mpr hquotient
  rw [ofRatio, Nat.min_eq_right (infinityBits_le_nearestPattern hlog)]
  rfl

/-! ### The guarded reading -/

theorem pow_le_of_length_toDigits {n k : Nat} (hn : n ≠ 0) (h : k < (Nat.toDigits 10 n).length) : 10 ^ k ≤ n := by
  rcases Nat.eq_zero_or_pos k with rfl | hk
  · exact Nat.pos_of_ne_zero hn
  · apply Nat.le_of_not_lt
    intro hlt
    exact absurd ((Nat.length_toDigits_le_iff (by decide) hk).mpr hlt) (Nat.not_le.mpr h)

theorem lt_pow_length_toDigits (n : Nat) : n < 10 ^ (Nat.toDigits 10 n).length :=
  (Nat.length_toDigits_le_iff (by decide) Nat.length_toDigits_pos).mp (Nat.le_refl _)

theorem ofDecimal_eq_infinity {coefficient : Nat} {exponent : Int} (hne : coefficient ≠ 0)
    (hlarge : 5000 < (Nat.toDigits 10 coefficient).length + exponent) : ofDecimal coefficient exponent = infinity := by
  generalize hlength : (Nat.toDigits 10 coefficient).length = length at hlarge
  have hpos : 0 < length := hlength ▸ Nat.length_toDigits_pos
  have hleading : 10 ^ (length - 1) ≤ coefficient := pow_le_of_length_toDigits hne (by omega)
  rw [ofDecimal_eq_ofRatio]
  apply ofRatio_eq_infinity (ten_pow_pos _)
  calc
    2 ^ 1024 * 10 ^ (-exponent).toNat ≤ 10 ^ 1024 * 10 ^ (-exponent).toNat :=
      Nat.mul_le_mul_right _ (Nat.pow_le_pow_left (by decide) _)
    _ = 10 ^ (1024 + (-exponent).toNat) := (Nat.pow_add ..).symm
    _ ≤ 10 ^ (length - 1 + exponent.toNat) := Nat.pow_le_pow_right (by decide) (by omega)
    _ = 10 ^ (length - 1) * 10 ^ exponent.toNat := Nat.pow_add ..
    _ ≤ coefficient * 10 ^ exponent.toNat := Nat.mul_le_mul_right _ hleading

theorem ofDecimal_eq_zero {coefficient : Nat} {exponent : Int}
    (hsmall : (Nat.toDigits 10 coefficient).length + exponent < -5000) : ofDecimal coefficient exponent = zero := by
  have hwithin := lt_pow_length_toDigits coefficient
  generalize (Nat.toDigits 10 coefficient).length = length at hsmall hwithin
  have hexponent : exponent.toNat = 0 := by omega
  rw [ofDecimal_eq_ofRatio, hexponent, Nat.pow_zero, Nat.mul_one]
  apply ofRatio_eq_zero
  calc
    2 * (coefficient * unitsPerOne) = coefficient * 2 ^ 1075 := by
      rw [Nat.mul_left_comm, Nat.pow_succ', unitsPerOne, Nat.pow_eq]
    _ < 10 ^ length * 2 ^ 1075 := Nat.mul_lt_mul_of_pos_right hwithin (Nat.two_pow_pos _)
    _ ≤ 10 ^ length * 10 ^ 1075 := Nat.mul_le_mul_left _ (Nat.pow_le_pow_left (by decide) _)
    _ = 10 ^ (length + 1075) := (Nat.pow_add ..).symm
    _ ≤ 10 ^ (-exponent).toNat := Nat.pow_le_pow_right (by decide) (by omega)

theorem ofDecimal_zero (exponent : Int) : ofDecimal 0 exponent = zero := by
  rw [ofDecimal_eq_ofRatio, Nat.zero_mul]
  apply ofRatio_eq_zero
  rw [Nat.zero_mul]
  exact ten_pow_pos _

/-- Leaving powers of ten out that are far out of range changes nothing. -/
theorem ofScientific_eq_ofDecimal (coefficient : Nat) (exponent : Int) :
    ofScientific coefficient exponent = ofDecimal coefficient exponent := by
  unfold ofScientific
  dsimp only
  split
  next hzero => rw [hzero, ofDecimal_zero]
  next hne =>
    split
    next hlarge => exact (ofDecimal_eq_infinity hne hlarge).symm
    next =>
      split
      next hsmall => exact (ofDecimal_eq_zero hsmall).symm
      next => rfl

end LoxLang.Number
