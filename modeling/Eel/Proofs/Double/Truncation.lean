import Eel.Proofs.Double.Rounding
import Eel.Proofs.Meaning.Eval

/-!
Whole parts of numbers that fit in 32 bits.

The order of numbers is that of their bit patterns, so a bound on a number is
one on its pattern, and from there one on its exponent and significand.
-/

namespace Eel.Double

variable {x : Double}

/-- The place of a number on the line, as an integer. -/
theorem rank_toInt (x : Double) :
    x.rank.toInt = if x.isNegative then -(x.magnitude.toNat : Int) else x.magnitude.toNat := by
  have hsmall := x.magnitude_lt
  have hplace : x.magnitude.toInt64.toInt = x.magnitude.toNat := by
    change (x.magnitude.toBitVec.toInt : Int) = _
    rw [BitVec.toInt_eq_toNat_of_lt (by simpa using by omega)]
    rfl
  unfold rank
  split
  · rw [Int64.toInt_neg, hplace]
    exact Int.bmod_eq_of_le (by norm_num; omega) (by norm_num; omega)
  · exact hplace

/-- Below an exponent, a whole part has no more bits than the exponent
leaves. -/
theorem wholeMagnitude_lt (h : x.magnitude.toNat < 1054 * 2 ^ 52) :
    x.wholeMagnitude < 2 ^ 31 := by
  have hfield : x.exponentField ≤ 1053 := by
    rw [exponentField_eq]
    omega
  have hexponent : x.exponent ≤ -22 := by
    simp only [exponent]
    omega
  have hsmall : ¬(0 ≤ x.exponent) := by omega
  rw [wholeMagnitude, if_neg hsmall, Nat.shiftRight_eq_div_pow]
  have hpow : 2 ^ 22 ≤ 2 ^ (-x.exponent).toNat := Nat.pow_le_pow_right (by norm_num) (by omega)
  have hsignificand := x.significand_lt
  apply Nat.div_lt_of_lt_mul
  calc x.significand < 2 ^ 53 := hsignificand
    _ = 2 ^ 22 * 2 ^ 31 := by norm_num
    _ ≤ 2 ^ (-x.exponent).toNat * 2 ^ 31 := Nat.mul_le_mul_right _ hpow

theorem wholeMagnitude_of_magnitude_eq (h : x.magnitude = 0x41e0000000000000) :
    x.wholeMagnitude = 2 ^ 31 := by
  have hfield : x.exponentField = 1054 := by
    simp only [exponentField, h]
    decide
  have hsignificand : x.significand = 2 ^ 52 := by
    simp only [significand, hfield, h]
    decide
  have hexponent : x.exponent = -21 := by
    simp only [exponent, hfield]
    decide
  simp only [wholeMagnitude, hexponent, hsignificand]
  decide

/-- The bounds of 32 bits, read off the pattern. -/
theorem magnitude_of_fitsInt32 (h : x.fitsInt32 = true) :
    x.magnitude.toNat ≤ if x.isNegative then 1054 * 2 ^ 52 else 1054 * 2 ^ 52 - 2 ^ 22 := by
  simp only [fitsInt32, le, Bool.and_eq_true, decide_eq_true_eq] at h
  obtain ⟨⟨-, hlow⟩, -, hhigh⟩ := h
  rw [Int64.le_iff_toInt_le, rank_toInt x] at hlow hhigh
  have hmin : (rank Routine.int32Bounds.1).toInt = -(1054 * 2 ^ 52) := by decide
  have hmax : (rank Routine.int32Bounds.2).toInt = 1054 * 2 ^ 52 - 2 ^ 22 := by decide
  rw [hmin] at hlow
  rw [hmax] at hhigh
  cases hsign :
    x.isNegative <;> simp only [hsign, if_true, Bool.false_eq_true, if_false] at hlow hhigh ⊢
  all_goals omega

theorem truncate?_of_isFinite (h : x.isFinite = true) :
    x.truncate? = some (if x.isNegative then -(x.wholeMagnitude : Int) else x.wholeMagnitude) := by
  simp only [truncate?, h, Bool.not_true, Bool.false_eq_true, if_false]
  split <;> rfl

/-- A number between the bounds of 32 bits has a whole part that fits. -/
theorem toInt32?_of_fitsInt32 (h : x.fitsInt32 = true) :
    ∃ n : Int32, x.toInt32? = some n ∧ n.toInt = x.whole := by
  have hmagnitude := magnitude_of_fitsInt32 h
  have hfinite : x.isFinite = true := by
    have hinfinity : infinity.magnitude.toNat = 2047 * 2 ^ 52 := by decide
    simp only [isFinite, decide_eq_true_eq, UInt64.lt_iff_toNat_lt, hinfinity]
    split at hmagnitude <;> omega
  have htruncate : x.truncate? = some x.whole := by
    rw [whole, truncate?_of_isFinite hfinite, Option.getD_some]
  have hbounds : -2147483648 ≤ x.whole ∧ x.whole ≤ 2147483647 := by
    rw [whole, truncate?_of_isFinite hfinite, Option.getD_some]
    cases hsign : x.isNegative with
    | false =>
      simp only [hsign, Bool.false_eq_true, if_false] at hmagnitude ⊢
      have hwhole := wholeMagnitude_lt (x := x) (by omega)
      omega
    | true =>
      simp only [hsign, if_true] at hmagnitude ⊢
      obtain hlt | heq := Nat.lt_or_eq_of_le hmagnitude
      · have hwhole := wholeMagnitude_lt hlt
        omega
      · have hwhole := wholeMagnitude_of_magnitude_eq (x := x) (UInt64.toNat_inj.mp heq)
        omega
  refine ⟨Int32.ofInt x.whole, ?_, ?_⟩
  · have hmin : Int32.minValue.toInt = -2147483648 := rfl
    have hmax : Int32.maxValue.toInt = 2147483647 := rfl
    simp only [toInt32?, htruncate, hmin, hmax, hbounds, decide_true, Bool.and_self, if_true]
  · rw [Int32.toInt_ofInt]
    exact Int.bmod_eq_of_le (by norm_num; omega) (by norm_num; omega)

end Eel.Double
