import Mathlib
import Eel.Double.Rounding

/-!
Rounded fractions.

A rounded fraction depends on the value of the fraction alone, not on its
numerator and denominator. A fraction that is close enough to a finite number is
rounded to that number.
-/

namespace Eel.Double

variable {den num m : Nat} {q : Int}

theorem magnitude_lt (x : Double) : x.magnitude.toNat < 2 ^ 63 := by
  simp only [magnitude, UInt64.toNat_mod]
  exact Nat.mod_lt _ (by decide)

theorem exponentField_eq (x : Double) : x.exponentField = x.magnitude.toNat / 2 ^ 52 := by
  simp [exponentField]

theorem significand_lt (x : Double) : x.significand < 2 ^ 53 := by
  have hfraction : (x.magnitude % 0x10000000000000).toNat < 2 ^ 52 := by
    simp only [UInt64.toNat_mod]
    exact Nat.mod_lt _ (by decide)
  unfold significand
  dsimp only
  split
  · omega
  · have hone : (0x10000000000000 : UInt64).toNat = 2 ^ 52 := rfl
    rw [UInt64.toNat_add, hone]
    omega

theorem significand_eq (x : Double) : x.significand =
    if x.magnitude.toNat < 2 ^ 52 then x.magnitude.toNat
    else x.magnitude.toNat % 2 ^ 52 + 2 ^ 52 := by
  have hfraction : (x.magnitude % 0x10000000000000).toNat = x.magnitude.toNat % 2 ^ 52 :=
    UInt64.toNat_mod _ _
  have hone : (0x10000000000000 : UInt64).toNat = 2 ^ 52 := rfl
  have hfield := x.exponentField_eq
  unfold significand
  dsimp only
  by_cases h : x.magnitude.toNat < 2 ^ 52
  · rw [if_pos (by omega), if_pos h, hfraction]
    omega
  · rw [if_neg (by omega), if_neg h, UInt64.toNat_add, hfraction, hone]
    omega

/-- Exponent and significand make up the bits. -/
theorem magnitude_eq (x : Double) :
    x.magnitude.toNat = (x.exponent + 1074).toNat * 2 ^ 52 + x.significand := by
  have hfield := x.exponentField_eq
  rw [significand_eq, exponent]
  split <;> omega

/-- No fraction is rounded past infinity. -/
theorem nearestBits_le (num den : Nat) : nearestBits num den ≤ infinity.magnitude.toNat := by
  unfold nearestBits
  split
  · exact Nat.zero_le _
  · exact Nat.min_le_right _ _

theorem toNat_nearestBits (num den : Nat) :
    (nearestBits num den).toUInt64.toNat = nearestBits num den := by
  have hle := nearestBits_le num den
  have hinfinity : infinity.magnitude.toNat = 2047 * 2 ^ 52 := by decide
  exact Nat.mod_eq_of_lt (by omega)

/-- A fraction without a sign is not negative, and finite unless it is
infinite. -/
theorem ofRatio_false (num den : Nat) : (ofRatio false num den).isNegative = false ∧
      ((ofRatio false num den).isInfinite = false → (ofRatio false num den).isFinite = true) := by
  have hle := nearestBits_le num den
  have hbits := toNat_nearestBits num den
  have hinfinity : infinity.magnitude.toNat = 2047 * 2 ^ 52 := by decide
  have hmagnitude : (ofRatio false num den).magnitude.toNat = nearestBits num den := by
    simp only [ofRatio, magnitude, Bool.false_eq_true, if_false, UInt64.toNat_mod, hbits]
    exact Nat.mod_eq_of_lt (by change _ < 2 ^ 63; omega)
  refine ⟨?_, ?_⟩
  · simp only [isNegative, ofRatio, Bool.false_eq_true, if_false, decide_eq_false_iff_not,
      UInt64.le_iff_toNat_le, hbits]
    change ¬(2 ^ 63 ≤ _)
    omega
  · intro h
    simp only [isInfinite, beq_eq_false_iff_ne, ne_eq, ← UInt64.toNat_inj, hmagnitude] at h
    simp only [isFinite, decide_eq_true_eq, UInt64.lt_iff_toNat_lt, hmagnitude]
    omega

/-- A half or less away from a whole number. -/
theorem divRound_of_close {n d : Nat} (hlow : 2 * m * d < 2 * n + d)
    (hhigh : 2 * n < (2 * m + 1) * d) : divRound n d = m := by
  have hd : 0 < d := Nat.pos_of_ne_zero fun h => by simp [h] at hhigh
  have hdiv := Nat.div_add_mod n d
  have hmod := Nat.mod_lt n hd
  unfold divRound
  simp only
  generalize n / d = q at hdiv ⊢
  generalize n % d = r at hdiv hmod ⊢
  subst hdiv
  have hlow' : m ≤ q + 1 := by
    by_contra hlt
    have hmul := Nat.mul_le_mul_right d (by omega : q + 2 ≤ m)
    nlinarith
  have hhigh' : q ≤ m := by
    by_contra hlt
    have hmul := Nat.mul_le_mul_right d (by omega : m + 1 ≤ q)
    nlinarith
  obtain rfl | rfl : m = q ∨ m = q + 1 := by omega
  · have hr : 2 * r < d := by nlinarith
    rw [if_neg (by omega), if_neg (by omega)]
  · have hr : d < 2 * r := by nlinarith
    rw [if_pos hr]

theorem divRound_mul_right (n d : Nat) {k : Nat} (hk : 0 < k) :
    divRound (n * k) (d * k) = divRound n d := by
  have hlt : d * k < 2 * (n % d * k) ↔ d < 2 * (n % d) := by
    rw [← Nat.mul_assoc]
    exact Nat.mul_lt_mul_right hk
  have heq : 2 * (n % d * k) = d * k ↔ 2 * (n % d) = d := by
    rw [← Nat.mul_assoc]
    exact Nat.mul_left_inj hk.ne'
  simp only [divRound, Nat.mul_div_mul_right _ _ hk, Nat.mul_mod_mul_right, hlt, heq]

theorem divRound_congr {n d n' d' : Nat} (hd : 0 < d) (hd' : 0 < d') (h : (n : ℚ) / d = n' / d') :
    divRound n d = divRound n' d' := by
  have hcross : n * d' = n' * d := by
    rw [div_eq_div_iff (by positivity) (by positivity)] at h
    exact_mod_cast h
  rw [← divRound_mul_right n d hd', ← divRound_mul_right n' d' hd, hcross, Nat.mul_comm d d']

theorem scaled_pos (hden : 0 < den) (q : Int) : 0 < (scaled num den q).2 := by
  unfold scaled
  split
  · exact Nat.mul_pos hden (Nat.pow_pos (by decide))
  · exact hden

theorem scaled_div (num den : Nat) (q : Int) :
    ((scaled num den q).1 : ℚ) / (scaled num den q).2 = num / den / 2 ^ q := by
  unfold scaled
  split
  · next hq =>
      lift q to Nat using hq
      simp [div_div]
  · next hq =>
      obtain ⟨k, rfl⟩ := Int.exists_eq_neg_ofNat (by omega : q ≤ 0)
      simp [div_eq_mul_inv, mul_right_comm]

/-- A positive fraction has its leading bit in the last of 53 places, or below
them at the smallest exponent. -/
structure Placed (v : ℚ) (q : Int) : Prop where
  least : -1074 ≤ q
  upper : v < 2 ^ (q + 53)
  lower : q = -1074 ∨ 2 ^ (q + 52) ≤ v

theorem Placed.unique {v : ℚ} {q' : Int} (h : Placed v q) (h' : Placed v q') : q = q' := by
  have hle : ∀ {q q' : Int}, Placed v q → Placed v q' → q ≤ q' := by
    intro q q' h h'
    rcases h.lower with hq | hq
    · have := h'.least
      omega
    · have hlt := (zpow_lt_zpow_iff_right₀ (by norm_num)).mp (hq.trans_lt h'.upper)
      omega
  exact le_antisymm (hle h h') (hle h' h)

/-- The bits of a fraction lie between those of its numerator and
denominator. -/
theorem log2_bounds (hnum : 0 < num) (hden : 0 < den) :
    (2 : ℚ) ^ ((num.log2 : Int) - den.log2 - 1) < num / den ∧
      (num : ℚ) / den < 2 ^ ((num.log2 : Int) - den.log2 + 1) := by
  have hnumLow : (2 : ℚ) ^ (num.log2 : Int) ≤ num := by exact_mod_cast Nat.log2_self_le hnum.ne'
  have hnumHigh : (num : ℚ) < 2 ^ ((num.log2 : Int) + 1) := by exact_mod_cast @Nat.lt_log2_self num
  have hdenLow : (2 : ℚ) ^ (den.log2 : Int) ≤ den := by exact_mod_cast Nat.log2_self_le hden.ne'
  have hdenHigh : (den : ℚ) < 2 ^ ((den.log2 : Int) + 1) := by exact_mod_cast @Nat.lt_log2_self den
  have hpos : (0 : ℚ) < den := by exact_mod_cast hden
  constructor
  · rw [lt_div_iff₀ hpos]
    calc (2 : ℚ) ^ ((num.log2 : Int) - den.log2 - 1) * den
        < 2 ^ ((num.log2 : Int) - den.log2 - 1) * 2 ^ ((den.log2 : Int) + 1) := by gcongr
      _ = 2 ^ (num.log2 : Int) := by
          rw [← zpow_add₀ (by norm_num)]
          congr 1
          ring
      _ ≤ num := hnumLow
  · rw [div_lt_iff₀ hpos]
    calc (num : ℚ) < 2 ^ ((num.log2 : Int) + 1) := hnumHigh
      _ = 2 ^ ((num.log2 : Int) - den.log2 + 1) * 2 ^ (den.log2 : Int) := by
          rw [← zpow_add₀ (by norm_num)]
          congr 1
          ring
      _ ≤ 2 ^ ((num.log2 : Int) - den.log2 + 1) * den := by gcongr

theorem lastPlace_placed (hnum : 0 < num) (hden : 0 < den) :
    Placed ((num : ℚ) / den) (lastPlace num den) := by
  obtain ⟨hlow, hhigh⟩ := log2_bounds hnum hden
  set q : Int := (num.log2 : Int) - den.log2 - 53 with hq
  have hplace : lastPlace num den =
      Max.max (if Nat.pow 2 53 ≤ (scaled num den q).1 / (scaled num den q).2 then q + 1 else q)
        (-1074) := rfl
  have hreaches : Nat.pow 2 53 ≤ (scaled num den q).1 / (scaled num den q).2 ↔
      (2 : ℚ) ^ (q + 53) ≤ num / den := by
    have hpos : (0 : ℚ) < (scaled num den q).2 := by exact_mod_cast scaled_pos hden q
    calc Nat.pow 2 53 ≤ (scaled num den q).1 / (scaled num den q).2
        ↔ (2 : ℚ) ^ 53 ≤ (scaled num den q).1 / (scaled num den q).2 := by
          rw [Nat.le_div_iff_mul_le (scaled_pos hden q), le_div_iff₀ hpos]
          norm_cast
      _ ↔ (2 : ℚ) ^ 53 * 2 ^ q ≤ num / den := by rw [scaled_div, le_div_iff₀ (by positivity)]
      _ ↔ (2 : ℚ) ^ (q + 53) ≤ num / den := by rw [add_comm q, zpow_add₀ (by norm_num), zpow_ofNat]
  -- The 53 places end at `q` or one above it; the smallest exponent only lifts them.
  obtain ⟨p, hp, hplow, hphigh⟩ : ∃ p, lastPlace num den = Max.max p (-1074) ∧
      (2 : ℚ) ^ (p + 52) ≤ num / den ∧ (num : ℚ) / den < 2 ^ (p + 53) := by
    by_cases h : (2 : ℚ) ^ (q + 53) ≤ num / den
    · refine ⟨q + 1, by rw [hplace, if_pos (hreaches.mpr h)], by convert h using 2; ring, ?_⟩
      rwa [show q + 1 + 53 = (num.log2 : Int) - den.log2 + 1 by omega]
    · refine ⟨q, by rw [hplace, if_neg (hreaches.not.mpr h)], ?_, lt_of_not_ge h⟩
      rw [show q + 52 = (num.log2 : Int) - den.log2 - 1 by omega]
      exact hlow.le
  rw [hp]
  refine ⟨le_max_right _ _, hphigh.trans_le ?_, ?_⟩
  · exact zpow_le_zpow_right₀ (by norm_num) (by omega)
  · rcases le_total p (-1074) with h | h
    · exact .inl (max_eq_right h)
    · rw [max_eq_left h]
      exact .inr hplow

/-- The bits of a rounded fraction depend on its value alone. -/
theorem nearestBits_congr {num' den' : Nat} (hden : 0 < den) (hden' : 0 < den')
    (h : (num : ℚ) / den = num' / den') : nearestBits num den = nearestBits num' den' := by
  by_cases hnum : num = 0
  · have hnum' : num' = 0 := by
      subst hnum
      have hpos : (0 : ℚ) < den' := by exact_mod_cast hden'
      simpa [hpos.ne'] using h.symm
    rw [hnum, hnum', nearestBits, nearestBits, if_pos rfl, if_pos rfl]
  · have hnum' : num' ≠ 0 := by
      rintro rfl
      have hpos : (0 : ℚ) < den := by exact_mod_cast hden
      simp [hpos.ne', hnum] at h
    have hplace : lastPlace num den = lastPlace num' den' := by
      have hplaced := lastPlace_placed (Nat.pos_of_ne_zero hnum') hden'
      rw [← h] at hplaced
      exact (lastPlace_placed (Nat.pos_of_ne_zero hnum) hden).unique hplaced
    have hround :
        divRound (scaled num den (lastPlace num den)).1 (scaled num den (lastPlace num den)).2 =
        divRound (scaled num' den' (lastPlace num den)).1
          (scaled num' den' (lastPlace num den)).2 := by
      refine divRound_congr (scaled_pos hden _) (scaled_pos hden' _) ?_
      rw [scaled_div, scaled_div, h]
    rw [nearestBits, nearestBits, if_neg hnum, if_neg hnum']
    simp only [← hplace, hround]

theorem divRound_scaled (hden : 0 < den) (h : |(num : ℚ) / den / 2 ^ q - m| < 1 / 2) :
    divRound (scaled num den q).1 (scaled num den q).2 = m := by
  have hpos : (0 : ℚ) < (scaled num den q).2 := by exact_mod_cast scaled_pos hden q
  obtain ⟨hlow, hhigh⟩ := abs_lt.mp h
  rw [← scaled_div, lt_sub_iff_add_lt, lt_div_iff₀ hpos] at hlow
  rw [← scaled_div, sub_lt_iff_lt_add, div_lt_iff₀ hpos] at hhigh
  refine divRound_of_close ?_ ?_
  · have hlt : (2 * m * (scaled num den q).2 : ℚ) < 2 * (scaled num den q).1 +
        (scaled num den q).2 := by linarith
    exact_mod_cast hlt
  · have hlt : (2 * (scaled num den q).1 : ℚ) < (2 * m + 1) * (scaled num den q).2 := by linarith
    exact_mod_cast hlt

/-- A fraction near a number `m · 2 ^ q` of at most 53 bits is rounded to it.
Below a power of two the numbers lie twice as close, so the bound is a quarter
of the last place there. -/
theorem nearestBits_of_close (hden : 0 < den) (hq : -1074 ≤ q) (hm : m < 2 ^ 53)
    (hlead : q = -1074 ∨ 2 ^ 52 ≤ m) (hclose : |(num : ℚ) / den - m * 2 ^ q| * 2 ^ 54 < m * 2 ^ q) :
    nearestBits num den = Min.min ((q + 1074).toNat * 2 ^ 52 + m) infinity.magnitude.toNat := by
  set v : ℚ := (num : ℚ) / den with hv
  have hunit : (0 : ℚ) < 2 ^ q := by positivity
  have hm' : (m : ℚ) + 1 ≤ 2 ^ 53 := by exact_mod_cast hm
  obtain ⟨hlow, hhigh⟩ := abs_lt.mp ((lt_div_iff₀ (by norm_num)).mpr hclose)
  have hnum : num ≠ 0 := by
    rintro rfl
    have hzero : v = 0 := by simp [hv]
    have habs := abs_nonneg (v - m * 2 ^ q)
    nlinarith
  have hplaced := lastPlace_placed (Nat.pos_of_ne_zero hnum) hden
  rw [← hv] at hplaced
  have hshift : ∀ k : Nat, (2 : ℚ) ^ (q + k) = 2 ^ k * 2 ^ q := by
    intro k
    rw [add_comm, zpow_add₀ (by norm_num), zpow_natCast]
  have hle : lastPlace num den ≤ q := by
    rcases hplaced.lower with h | h
    · omega
    · have hlt : v < 2 ^ (q + (53 : Nat)) := by
        rw [hshift]
        nlinarith
      have := (zpow_lt_zpow_iff_right₀ (by norm_num)).mp (h.trans_lt hlt)
      omega
  have hbits : nearestBits num den = Min.min ((lastPlace num den + 1074).toNat * 2 ^ 52 +
      divRound (scaled num den (lastPlace num den)).1 (scaled num den (lastPlace num den)).2)
      infinity.magnitude.toNat := by
    rw [nearestBits, if_neg hnum]
    rfl
  rcases hle.eq_or_lt with hp | hp
  · rw [hbits, hp, divRound_scaled hden (m := m)]
    rw [abs_lt, lt_sub_iff_add_lt, lt_div_iff₀ hunit, sub_lt_iff_lt_add, div_lt_iff₀ hunit]
    constructor <;> nlinarith
  · -- The fraction lies just below a power of two.
    have hm'' : (2 : ℚ) ^ 52 ≤ m := by
      have := hplaced.least
      exact_mod_cast hlead.resolve_left (by omega)
    have hprev : lastPlace num den = q - 1 := by
      have hlt : (2 : ℚ) ^ (q + (51 : Nat)) < 2 ^ (lastPlace num den + 53) := by
        refine lt_trans ?_ hplaced.upper
        rw [hshift]
        nlinarith
      have := (zpow_lt_zpow_iff_right₀ (by norm_num)).mp hlt
      omega
    have hpower : m = 2 ^ 52 := by
      have hupper := hplaced.upper
      rw [hprev, show q - 1 + 53 = q + (52 : Nat) by push_cast; ring, hshift] at hupper
      have hlt : (m : ℚ) < 2 ^ 52 + 1 := by nlinarith
      have hnat : m < 2 ^ 52 + 1 := by exact_mod_cast hlt
      have hnat' : 2 ^ 52 ≤ m := by exact_mod_cast hm''
      omega
    have hround : divRound (scaled num den (q - 1)).1 (scaled num den (q - 1)).2 = 2 ^ 53 := by
      refine divRound_scaled hden ?_
      have hhalf : (2 : ℚ) ^ (q - 1) = 2 ^ q / 2 := by rw [zpow_sub₀ (by norm_num), zpow_one]
      rw [hhalf, abs_lt, lt_sub_iff_add_lt, lt_div_iff₀ (by positivity), sub_lt_iff_lt_add,
        div_lt_iff₀ (by positivity)]
      rw [hpower] at hlow hhigh
      push_cast at hlow hhigh ⊢
      constructor <;> linarith
    have hcarry : (q - 1 + 1074).toNat * 2 ^ 52 + 2 ^ 53 = (q + 1074).toNat * 2 ^ 52 + 2 ^ 52 := by
      have := hplaced.least
      omega
    rw [hbits, hprev, hround, hpower, hcarry]

end Eel.Double
