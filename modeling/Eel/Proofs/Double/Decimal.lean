import Eel.Proofs.Bytes
import Eel.Proofs.Double.Rounding
import Eel.Tree.Parser

/-!
Finite numbers in decimal.

The shortest decimal of a finite number reads back as that number. Among
decimals of seventeen digits the nearest one always does, since they lie closer
together than the numbers with 53 bits.
-/

namespace Eel

/-- A whole number times a power of a base, as numerator and denominator. -/
theorem ratio_div {b : Nat} (hb : 0 < b) (m : Nat) (e : Int) {r : Nat × Nat}
    (hr : r = if 0 ≤ e then (m * b ^ e.toNat, 1) else (m, b ^ (-e).toNat)) :
    0 < r.2 ∧ (r.1 : ℚ) / r.2 = m * (b : ℚ) ^ e := by
  subst hr
  split
  · next he =>
      lift e to Nat using he
      simp
  · next he =>
      obtain ⟨k, rfl⟩ := Int.exists_eq_neg_ofNat (by omega : e ≤ 0)
      refine ⟨Nat.pow_pos hb, ?_⟩
      simp [div_eq_mul_inv]

namespace Decimal

def value (d : Decimal) : ℚ := d.digits * 10 ^ d.exponent

theorem ratio_eq (d : Decimal) : 0 < d.ratio.2 ∧ (d.ratio.1 : ℚ) / d.ratio.2 = d.value :=
  ratio_div (by norm_num : 0 < 10) d.digits d.exponent rfl

/-- A decimal is read by its value. -/
theorem toDouble_congr {d d' : Decimal} (h : d.value = d'.value) : d.toDouble = d'.toDouble := by
  obtain ⟨hpos, hratio⟩ := d.ratio_eq
  obtain ⟨hpos', hratio'⟩ := d'.ratio_eq
  have hbits := Double.nearestBits_congr hpos hpos' (by rw [hratio, hratio', h])
  simp only [toDouble, Double.ofRatio, hbits]

theorem value_trimWith (fuel : Nat) (d : Decimal) : (trimWith fuel d).value = d.value := by
  induction fuel generalizing d with
  | zero => rfl
  | succ fuel ih =>
    rw [trimWith]
    split
    · next h =>
        have hdigits : (d.digits : ℚ) = (d.digits / 10 : Nat) * 10 := by
          exact_mod_cast (Nat.div_mul_cancel (Nat.dvd_of_mod_eq_zero h.2)).symm
        rw [ih, value, value, hdigits, zpow_add_one₀ (by norm_num)]
        ring
    · rfl

theorem value_trim (d : Decimal) : d.trim.value = d.value := value_trimWith _ d

end Decimal

namespace Double

theorem abs_eq (x : Double) : x.abs = ⟨x.magnitude⟩ := by
  simp only [abs, magnitude, mk.injEq, ← UInt64.toNat_inj, UInt64.toNat_and, UInt64.toNat_mod]
  exact Nat.and_two_pow_sub_one_eq_mod _ 63

@[simp] theorem magnitude_abs (x : Double) : x.abs.magnitude = x.magnitude := by
  have hlt := x.magnitude_lt
  rw [abs_eq, ← UInt64.toNat_inj]
  exact Nat.mod_eq_of_lt hlt

@[simp] theorem isFinite_abs (x : Double) : x.abs.isFinite = x.isFinite := by simp [isFinite]

@[simp] theorem significand_abs (x : Double) : x.abs.significand = x.significand := by
  simp [significand, exponentField]

@[simp] theorem abs_abs (x : Double) : x.abs.abs = x.abs := by
  rw [abs_eq x.abs, magnitude_abs, ← abs_eq]

@[simp] theorem isNegative_abs (x : Double) : x.abs.isNegative = false := by
  have hlt := x.magnitude_lt
  simp only [abs_eq, isNegative, decide_eq_false_iff_not, UInt64.le_iff_toNat_le]
  change ¬(2 ^ 63 ≤ _)
  omega

theorem abs_of_isNegative {x : Double} (h : x.isNegative = false) : x.abs = x := by
  simp only [isNegative, decide_eq_false_iff_not, UInt64.le_iff_toNat_le] at h
  change ¬(2 ^ 63 ≤ _) at h
  rw [abs_eq, magnitude]
  congr 1
  rw [← UInt64.toNat_inj, UInt64.toNat_mod]
  exact Nat.mod_eq_of_lt (by change _ < 2 ^ 63; omega)

/-- The magnitude of a finite number. -/
def absValue (x : Double) : ℚ := x.significand * 2 ^ x.exponent

theorem ratio_eq (x : Double) : 0 < x.ratio.2 ∧ (x.ratio.1 : ℚ) / x.ratio.2 = x.absValue :=
  ratio_div (by norm_num : 0 < 2) x.significand x.exponent rfl

/-- A fraction close to a finite number is read as that number. -/
theorem ofRatio_of_close {x : Double} (hfinite : x.isFinite = true) (hsign : x.isNegative = false)
    {num den : Nat} (hden : 0 < den)
    (hclose : |(num : ℚ) / den - x.absValue| * 2 ^ 54 < x.absValue) :
    ofRatio false num den = x := by
  have hlead : x.exponent = -1074 ∨ 2 ^ 52 ≤ x.significand := by
    have hfield := x.exponentField_eq
    rw [significand_eq, exponent]
    split <;> omega
  have hleast : -1074 ≤ x.exponent := by
    rw [exponent]
    omega
  have hbits := nearestBits_of_close hden hleast x.significand_lt hlead hclose
  have hbound : x.magnitude.toNat < infinity.magnitude.toNat := by
    simpa only [isFinite, decide_eq_true_eq, UInt64.lt_iff_toNat_lt] using hfinite
  rw [← magnitude_eq, Nat.min_eq_left hbound.le] at hbits
  rw [← abs_of_isNegative hsign, abs_eq, ofRatio, hbits]
  simp

section Shortest

variable {num den : Nat}

theorem scaledTen_pos (hden : 0 < den) (e : Int) : 0 < (scaledTen num den e).2 := by
  unfold scaledTen
  split
  · exact Nat.mul_pos hden (Nat.pow_pos (by decide))
  · exact hden

theorem scaledTen_div (num den : Nat) (e : Int) :
    ((scaledTen num den e).1 : ℚ) / (scaledTen num den e).2 = num / den / 10 ^ e := by
  unfold scaledTen
  split
  · next he =>
      lift e to Nat using he
      simp [div_div]
  · next he =>
      obtain ⟨k, rfl⟩ := Int.exists_eq_neg_ofNat (by omega : e ≤ 0)
      simp [div_eq_mul_inv, mul_right_comm]

theorem reachesTen_iff (hden : 0 < den) (e : Int) :
    reachesTen num den e = true ↔ (10 : ℚ) ^ e ≤ num / den := by
  have hpos : (0 : ℚ) < (scaledTen num den e).2 := by exact_mod_cast scaledTen_pos hden e
  calc reachesTen num den e = true
      ↔ (scaledTen num den e).2 ≤ (scaledTen num den e).1 := decide_eq_true_iff
    _ ↔ (1 : ℚ) ≤ (scaledTen num den e).1 / (scaledTen num den e).2 := by
        rw [le_div_iff₀ hpos, one_mul]
        norm_cast
    _ ↔ (10 : ℚ) ^ e ≤ num / den := by rw [scaledTen_div, le_div_iff₀ (by positivity), one_mul]

theorem climbTen_le (hden : 0 < den) (fuel : Nat) (e : Int) (h : (10 : ℚ) ^ e ≤ num / den) :
    (10 : ℚ) ^ climbTen num den fuel e ≤ num / den := by
  induction fuel generalizing e with
  | zero => exact h
  | succ fuel ih =>
    rw [climbTen]
    split
    · next hreaches => exact ih _ ((reachesTen_iff hden _).mp hreaches)
    · exact h

/-- The decimal logarithm of two, rounded, keeps below a power of two by a
place. -/
theorem ten_zpow_le {b : Int} (hlow : -20000 ≤ b) (hhigh : b ≤ 20000) :
    (10 : ℚ) ^ ((b * 30103).fdiv 100000 - 1) ≤ 2 ^ b := by
  have hfloor : (b * 30103).fdiv 100000 * 100000 ≤ b * 30103 := by
    rw [Int.fdiv_eq_ediv_of_nonneg _ (by norm_num)]
    omega
  set k := (b * 30103).fdiv 100000 - 1 with hk
  rcases le_total 0 b with hb | hb
  · -- `10 ^ 59 ≤ 2 ^ 196`
    refine (pow_le_pow_iff_left₀ (by positivity) (by positivity) (by norm_num : 196 ≠ 0)).mp ?_
    calc ((10 : ℚ) ^ k) ^ 196 = 10 ^ (k * 196) := by rw [← zpow_natCast, ← zpow_mul]; rfl
      _ ≤ 10 ^ (59 * b) := zpow_le_zpow_right₀ (by norm_num) (by omega)
      _ = (10 ^ 59) ^ b := by rw [zpow_mul]; rfl
      _ ≤ (2 ^ 196) ^ b := zpow_le_zpow_left₀ hb (by norm_num) (by norm_num)
      _ = (2 ^ b) ^ 196 := by rw [← zpow_natCast, ← zpow_natCast, ← zpow_mul, ← zpow_mul, mul_comm]
  · -- `2 ^ 93 ≤ 10 ^ 28`
    refine (pow_le_pow_iff_left₀ (by positivity) (by positivity) (by norm_num : 93 ≠ 0)).mp ?_
    obtain ⟨c, rfl⟩ := Int.exists_eq_neg_ofNat hb
    calc ((10 : ℚ) ^ k) ^ 93 = 10 ^ (k * 93) := by rw [← zpow_natCast, ← zpow_mul]; rfl
      _ ≤ 10 ^ (28 * -(c : Int)) := zpow_le_zpow_right₀ (by norm_num) (by omega)
      _ = ((10 ^ 28) ^ c)⁻¹ := by rw [zpow_mul, zpow_neg, zpow_natCast]; rfl
      _ ≤ ((2 ^ 93) ^ c)⁻¹ := by
          gcongr
          norm_num
      _ = (2 ^ (-(c : Int))) ^ 93 := by
          rw [zpow_neg, inv_pow, zpow_natCast, ← pow_mul, ← pow_mul, mul_comm]

theorem leadingPlace_le (hnum : 0 < num) (hden : 0 < den) (hnumLog : num.log2 ≤ 10000)
    (hdenLog : den.log2 ≤ 10000) : (10 : ℚ) ^ leadingPlace num den ≤ num / den := by
  refine climbTen_le hden 3 _ ((ten_zpow_le ?_ ?_).trans (log2_bounds hnum hden).1.le)
  · omega
  · omega

/-- Of two neighbouring decimals, one is at most half a place away. -/
theorem neighbours_close (hden : 0 < den) (count : Nat) : ∃ d,
    (d = (neighbours num den count).1 ∨ d = (neighbours num den count).2.1) ∧
      |d.value - num / den| * 2 ≤ (10 : ℚ) ^ (leadingPlace num den - count + 1) := by
  set e := leadingPlace num den - count + 1 with he
  set n := (scaledTen num den e).1 with hn
  set d := (scaledTen num den e).2 with hd
  have hpos : (0 : ℚ) < d := by exact_mod_cast scaledTen_pos hden e
  have hunit : (0 : ℚ) < 10 ^ e := by positivity
  have hvalue : (num : ℚ) / den = n / d * 10 ^ e := by
    rw [scaledTen_div, div_mul_cancel₀ _ hunit.ne']
  have hsplit : (n : ℚ) = d * (n / d : Nat) + (n % d : Nat) := by
    exact_mod_cast (Nat.div_add_mod n d).symm
  have hrest : (n : ℚ) / d = (n / d : Nat) + (n % d : Nat) / d := by
    rw [hsplit, add_div, mul_div_cancel_left₀ _ hpos.ne']
  have hlow : (neighbours num den count).1 = ⟨n / d, e⟩ := rfl
  have hhigh : (neighbours num den count).2.1 = ⟨n / d + 1, e⟩ := rfl
  have hmod : ((n % d : Nat) : ℚ) < d := by exact_mod_cast Nat.mod_lt n (scaledTen_pos hden e)
  have hfraction : (0 : ℚ) ≤ (n % d : Nat) / d ∧ ((n % d : Nat) : ℚ) / d < 1 :=
    ⟨by positivity, by rwa [div_lt_one hpos]⟩
  rcases le_total (((n % d : Nat) : ℚ) / d * 2) 1 with h | h
  · refine ⟨_, .inl rfl, ?_⟩
    rw [hlow, hvalue, hrest, Decimal.value, ← sub_mul, abs_mul, abs_of_pos hunit]
    rw [abs_of_nonpos (by simpa using hfraction.1)]
    nlinarith
  · refine ⟨_, .inr rfl, ?_⟩
    rw [hhigh, hvalue, hrest, Decimal.value, ← sub_mul, abs_mul, abs_of_pos hunit]
    push_cast
    rw [abs_of_nonneg (by linarith)]
    nlinarith

variable {x : Double}

theorem readingBack?_eq_some {count : Nat} {d : Decimal} (h : readingBack? x count = some d) :
    d.toDouble = x := by
  unfold readingBack? at h
  dsimp only at h
  split at h
  · next hlow hhigh =>
      cases h
      split
      · exact beq_iff_eq.mp hhigh
      · exact beq_iff_eq.mp hlow
  · next hlow _ =>
      cases h
      exact beq_iff_eq.mp hlow
  · next _ hhigh =>
      cases h
      exact beq_iff_eq.mp hhigh
  · cases h

theorem exists_readingBack {count : Nat} {d : Decimal} (hread : d.toDouble = x)
    (hd : d = (neighbours x.ratio.1 x.ratio.2 count).1 ∨
      d = (neighbours x.ratio.1 x.ratio.2 count).2.1) :
    ∃ d', readingBack? x count = some d' := by
  have hbeq : (d.toDouble == x) = true := beq_iff_eq.mpr hread
  unfold readingBack?
  dsimp only
  rcases hd with rfl | rfl
  · rw [hbeq]
    split <;> simp_all
  · rw [hbeq]
    split <;> simp_all

theorem log2_ratio (x : Double) : x.ratio.1.log2 ≤ 10000 ∧ x.ratio.2.log2 ≤ 10000 := by
  have hlog : ∀ {n k : Nat}, n < 2 ^ k → k ≤ 10000 → n.log2 ≤ 10000 := by
    intro n k hn hk
    by_cases hzero : n = 0
    · simp [hzero]
    · have := (Nat.log2_lt hzero).mpr hn
      omega
  have hexponent : x.exponent ≤ 972 ∧ -1074 ≤ x.exponent := by
    have hlt := x.magnitude_lt
    have hfield := x.exponentField_eq
    rw [exponent]
    omega
  unfold ratio
  split
  · refine ⟨hlog (k := 53 + x.exponent.toNat) ?_ (by omega), hlog (k := 1) (by norm_num) (by omega)⟩
    rw [pow_add]
    exact Nat.mul_lt_mul_of_pos_right x.significand_lt (Nat.pow_pos (by norm_num))
  · refine ⟨hlog x.significand_lt (by omega), hlog (k := (-x.exponent).toNat + 1) ?_ (by omega)⟩
    exact Nat.pow_lt_pow_right (by norm_num) (by omega)

/-- Seventeen digits suffice. -/
theorem exists_readingBack_seventeen (hfinite : x.isFinite = true) (hsign : x.isNegative = false)
    (hzero : x.significand ≠ 0) : ∃ d, readingBack? x 17 = some d := by
  obtain ⟨hden, hratio⟩ := x.ratio_eq
  have hvalue : 0 < x.absValue := by
    have : (0 : ℚ) < x.significand := by exact_mod_cast Nat.pos_of_ne_zero hzero
    rw [absValue]
    positivity
  obtain ⟨d, hd, hclose⟩ := @neighbours_close x.ratio.1 x.ratio.2 hden 17
  have hnum : 0 < x.ratio.1 := by
    refine Nat.pos_of_ne_zero fun h => ?_
    rw [h, Nat.cast_zero, zero_div] at hratio
    exact hvalue.ne hratio
  have hplace := leadingPlace_le hnum hden (log2_ratio x).1 (log2_ratio x).2
  rw [hratio] at hplace
  refine exists_readingBack (ofRatio_of_close hfinite hsign d.ratio_eq.1 ?_) hd
  rw [hratio, show leadingPlace x.ratio.1 x.ratio.2 - (17 : Nat) + 1 =
    leadingPlace x.ratio.1 x.ratio.2 - 16 by
    push_cast; ring, zpow_sub₀ (by norm_num)] at hclose
  rw [d.ratio_eq.2]
  calc |d.value - x.absValue| * 2 ^ 54 = |d.value - x.absValue| * 2 * 2 ^ 53 := by ring
    _ ≤ x.absValue / 10 ^ (16 : Int) * 2 ^ 53 := by gcongr; exact hclose.trans (by gcongr)
    _ < x.absValue := by
        rw [div_mul_eq_mul_div, div_lt_iff₀ (by norm_num)]
        gcongr
        norm_num

theorem shortestFrom_succ (x : Double) (fuel count : Nat) : shortestFrom x (fuel + 1) count =
    (readingBack? x count).getD (shortestFrom x fuel (count + 1)) := by
  delta shortestFrom shortestFrom._f
  -- Unfolding would evaluate the search; a variable in its place keeps it shut.
  generalize readingBack? x = search
  cases h : search count <;> simp only [h, Option.getD]

theorem shortestFrom_reads {fuel count steps : Nat} {d : Decimal} (hsteps : steps < fuel)
    (h : readingBack? x (count + steps) = some d) : (shortestFrom x fuel count).toDouble = x := by
  induction fuel generalizing count steps with
  | zero => cases hsteps
  | succ fuel ih =>
    rw [shortestFrom_succ]
    cases hback : readingBack? x count with
    | some d => exact readingBack?_eq_some hback
    | none =>
      cases steps with
      | zero =>
        rw [Nat.add_zero, hback] at h
        cases h
      | succ steps =>
        rw [← Nat.add_assoc, Nat.add_right_comm] at h
        exact ih (Nat.lt_of_succ_lt_succ hsteps) h

/-- The shortest decimal of a finite number is read as its magnitude. -/
theorem toDouble_shortest (hfinite : x.isFinite = true) : x.shortest.toDouble = x.abs := by
  unfold shortest
  split
  · next hzero =>
      have hmagnitude : x.magnitude.toNat = 0 := by
        rw [significand_eq] at hzero
        split at hzero <;> omega
      have hbits : x.magnitude = 0 := UInt64.toNat_inj.mp hmagnitude
      rw [abs_eq, hbits]
      decide
  · next hzero =>
      have hfinite' : x.abs.isFinite = true := by simpa using hfinite
      obtain ⟨d, hd⟩ :=
        exists_readingBack_seventeen hfinite' x.isNegative_abs (by simpa using hzero)
      rw [Decimal.toDouble_congr (Decimal.value_trim _)]
      exact @shortestFrom_reads x.abs 17 1 16 d (by norm_num) hd

end Shortest

end Double

end Eel
