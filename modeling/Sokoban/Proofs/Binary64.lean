import Mathlib.Algebra.Order.Field.Power
import Sokoban.Jani
import Sokoban.Proofs.Decimal.Range

/-! # Binary numbers for decimals

In the JANI format a decimal that is no whole number, or too large a one, is written as a binary
number with 53 binary digits, which is computed from the decimal by multiplying and dividing in that
arithmetic.  A binary number is finite below `2 ^ 1024`, and the one that stands for a decimal
always is (`Jani.isFinite_approximate`), so a number can be written for every decimal.

No exact value is needed for this, only a bound.  Rounding at most doubles a number
(`value_ofRatio_le`), so each operation gives at most twice its exact result, and there are few of
them.  A quotient needs a divisor that is not rounded to nought; the divisors here are at least one,
and rounding does not take a number below one (`one_le_value_ofRatio`), because a number that is at
least one has all its 53 digits and the first of them stands at one or above.
-/

namespace Sokoban

namespace Rounding

variable {num den n : Nat}

/-- Rounding at most doubles a quotient.  Below one half it is rounded to nought, and from there on
one half is at most the quotient itself. -/
theorem halfEven_mul_le_double (num : Nat) (hden : 0 < den) :
    halfEven num den * den ≤ 2 * num := by
  have hhalf := halfEven_mul_le num hden
  cases hround : halfEven num den with
  | zero => omega
  | succ n =>
      rw [hround] at hhalf
      nlinarith

/-- Rounding does not go below a whole number: what is at least `n` is rounded to at least `n`. -/
theorem le_halfEven_of_le (hden : 0 < den) (h : n * den ≤ num) : n ≤ halfEven num den := by
  have hdiv : n ≤ num / den := (Nat.le_div_iff_mul_le hden).mpr h
  unfold halfEven
  simp only
  split <;> omega

/-- Rounding halves up at most doubles a quotient, for the same reason. -/
theorem halfUp_mul_le_double (num den : Nat) : halfUp num den * den ≤ 2 * num := by
  have hdiv := Nat.div_mul_le_self (2 * num + den) (2 * den)
  unfold halfUp
  cases hround : (2 * num + den) / (2 * den) with
  | zero => omega
  | succ n =>
      rw [hround] at hdiv
      nlinarith

end Rounding

namespace Binary64

variable {x y : Binary64} {num den n : Nat}

/-- The rational number that a binary number is. -/
def value (x : Binary64) : ℚ :=
  x.num / x.den

/-- Whether a number is within the range of the format. -/
def isFinite (x : Binary64) : Bool :=
  x.num < twoPow 1024 * x.den

/-- The denominator is a power of two. -/
theorem den_pos (x : Binary64) : 0 < x.den :=
  twoPow_pos _

theorem den_cast_pos (x : Binary64) : (0 : ℚ) < x.den :=
  Nat.cast_pos.mpr x.den_pos

/-- These numbers have no sign and are not negative; the sign of a decimal is written apart. -/
theorem value_nonneg (x : Binary64) : 0 ≤ x.value :=
  div_nonneg (Nat.cast_nonneg _) x.den_cast_pos.le

theorem num_pos_of_value (h : 0 < x.value) : 0 < x.num := by
  apply Nat.pos_of_ne_zero
  intro hzero
  simp [value, hzero] at h

/-- More binary digits make a larger range. -/
theorem twoPow_le {m n : Nat} (h : m ≤ n) : twoPow m ≤ twoPow n :=
  Nat.pow_le_pow_right two_pos h

/-- A number is within the range if its value is; the test multiplies this out. -/
theorem isFinite_of_value (h : x.value < twoPow 1024) : x.isFinite := by
  rw [value, div_lt_iff₀ x.den_cast_pos] at h
  exact decide_eq_true (by exact_mod_cast h)

/-! ## Rounding -/

/-- The two powers that stand for an exponent, one for each sign, make the power of two. -/
theorem twoPow_div (e : Int) : (twoPow e.toNat : ℚ) / twoPow (-e).toNat = 2 ^ e := by
  have hpow : ∀ n, (twoPow n : ℚ) = 2 ^ n := fun n => by
    rw [twoPow, Nat.pow_eq]
    push_cast
    rfl
  rcases Int.eq_nat_or_neg e with ⟨n, rfl | rfl⟩
  · simp [hpow]
  · simp [hpow]

/-- A binary number is its mantissa times a power of two. -/
theorem value_eq (x : Binary64) : x.value = x.mantissa * 2 ^ x.exponent := by
  rw [value, num, Binary64.den, ← twoPow_div, Nat.cast_mul, mul_div_assoc]

/-- What is rounded: the number without its exponent. -/
theorem scaled_eq (num den : Nat) (e : Int) :
    ((num * twoPow (-e).toNat : Nat) : ℚ) / (den * twoPow e.toNat : Nat) = num / den / 2 ^ e := by
  rw [← twoPow_div, Nat.cast_mul, Nat.cast_mul, mul_div_mul_comm, div_div_eq_mul_div, mul_div_assoc]

/-- What is rounded has a denominator above nought. -/
theorem scaled_den_pos (hden : 0 < den) (e : Int) : 0 < den * twoPow e.toNat :=
  Nat.mul_pos hden (twoPow_pos _)

/-- A mantissa without its last binary digit, for which the exponent makes up.  This is done where
rounding has made the mantissa one digit too long, and it does not raise the number. -/
theorem value_half_le (m : Nat) (e : Int) : (⟨m / 2, e + 1⟩ : Binary64).value ≤ m * 2 ^ e := by
  have hhalf : ((m / 2 : Nat) : ℚ) * 2 ≤ m := by exact_mod_cast Nat.div_mul_le_self m 2
  calc (⟨m / 2, e + 1⟩ : Binary64).value
      = (m / 2 : Nat) * 2 * 2 ^ e := by rw [value_eq, zpow_add_one₀ two_ne_zero]; ring
    _ ≤ m * 2 ^ e := mul_le_mul_of_nonneg_right hhalf (by positivity)

/-- A rounded mantissa at most doubles the number, whatever the exponent is.  The power of two is
taken out before rounding and put back after it, so it cancels. -/
theorem halfEven_scaled_le (num : Nat) (hden : 0 < den) (e : Int) :
    (Rounding.halfEven (num * twoPow (-e).toNat) (den * twoPow e.toNat) : ℚ) * 2 ^ e ≤
      2 * (num / den) := by
  have hpos : (0 : ℚ) < (den * twoPow e.toNat : Nat) := Nat.cast_pos.mpr (scaled_den_pos hden e)
  have hdouble := Rounding.halfEven_mul_le_double (num * twoPow (-e).toNat) (scaled_den_pos hden e)
  generalize Rounding.halfEven _ _ = m at *
  have hm : (m : ℚ) ≤ 2 * (num / den / 2 ^ e) := by
    rw [← scaled_eq, ← mul_div_assoc, le_div_iff₀ hpos]
    exact_mod_cast hdouble
  have hpow : (0 : ℚ) < 2 ^ e := by positivity
  calc (m : ℚ) * 2 ^ e
      ≤ 2 * (num / den / 2 ^ e) * 2 ^ e := mul_le_mul_of_nonneg_right hm hpow.le
    _ = 2 * (num / den) := by rw [mul_assoc, div_mul_cancel₀ _ hpow.ne']

/-- **Rounding** at most doubles a number, also where it is below the least exponent and loses
digits. -/
theorem value_ofRatio_le (num : Nat) (hden : 0 < den) :
    (ofRatio num den).value ≤ 2 * (num / den) := by
  have hmantissa := halfEven_scaled_le num hden (lastExponent num den)
  unfold ofRatio
  split
  next hzero => simp [value_eq, hzero]
  next =>
    simp only
    split
    next => rwa [value_eq]
    next => exact (value_half_le _ _).trans hmantissa

/-- A number that is at least one has its first binary digit at one or above.  Hence its last one is
at most 52 places behind the point. -/
theorem exists_lastExponent (hden : 0 < den) (h : den ≤ num) :
    ∃ k : Nat, lastExponent num den = k - 52 ∧ den * 2 ^ k ≤ num := by
  have hnum : num ≠ 0 := by omega
  have hlogs : den.log2 ≤ num.log2 :=
    (Nat.le_log2 hnum).mpr ((Nat.log2_self_le hden.ne').trans h)
  obtain ⟨g, hg⟩ := Nat.exists_eq_add_of_le hlogs
  have hguess : (num.log2 : Int) - den.log2 = g := by omega
  simp only [lastExponent, hguess, reaches, minExponent, twoPow, Nat.pow_eq, Int.toNat_natCast,
    Int.toNat_neg_natCast, Nat.pow_zero, Nat.mul_one, decide_eq_true_eq]
  by_cases hreach : den * 2 ^ g ≤ num
  · refine ⟨g, ?_, hreach⟩
    rw [if_pos hreach]
    omega
  · -- The guess is one too high, so it is not nought.
    obtain ⟨k, rfl⟩ : ∃ k, g = k + 1 := Nat.exists_eq_succ_of_ne_zero (by rintro rfl; simp_all)
    refine ⟨k, ?_, ?_⟩
    · rw [if_neg hreach]
      omega
    · calc den * 2 ^ k
          ≤ 2 ^ (den.log2 + 1) * 2 ^ k := Nat.mul_le_mul_right _ Nat.lt_log2_self.le
        _ = 2 ^ num.log2 := by rw [hg, ← Nat.pow_add]; congr 1; omega
        _ ≤ num := Nat.log2_self_le hnum

/-- The quotient that is rounded to a mantissa has all 53 binary digits.  Its exponent is chosen so
that the first digit of the number is the first of the mantissa. -/
theorem le_scaled (hden : 0 < den) (h : den ≤ num) :
    2 ^ 52 * (den * twoPow (lastExponent num den).toNat) ≤
      num * twoPow (-lastExponent num den).toNat := by
  obtain ⟨k, he, hk⟩ := exists_lastExponent hden h
  have hden' : (0 : ℚ) < den := Nat.cast_pos.mpr hden
  have hpos : (0 : ℚ) < (den * twoPow (lastExponent num den).toNat : Nat) :=
    Nat.cast_pos.mpr (scaled_den_pos hden _)
  have hscaled : (2 : ℚ) ^ 52 ≤ num / den / 2 ^ lastExponent num den := by
    rw [le_div_iff₀ (by positivity), le_div_iff₀ hden', he, zpow_sub₀ two_ne_zero]
    have hcast : (den : ℚ) * 2 ^ k ≤ num := by exact_mod_cast hk
    norm_num
    linarith
  rw [← scaled_eq, le_div_iff₀ hpos] at hscaled
  exact_mod_cast hscaled

/-- A mantissa of 53 digits whose last one is at most 52 places behind the point is at least one. -/
theorem one_le_value (hmantissa : 2 ^ 52 ≤ x.mantissa) (hexponent : -52 ≤ x.exponent) :
    1 ≤ x.value := by
  rw [value_eq]
  calc (1 : ℚ) = 2 ^ 52 * 2 ^ (-52 : Int) := by norm_num
    _ ≤ x.mantissa * 2 ^ x.exponent := mul_le_mul (by exact_mod_cast hmantissa)
        (zpow_le_zpow_right₀ one_le_two hexponent) (by positivity) (by positivity)

/-- **Rounding does not take a number below one.** The mantissa has all its digits before it is
rounded, and rounding does not take away the first. -/
theorem one_le_value_ofRatio (hden : 0 < den) (h : den ≤ num) : 1 ≤ (ofRatio num den).value := by
  obtain ⟨k, he, -⟩ := exists_lastExponent hden h
  have hnum : num ≠ 0 := by omega
  have hm := Rounding.le_halfEven_of_le (scaled_den_pos hden _) (le_scaled hden h)
  rw [ofRatio, if_neg hnum]
  simp only
  split
  next => exact one_le_value hm (by simp only; omega)
  next hcarry =>
    have htwice : 2 * 2 ^ 52 ≤ Rounding.halfEven _ _ := Nat.le_of_not_lt hcarry
    exact one_le_value (by simp only; omega) (by simp only; omega)

/-! ## Operations -/

/-- A whole number may be rounded, as it may have more than 53 binary digits. -/
theorem value_ofNat_le (n : Nat) : (ofNat n).value ≤ 2 * n := by
  have hround := value_ofRatio_le n Nat.one_pos
  rwa [Nat.cast_one, div_one] at hround

theorem one_le_value_ofNat (h : 0 < n) : 1 ≤ (ofNat n).value :=
  one_le_value_ofRatio Nat.one_pos h

/-- A sum is at most doubled. -/
theorem value_add_le (x y : Binary64) : (x.add y).value ≤ 2 * (x.value + y.value) := by
  have hround := value_ofRatio_le (x.num * y.den + y.num * x.den) (Nat.mul_pos x.den_pos y.den_pos)
  have hsum : x.value + y.value =
      (x.num * y.den + y.num * x.den : Nat) / (x.den * y.den : Nat) := by
    rw [value, value, div_add_div _ _ x.den_cast_pos.ne' y.den_cast_pos.ne']
    push_cast
    ring
  rwa [hsum]

/-- The exact product, as a quotient of whole numbers, is what is rounded. -/
theorem value_mul_eq (x y : Binary64) :
    x.value * y.value = (x.num * y.num : Nat) / (x.den * y.den : Nat) := by
  rw [value, value, div_mul_div_comm, Nat.cast_mul, Nat.cast_mul]

/-- A product is at most doubled. -/
theorem value_mul_le (x y : Binary64) : (x.mul y).value ≤ 2 * (x.value * y.value) := by
  rw [value_mul_eq]
  exact value_ofRatio_le _ (Nat.mul_pos x.den_pos y.den_pos)

/-- A product of numbers that are at least one is so, too. -/
theorem one_le_value_mul (hx : 1 ≤ x.value) (hy : 1 ≤ y.value) : 1 ≤ (x.mul y).value := by
  have hpos : 0 < x.den * y.den := Nat.mul_pos x.den_pos y.den_pos
  have hproduct := one_le_mul_of_one_le_of_one_le hx hy
  rw [value_mul_eq, one_le_div₀ (Nat.cast_pos.mpr hpos)] at hproduct
  exact one_le_value_ofRatio hpos (by exact_mod_cast hproduct)

/-- A quotient by a number that is not nought is at most doubled. -/
theorem value_div_le (x : Binary64) (hy : 0 < y.value) :
    (x.div y).value ≤ 2 * (x.value / y.value) := by
  have hround := value_ofRatio_le (x.num * y.den) (Nat.mul_pos x.den_pos (num_pos_of_value hy))
  have hquotient : x.value / y.value = (x.num * y.den : Nat) / (x.den * y.num : Nat) := by
    rw [value, value, div_div_div_eq, Nat.cast_mul, Nat.cast_mul]
  rwa [hquotient]

/-- Dividing by a number that is at least one at most doubles a number. -/
theorem value_div_le_double (x : Binary64) (hy : 1 ≤ y.value) : (x.div y).value ≤ 2 * x.value :=
  (value_div_le x (zero_lt_one.trans_le hy)).trans
    (mul_le_mul_of_nonneg_left (div_le_self x.value_nonneg hy) zero_le_two)

/-- Rounding to a whole number at most doubles a number. -/
theorem round_le (x : Binary64) : (x.round : ℚ) ≤ 2 * x.value := by
  rw [value, ← mul_div_assoc, le_div_iff₀ x.den_cast_pos]
  exact_mod_cast Rounding.halfUp_mul_le_double x.num x.den

/-- A number that is rounded to a multiple of one part of `y`: what it is multiplied by, it is
divided by again.  Each of the four steps at most doubles it. -/
theorem value_round_le (x : Binary64) (hy : 0 < y.value) :
    ((ofNat (x.mul y).round).div y).value ≤ 16 * x.value := by
  have hround : (ofNat (x.mul y).round).value ≤ 8 * x.value * y.value := by
    linarith [value_ofNat_le (x.mul y).round, round_le (x.mul y), value_mul_le x y]
  calc ((ofNat (x.mul y).round).div y).value
      ≤ 2 * ((ofNat (x.mul y).round).value / y.value) := value_div_le _ hy
    _ ≤ 2 * (8 * x.value) := by
        apply mul_le_mul_of_nonneg_left _ zero_le_two
        rwa [div_le_iff₀ hy]
    _ = 16 * x.value := by ring

/-- Powers of numbers that are at least one are so, too, in particular the powers of ten that are
divided by.  By induction along the squaring, with both factors at least one. -/
theorem one_le_value_powerFrom (hx : 1 ≤ x.value) (hy : 1 ≤ y.value) (power : Nat) :
    1 ≤ (powerFrom x y power).value := by
  fun_induction powerFrom x y power with
  | case1 => exact hx
  | case2 x y power hpower ih =>
      apply ih _ (one_le_value_mul hy hy)
      split
      next => exact one_le_value_mul hx hy
      next => exact hx

end Binary64

namespace Jani

open Binary64

/-- The number for a decimal is not much larger than its mantissa.  The whole part and the fraction
are at most doubled a few times, and what the last step divides by is at least one. -/
theorem value_approximate_le (mantissa scale : Nat) :
    (approximate mantissa scale).value ≤ 192 * mantissa := by
  have hten := one_le_value_ofNat (tenPow_pos scale)
  have hunit := one_le_value_powerFrom (one_le_value_ofNat Nat.one_pos)
    (one_le_value_ofNat (by decide : 0 < 10)) scale
  have hmantissa : (0 : ℚ) ≤ mantissa := Nat.cast_nonneg mantissa
  have hdiv : ((mantissa / tenPow scale : Nat) : ℚ) ≤ mantissa := by
    exact_mod_cast Nat.div_le_self mantissa (tenPow scale)
  have hmod : ((mantissa % tenPow scale : Nat) : ℚ) ≤ mantissa := by
    exact_mod_cast Nat.mod_le mantissa (tenPow scale)
  have hwhole := value_ofNat_le (mantissa / tenPow scale)
  have hrest := value_ofNat_le (mantissa % tenPow scale)
  unfold approximate
  simp only
  split
  next => linarith
  next =>
    have hfraction := value_div_le_double (ofNat (mantissa % tenPow scale)) hten
    have hsum := value_add_le (ofNat (mantissa / tenPow scale))
      ((ofNat (mantissa % tenPow scale)).div (ofNat (tenPow scale)))
    refine (value_round_le _ (zero_lt_one.trans_le hunit)).trans ?_
    linarith

/-- **Every decimal** has a finite binary number: a mantissa has 96 binary digits, far fewer than
1024. -/
theorem isFinite_approximate (d : Decimal) : (approximate d.mantissa d.scale).isFinite := by
  have hmantissa : (d.mantissa : ℚ) < twoPow 96 := Nat.cast_lt.mpr d.mantissa_lt
  have hroom : 192 * twoPow 96 ≤ twoPow 1024 := by
    calc 192 * twoPow 96 ≤ twoPow 104 := by decide
      _ ≤ twoPow 1024 := twoPow_le (by decide)
  apply isFinite_of_value
  calc (approximate d.mantissa d.scale).value
      ≤ 192 * d.mantissa := value_approximate_le d.mantissa d.scale
    _ < 192 * twoPow 96 := by linarith
    _ ≤ twoPow 1024 := by exact_mod_cast hroom

end Jani

end Sokoban
