import Mathlib.Algebra.Order.Field.Rat
import Mathlib.Tactic.Linarith
import Mathlib.Tactic.NormNum
import Mathlib.Tactic.Positivity
import Mathlib.Tactic.Ring
import Sokoban.Proofs.Decimal.Value

/-! # Rounded results

A sum or a quotient of decimals is rounded to the most places that fit, and overflows only if its
whole part does.  The operation tries the places one after the other, from the most down to none,
and takes the first at which the rounded mantissa has no more than 96 binary digits.  `fit?_some`
says what has been rounded and `fit?_of_lt` when all places fit.

Rounding is half to even, so it is off by at most one half in the last place
(`Rounding.abs_halfEven_sub_le`), never goes beyond a whole number (`Rounding.halfEven_le`) and
leaves a whole number as it is (`Rounding.halfEven_mul`).

All decimals are whole multiples of one `unit` in the last of 28 places, and numbers up to seven can
be held to the unit:  `7 * 10 ^ 28` has 96 binary digits and `8 * 10 ^ 28` has more.  So a quotient
up to seven is off by at most half a unit (`exists_div`, `exists_divNat`), and one that is bounded
by a whole number still is after rounding (`Approximates.le_natCast`).  Probabilities are far below
seven, which is why they lose no places.
-/

namespace Sokoban

namespace Rounding

variable {num den n : Nat}

/-- Rounding does not go beyond a whole number: what is at most `n` is rounded to at most `n`.  Only
a remainder is rounded up, and where the whole part is `n` there is none. -/
theorem halfEven_le (hden : 0 < den) (h : num ≤ n * den) : halfEven num den ≤ n := by
  have hdiv : num / den ≤ n := Nat.div_le_of_le_mul (by rwa [Nat.mul_comm])
  have hsplit := Nat.div_add_mod num den
  unfold halfEven
  simp only
  split
  next => exact hdiv
  next hup =>
    -- Rounding up leaves a rest, so the quotient is below `n`.
    have hne : num / den ≠ n := by
      intro heq
      rw [heq, Nat.mul_comm] at hsplit
      omega
    omega

/-- Rounding takes away at most one half.  The inequality is multiplied out, so that it is one
between natural numbers. -/
theorem le_halfEven (num : Nat) (hden : 0 < den) : 2 * num ≤ (2 * halfEven num den + 1) * den := by
  have hsplit := Nat.div_add_mod num den
  have hrest := Nat.mod_lt num hden
  unfold halfEven
  simp only
  split
  next hdown =>
    have h2 : 2 * (num % den) ≤ den := by omega
    nlinarith
  next => nlinarith

/-- Rounding adds at most one half, again multiplied out. -/
theorem halfEven_mul_le (num : Nat) (hden : 0 < den) :
    2 * halfEven num den * den ≤ 2 * num + den := by
  have hsplit := Nat.div_add_mod num den
  unfold halfEven
  simp only
  split
  next => linarith [Nat.div_mul_le_self num den]
  next hup =>
    have h2 : den ≤ 2 * (num % den) := by omega
    nlinarith

/-- A quotient without remainder is not rounded. -/
theorem halfEven_mul (hden : 0 < den) : halfEven (n * den) den = n := by
  simp [halfEven, Nat.mul_div_cancel n hden, hden]

/-- **Rounding** is off by at most one half, above and below.  The two inequalities above are its
two sides, divided by the denominator. -/
theorem abs_halfEven_sub_le (num : Nat) (hden : 0 < den) :
    |(halfEven num den : ℚ) - num / den| ≤ 1 / 2 := by
  have hpos : (0 : ℚ) < den := Nat.cast_pos.mpr hden
  have hlow : (2 * num : ℚ) ≤ (2 * halfEven num den + 1) * den := by
    exact_mod_cast le_halfEven num hden
  have hhigh : (2 * halfEven num den * den : ℚ) ≤ 2 * num + den := by
    exact_mod_cast halfEven_mul_le num hden
  have hquotient : (num : ℚ) / den * den = num := div_mul_cancel₀ _ hpos.ne'
  rw [abs_le]
  constructor <;>
  · refine le_of_mul_le_mul_right ?_ hpos
    linarith

end Rounding

namespace Decimal

variable {a b d : Decimal} {negative : Bool} {num den places n : Nat}

/-! ## The last place -/

/-- The difference that the last of 28 places makes.  It is the smallest number above nought that a
decimal stands for. -/
def unit : ℚ :=
  1 / tenPow 28

/-- The unit is above nought, so bounds in units can be divided by it. -/
theorem unit_pos : 0 < unit :=
  one_div_pos.mpr (tenPow_cast_pos 28)

/-- With all 28 places a mantissa counts units. -/
theorem unit_mul_tenPow : unit * tenPow 28 = 1 :=
  one_div_mul_cancel (tenPow_cast_pos 28).ne'

/-- Every decimal is a whole multiple of the unit, for it has at most 28 places.  Two decimals
therefore are equal or at least a unit apart. -/
theorem value_eq (d : Decimal) : d.value = d.shifted 28 * unit := by
  rw [shifted_eq d.scale_le, mul_assoc, mul_comm (tenPow 28 : ℚ), unit_mul_tenPow, mul_one]

/-- A decimal that is less than a unit above a whole number is not above it: both are multiples of
the unit.  So a rounding error of half a unit does not take a share beyond one. -/
theorem le_natCast_of_lt (h : d.value < n + unit) : d.value ≤ n := by
  have hn : (n : ℚ) = (n * tenPow 28 : Nat) * unit := by
    rw [Nat.cast_mul, mul_assoc, mul_comm (tenPow 28 : ℚ), unit_mul_tenPow, mul_one]
  rw [value_eq, hn] at h ⊢
  have hlt : (d.shifted 28 : ℚ) < (n * tenPow 28 : Nat) + 1 :=
    lt_of_mul_lt_mul_right (by linarith) unit_pos.le
  have hle : d.shifted 28 ≤ (n * tenPow 28 : Nat) := Int.lt_add_one_iff.mp (by exact_mod_cast hlt)
  exact mul_le_mul_of_nonneg_right (by exact_mod_cast hle) unit_pos.le

/-- A decimal is not negative, and off from a number by at most half a unit.  This is what is known
of a rounded quotient, and all that the bounds on shares need. -/
structure Approximates (d : Decimal) (x : ℚ) : Prop where
  nonneg : 0 ≤ d.value
  near : |d.value - x| ≤ unit / 2

namespace Approximates

variable {x : ℚ}

/-- A rounded quotient is at most half a unit above the exact one. -/
theorem le (h : d.Approximates x) : d.value ≤ x + unit / 2 := by
  linarith [(abs_le.mp h.near).2]

theorem ge (h : d.Approximates x) : x - unit / 2 ≤ d.value := by
  linarith [(abs_le.mp h.near).1]

/-- A whole number that bounds the exact quotient also bounds the rounded one. -/
theorem le_natCast (h : d.Approximates x) (hx : x ≤ n) : d.value ≤ n :=
  le_natCast_of_lt (by linarith [h.le, unit_pos])

/-- A rounded quotient stays in the range of the exact one, and so can be added up and divided again
without a loss. -/
theorem within (h : d.Approximates x) (hx : x ≤ n) : d.Within n :=
  ⟨h.nonneg, h.le_natCast hx⟩

end Approximates

/-! ## What fits -/

/-- A decimal is made of the parts it is given, if they fit. -/
theorem ofParts?_eq_some {m : Nat} (h : ofParts? negative num m = some d) :
    d.negative = negative ∧ d.mantissa = num ∧ d.scale = m := by
  unfold ofParts? at h
  split at h
  next => obtain rfl := Option.some.inj h; exact ⟨rfl, rfl, rfl⟩
  next => simp at h

/-- What fits has the sign that is asked for and the mantissa rounded at its scale; either it has
all the places, or with one more place the mantissa would be too long. -/
theorem fit?_some (hplaces : places ≤ 28) (h : fit? negative num den places = some d) :
    d.negative = negative ∧ d.mantissa = Rounding.halfEven (num * tenPow d.scale) den ∧
      (d.scale = places ∨ twoPow 96 ≤ Rounding.halfEven (num * tenPow (d.scale + 1)) den) := by
  induction places with
  | zero =>
      obtain ⟨hneg, hmantissa, hscale⟩ := ofParts?_eq_some h
      simp [hneg, hmantissa, hscale]
  | succ places ih =>
      rw [fit?] at h
      cases hfit : ofParts? negative (Rounding.halfEven (num * tenPow (places + 1)) den)
        (places + 1) with
      | some r =>
          rw [hfit] at h
          obtain rfl : r = d := Option.some.inj h
          obtain ⟨hneg, hmantissa, hscale⟩ := ofParts?_eq_some hfit
          exact ⟨hneg, by rw [hmantissa, hscale], .inl hscale⟩
      | none =>
          rw [hfit] at h
          obtain ⟨hneg, hmantissa, hmost⟩ := ih (by omega) h
          refine ⟨hneg, hmantissa, .inr ?_⟩
          rcases hmost with hscale | hlong
          · rw [hscale]
            by_contra hshort
            simp [ofParts?, Nat.lt_of_not_le hshort, hplaces] at hfit
          · exact hlong

/-- All places are kept where the mantissa is not too long for them.  The search for places begins
with all of them and so ends there. -/
theorem fit?_of_lt (hplaces : places ≤ 28)
    (h : Rounding.halfEven (num * tenPow places) den < twoPow 96) :
    ∃ d, fit? negative num den places = some d ∧ d.negative = negative ∧
      d.mantissa = Rounding.halfEven (num * tenPow places) den ∧ d.scale = places := by
  cases places with
  | zero =>
      rw [tenPow_zero, Nat.mul_one] at h ⊢
      exact ⟨_, dif_pos ⟨h, hplaces⟩, rfl, rfl, rfl⟩
  | succ places =>
      have hfit : ofParts? negative (Rounding.halfEven (num * tenPow (places + 1)) den)
          (places + 1) = some ⟨negative, _, places + 1, h, hplaces⟩ := dif_pos ⟨h, hplaces⟩
      exact ⟨_, by rw [fit?, hfit]; rfl, rfl, rfl, rfl⟩

/-- A mantissa that would be too long with one more place is nearly as long as it can be: ten times
as long is too long.  So where places are given up, the relative error is tiny although the absolute
one is not. -/
theorem le_mantissa_of_long (hden : 0 < den)
    (hmantissa : d.mantissa = Rounding.halfEven (num * tenPow d.scale) den)
    (hlong : twoPow 96 ≤ Rounding.halfEven (num * tenPow (d.scale + 1)) den) :
    twoPow 96 ≤ 10 * d.mantissa := by
  have hlow := Rounding.le_halfEven (num * tenPow d.scale) hden
  have hhigh := Rounding.halfEven_mul_le (num * tenPow (d.scale + 1)) hden
  rw [← hmantissa] at hlow
  rw [tenPow_succ] at hhigh hlong
  have hbound : 2 * twoPow 96 * den ≤ (20 * d.mantissa + 11) * den :=
    calc 2 * twoPow 96 * den
        ≤ 2 * Rounding.halfEven (num * (tenPow d.scale * 10)) den * den := by gcongr
      _ ≤ (20 * d.mantissa + 11) * den := by linarith
  have hle := Nat.le_of_mul_le_mul_right hbound hden
  -- The power ends in a six, so the digit that is lost makes no difference.
  have hpow : twoPow 96 = 79228162514264337593543950336 := rfl
  omega

theorem tenPow_le (h : places ≤ 28) : tenPow places ≤ tenPow 28 :=
  Nat.pow_le_pow_right (by decide) h

/-- Seven can be held with all places.  It is the largest whole number of which this is true, and it
bounds every sum and quotient that the generator takes of probabilities. -/
theorem seven_mul_lt (h : places ≤ 28) : 7 * tenPow places < twoPow 96 :=
  (Nat.mul_le_mul_left 7 (tenPow_le h)).trans_lt (by decide)

/-- The absolute value forgets the sign of the mantissa. -/
theorem abs_value (d : Decimal) : |d.value| = d.mantissa / tenPow d.scale := by
  have hscale := tenPow_cast_pos d.scale
  rw [value, abs_div, abs_of_pos hscale]
  split <;> simp

/-- Without a minus a decimal is its own absolute value. -/
theorem abs_value_of_not_negative (h : d.negative = false) : |d.value| = d.value := by
  rw [abs_value, value, h]
  rfl

/-- The mantissa of a number that is not negative is the number in its last place.  A nought with a
minus is no exception, for its mantissa is nought. -/
theorem mantissa_eq (h : 0 ≤ d.value) : (d.mantissa : ℚ) = d.value * tenPow d.scale := by
  rw [← abs_of_nonneg h, abs_value, div_mul_cancel₀ _ (tenPow_cast_pos d.scale).ne']

/-- A number above nought has no minus. -/
theorem not_negative_of_pos (h : 0 < d.value) : d.negative = false := by
  by_contra hneg
  rw [Bool.not_eq_false] at hneg
  have hle : d.value ≤ 0 := by
    rw [value, if_pos hneg]
    exact div_nonpos_of_nonpos_of_nonneg (by simp) (tenPow_cast_pos d.scale).le
  linarith

/-- A minus on a number that is not negative is one on nought. -/
theorem mantissa_eq_zero_of_negative (h : 0 ≤ d.value) (hneg : d.negative = true) :
    d.mantissa = 0 := by
  have hzero : ¬ 0 < d.value := fun hpos => by simp [not_negative_of_pos hpos] at hneg
  have hvalue : d.value = 0 := le_antisymm (not_lt.mp hzero) h
  have hmantissa := mantissa_eq h
  rw [hvalue, zero_mul] at hmantissa
  exact_mod_cast hmantissa

/-! ## Quotients -/

/-- A quotient up to seven, of numbers that are not negative, is off by at most half a unit: seven
fits with all places, so the mantissa is rounded at the last of them.  It may have a minus only as a
nought. -/
theorem exists_quotient (hden : 0 < den) (hle : num ≤ 7 * den)
    (hsign : negative = true → num = 0) :
    ∃ d, quotient negative num den = .ok d ∧ d.Approximates (num / den) := by
  have hround : Rounding.halfEven (num * tenPow 28) den ≤ 7 * tenPow 28 := by
    refine Rounding.halfEven_le hden ?_
    calc num * tenPow 28 ≤ 7 * den * tenPow 28 := Nat.mul_le_mul_right _ hle
      _ = 7 * tenPow 28 * den := by ring
  obtain ⟨d, hd, hneg, hmantissa, hscale⟩ : ∃ d, fit? negative num den 28 = some d ∧ _ :=
    fit?_of_lt (Nat.le_refl 28) (hround.trans_lt (seven_mul_lt (Nat.le_refl 28)))
  refine ⟨d, by rw [quotient, if_neg hden.ne', hd]; rfl, ?_⟩
  have habs : |d.value| = d.value := by
    cases hcase : negative with
    | false => exact abs_value_of_not_negative (hneg.trans hcase)
    | true =>
        -- A minus is only possible on nought.
        have hnought : d.mantissa = 0 := by
          rw [hmantissa, hsign hcase, Nat.zero_mul]
          simp [Rounding.halfEven, hden]
        rw [abs_value, value, hnought]
        simp
  refine ⟨habs ▸ abs_nonneg _, ?_⟩
  have hvalue : d.value = Rounding.halfEven (num * tenPow 28) den * unit := by
    rw [← habs, abs_value, hmantissa, hscale, unit, mul_one_div]
  have hexact : (num / den : ℚ) = (num * tenPow 28 : Nat) / den * unit := by
    rw [unit, Nat.cast_mul, mul_one_div, mul_div_right_comm,
      mul_div_cancel_right₀ _ (tenPow_cast_pos 28).ne']
  rw [hvalue, hexact, ← sub_mul, abs_mul, abs_of_pos unit_pos]
  calc |(Rounding.halfEven (num * tenPow 28) den : ℚ) - (num * tenPow 28 : Nat) / den| * unit
      ≤ 1 / 2 * unit := mul_le_mul_of_nonneg_right (Rounding.abs_halfEven_sub_le _ hden) unit_pos.le
    _ = unit / 2 := by ring

/-- **A quotient up to seven** is off by at most half a unit.  Both numbers are brought to the same
scale, which does not change the quotient, and the signs are those of numbers that are not negative.
-/
theorem exists_div (ha : 0 ≤ a.value) (hb : 0 < b.value) (hle : a.value ≤ 7 * b.value) :
    ∃ d, a.div b = .ok d ∧ d.Approximates (a.value / b.value) := by
  have hmb := mantissa_eq hb.le
  have hma := mantissa_eq ha
  have hsa := tenPow_cast_pos a.scale
  have hsb := tenPow_cast_pos b.scale
  have hquotient : a.value / b.value =
      ((a.mantissa * tenPow b.scale : Nat) : ℚ) / (b.mantissa * tenPow a.scale : Nat) := by
    push_cast
    rw [hma, hmb]
    field_simp
  rw [hquotient]
  refine exists_quotient ?_ ?_ fun hsign => ?_
  · have hpos : (0 : ℚ) < b.mantissa := hmb ▸ mul_pos hb hsb
    exact Nat.mul_pos (by exact_mod_cast hpos) (tenPow_pos _)
  · have hcast : (a.mantissa * tenPow b.scale : ℚ) ≤ 7 * (b.mantissa * tenPow a.scale) := by
      rw [hma, hmb]
      have hscales := mul_le_mul_of_nonneg_right hle (mul_pos hsa hsb).le
      linarith
    exact_mod_cast hcast
  · rw [not_negative_of_pos hb, Bool.bne_false] at hsign
    rw [mantissa_eq_zero_of_negative ha hsign, Nat.zero_mul]

/-- A part of a number up to seven is off by at most half a unit.  This is the division by a count,
as it shares a probability among outcomes. -/
theorem exists_divNat (ha : a.Within 7) {k : Nat} (hk : 0 < k) :
    ∃ d, a.divNat k = .ok d ∧ d.Approximates (a.value / k) := by
  have hma := mantissa_eq ha.nonneg
  have hsa := tenPow_cast_pos a.scale
  have hkpos : (0 : ℚ) < k := Nat.cast_pos.mpr hk
  have hquotient : a.value / k = (a.mantissa : ℚ) / (k * tenPow a.scale : Nat) := by
    push_cast
    rw [hma]
    field_simp
  rw [hquotient]
  refine exists_quotient (Nat.mul_pos hk (tenPow_pos _)) ?_ fun hsign => ?_
  · have hcast : (a.mantissa : ℚ) ≤ 7 * (tenPow a.scale : Nat) := by
      rw [hma]
      exact mul_le_mul_of_nonneg_right ha.le hsa.le
    calc a.mantissa ≤ 7 * tenPow a.scale := by exact_mod_cast hcast
      _ ≤ 7 * (k * tenPow a.scale) := Nat.mul_le_mul_left _ (Nat.le_mul_of_pos_left _ hk)
  · exact mantissa_eq_zero_of_negative ha.nonneg hsign

end Decimal

end Sokoban
