import Mathlib.Algebra.BigOperators.Group.List.Basic
import Mathlib.Algebra.Order.BigOperators.Group.List
import Sokoban.Proofs.Decimal.Range
import Sokoban.Proofs.Fallible

/-! # Sums of decimals

Sums are taken by adding one decimal after the other, so each running sum is a decimal and is
rounded if it has too many digits.  Up to seven there is room for all 28 places: sums and
differences are exact (`exists_sum?`, `exists_sub`), and so are running sums of numbers that are not
negative (`exists_sum`), since no running sum is larger than the total.

A sum that gives up places is rounded.  Its mantissa then is nearly as long as can be
(`sum?_cases`), from which two things follow.  Rounding does not take the sum below the numbers
added up (`le_of_sum?`), because they would be rounded to the same mantissa; and what it takes away
or adds is less than a unit of the sum's own size (`sum?_near`).

Both carry over to running sums by induction on the list.  No number is larger than a total that it
is part of (`le_of_sum`), so dividing by the total overflows nowhere, and a total is off by at most
a few units of its own size, one for each number added (`sum_near`).  In particular a total is
nought only if all numbers are (`sum_eq_zero_iff`).
-/

namespace Sokoban.Decimal

variable {a b c d total : Decimal} {ds : List Decimal}

/-- The decimal from which sums start stands for nought. -/
theorem value_zero : zero.value = 0 := by
  simp [value, zero]

theorem value_one : one.value = 1 := by
  simp [value, one]

/-- Nought is within every bound. -/
theorem within_zero (n : Nat) : zero.Within n :=
  ⟨value_zero.ge, value_zero.le.trans (Nat.cast_nonneg n)⟩

/-- A minus more or less changes the sign of the number.  Differences are sums with such a minus. -/
theorem value_neg (d : Decimal) : d.neg.value = -d.value := by
  rw [value, value, neg]
  cases d.negative <;> simp [neg_div]

/-- Shifted to the larger of their scales, decimals can be added as whole numbers, and what comes
out is their sum counted in the last place of that scale.  All rounding happens after this. -/
theorem sum_eq (a b : Decimal) :
    ((a.shifted (max a.scale b.scale) + b.shifted (max a.scale b.scale) : Int) : ℚ) =
      (a.value + b.value) * tenPow (max a.scale b.scale) := by
  rw [Int.cast_add, shifted_eq (le_max_left ..), shifted_eq (le_max_right ..), add_mul]

/-- A sum that is not negative is the rounding of a natural number of last places.  Differences are
taken by adding a negative number, and this is where they and sums part. -/
theorem exists_sum?_eq (hnonneg : 0 ≤ a.value + b.value) :
    ∃ num : Nat,
      sum? a b = fit? false num (tenPow (max a.scale b.scale)) (max a.scale b.scale) ∧
        (num : ℚ) = (a.value + b.value) * tenPow (max a.scale b.scale) := by
  have hsum := sum_eq a b
  unfold sum?
  simp only
  generalize max a.scale b.scale = places at hsum ⊢
  generalize a.shifted places + b.shifted places = total at hsum ⊢
  have htotal : 0 ≤ total := by
    have hcast : (0 : ℚ) ≤ total := hsum ▸ mul_nonneg hnonneg (tenPow_cast_pos places).le
    exact_mod_cast hcast
  obtain ⟨num, rfl⟩ := Int.eq_ofNat_of_zero_le htotal
  have hsign : ¬(num : Int) < 0 := not_lt.mpr htotal
  refine ⟨num, ?_, by rwa [Int.cast_natCast] at hsum⟩
  rw [Int.natAbs_natCast, decide_eq_false hsign]

/-- Addition comes to a decimal exactly if the rounded sum fits. -/
theorem add_eq_ok_iff : a.add b = .ok d ↔ sum? a b = some d := by
  rw [add]
  cases sum? a b <;> simp

/-- Numbers are added up by adding the first of them to the start, and the others to what this comes
to.  It is the step of every induction over a running sum. -/
theorem foldlM_add_cons_iff :
    (b :: ds).foldlM add a = .ok total ↔ ∃ c, sum? a b = some c ∧ ds.foldlM add c = .ok total := by
  rw [List.foldlM_cons, bind_eq_ok_iff]
  simp only [add_eq_ok_iff]

/-- The sum of a list, without rounding.  What is proved of running sums compares them with this. -/
def exactSum (ds : List Decimal) : ℚ :=
  (ds.map value).sum

/-- The exact sum of a list begins with its first number. -/
theorem exactSum_cons (d : Decimal) (ds : List Decimal) :
    exactSum (d :: ds) = d.value + exactSum ds := by
  rw [exactSum, List.map_cons, List.sum_cons, exactSum]

theorem exactSum_append (ds es : List Decimal) :
    exactSum (ds ++ es) = exactSum ds + exactSum es := by
  rw [exactSum, List.map_append, List.sum_append, exactSum, exactSum]

/-- Numbers that are not negative have a sum that is not negative. -/
theorem exactSum_nonneg (hds : ∀ d ∈ ds, 0 ≤ d.value) : 0 ≤ exactSum ds :=
  List.sum_nonneg (by simpa using hds)

/-- No number is larger than an exact sum that it is part of, if none is negative. -/
theorem le_exactSum (hds : ∀ d ∈ ds, 0 ≤ d.value) (hd : d ∈ ds) : d.value ≤ exactSum ds :=
  List.single_le_sum (by simpa using hds) _ (List.mem_map_of_mem hd)

/-- Numbers that are not negative cannot cancel, so their sum is nought only of noughts. -/
theorem exactSum_eq_zero_iff (hds : ∀ d ∈ ds, 0 ≤ d.value) :
    exactSum ds = 0 ↔ ∀ d ∈ ds, d.value = 0 := by
  constructor
  · intro h d hd
    exact le_antisymm (h ▸ le_exactSum hds hd) (hds d hd)
  · intro h
    exact List.sum_eq_zero (by simpa using h)

/-- Numbers up to one have a sum up to their count.  A probability map has four of them, and four is
below seven. -/
theorem exactSum_le_length (hds : ∀ d ∈ ds, d.Within 1) : exactSum ds ≤ ds.length := by
  have hle := List.sum_le_card_nsmul (ds.map value) 1 (by simpa using fun d hd => (hds d hd).le)
  simpa [exactSum] using hle

/-! ## Exact sums -/

/-- **A sum up to seven** is exact.  The sum of the shifted mantissas has at most 28 places, and
with the bound it has no more than 96 binary digits at any of them. -/
theorem exists_sum? (h : |a.value + b.value| ≤ 7) :
    ∃ d, sum? a b = some d ∧ d.value = a.value + b.value := by
  have hscale : max a.scale b.scale ≤ 28 := max_le a.scale_le b.scale_le
  have hsum := sum_eq a b
  have hpos := tenPow_cast_pos (max a.scale b.scale)
  unfold sum?
  simp only
  generalize max a.scale b.scale = places at hscale hsum hpos ⊢
  generalize a.shifted places + b.shifted places = total at hsum ⊢
  have hshort : total.natAbs < twoPow 96 := by
    have hcast : (total.natAbs : ℚ) ≤ 7 * tenPow places := by
      rw [Nat.cast_natAbs, Int.cast_abs, hsum, abs_mul, abs_of_pos hpos]
      exact mul_le_mul_of_nonneg_right h hpos.le
    exact lt_of_le_of_lt (by exact_mod_cast hcast) (seven_mul_lt hscale)
  obtain ⟨d, hd, hneg, hmantissa, hplaces⟩ :
      ∃ d, fit? (total < 0) total.natAbs (tenPow places) places = some d ∧ _ :=
    fit?_of_lt hscale (by rwa [Rounding.halfEven_mul (tenPow_pos places)])
  rw [Rounding.halfEven_mul (tenPow_pos places)] at hmantissa
  refine ⟨d, hd, ?_⟩
  have hsigned : (if d.negative then -(d.mantissa : ℚ) else d.mantissa) = total := by
    rw [hneg, hmantissa, Nat.cast_natAbs, Int.cast_abs]
    by_cases hless : total < 0
    · simp [hless, abs_of_neg (show (total : ℚ) < 0 by exact_mod_cast hless)]
    · simp [hless, abs_of_nonneg (show (0 : ℚ) ≤ total by exact_mod_cast not_lt.mp hless)]
  rw [value, hsigned, hplaces, hsum, mul_div_cancel_right₀ _ hpos.ne']

/-- **A difference up to seven** is exact.  It is the sum with a number of the other sign, and the
bound is on the absolute value. -/
theorem exists_sub (h : |a.value - b.value| ≤ 7) :
    ∃ d, a.sub b = .ok d ∧ d.value = a.value - b.value := by
  have habs : |a.value + b.neg.value| ≤ 7 := by rwa [value_neg, ← sub_eq_add_neg]
  obtain ⟨d, hd, hvalue⟩ := exists_sum? habs
  exact ⟨d, by rw [sub, hd]; rfl, by rw [hvalue, value_neg, sub_eq_add_neg]⟩

/-- Adding numbers to a start is exact as long as the whole sum is up to seven.  The induction needs
the start, for it is what each step leaves to the next. -/
theorem exists_foldlM_add (ha : 0 ≤ a.value) (hds : ∀ d ∈ ds, 0 ≤ d.value)
    (hroom : a.value + exactSum ds ≤ 7) :
    ∃ total, ds.foldlM add a = .ok total ∧ total.value = a.value + exactSum ds := by
  induction ds generalizing a with
  | nil => exact ⟨a, rfl, (add_zero _).symm⟩
  | cons b ds ih =>
      have hb := hds b List.mem_cons_self
      have hrest : ∀ d ∈ ds, 0 ≤ d.value := fun d hd => hds d (List.mem_cons_of_mem b hd)
      have hnonneg := exactSum_nonneg hrest
      rw [exactSum_cons] at hroom ⊢
      obtain ⟨c, hc, hvalue⟩ := exists_sum? (a := a) (b := b) (by
        rw [abs_of_nonneg (add_nonneg ha hb)]
        linarith)
      obtain ⟨total, htotal, hexact⟩ := ih (hvalue ▸ add_nonneg ha hb) hrest (by linarith)
      exact ⟨total, foldlM_add_cons_iff.mpr ⟨c, hc, htotal⟩, by rw [hexact, hvalue, add_assoc]⟩

/-- **Running sums up to seven** are exact: the case of `exists_foldlM_add` that starts from nought.
-/
theorem exists_sum (hds : ∀ d ∈ ds, 0 ≤ d.value) (hroom : exactSum ds ≤ 7) :
    ∃ total, Decimal.sum ds = .ok total ∧ total.value = exactSum ds := by
  obtain ⟨total, htotal, hexact⟩ :=
    exists_foldlM_add value_zero.ge hds (by rwa [value_zero, zero_add])
  exact ⟨total, htotal, by rw [hexact, value_zero, zero_add]⟩

/-! ## Rounded sums -/

/-- A sum that is not negative is exact, or rounded to nearly as many digits as a decimal can hold.
There is nothing between the two, because places are only given up when the mantissa would be too
long with them. -/
theorem sum?_cases (h : sum? a b = some d) (hnonneg : 0 ≤ a.value + b.value) :
    0 ≤ d.value ∧ (d.value = a.value + b.value ∨ twoPow 96 ≤ 10 * d.mantissa ∧
      |(d.mantissa : ℚ) - (a.value + b.value) * tenPow d.scale| ≤ 1 / 2) := by
  have hscale : max a.scale b.scale ≤ 28 := max_le a.scale_le b.scale_le
  have hpos := tenPow_cast_pos (max a.scale b.scale)
  obtain ⟨num, heq, hsum⟩ := exists_sum?_eq hnonneg
  rw [heq] at h
  generalize max a.scale b.scale = places at h hscale hsum hpos
  obtain ⟨hneg, hmantissa, hmost⟩ := fit?_some hscale h
  have habs := abs_value_of_not_negative hneg
  have hd : 0 ≤ d.value := habs ▸ abs_nonneg _
  refine ⟨hd, ?_⟩
  rcases hmost with hall | hlong
  · -- With all places the sum is exact.
    left
    rw [hall, Rounding.halfEven_mul (tenPow_pos places)] at hmantissa
    rw [← habs, abs_value, hall, hmantissa, hsum, mul_div_cancel_right₀ _ hpos.ne']
  · right
    refine ⟨le_mantissa_of_long (tenPow_pos places) hmantissa hlong, ?_⟩
    have hnear := Rounding.abs_halfEven_sub_le (num * tenPow d.scale) (tenPow_pos places)
    rwa [← hmantissa, Nat.cast_mul, hsum, mul_right_comm, mul_div_cancel_right₀ _ hpos.ne'] at hnear

/-- Rounding at a long mantissa does not go below another decimal: one that is at most half a place
above the rounded mantissa has no more digits than fit, so it is not above it at all. -/
theorem le_of_long (hd : 0 ≤ d.value) (hlong : twoPow 96 ≤ 10 * d.mantissa)
    (hc : c.value * tenPow d.scale ≤ d.mantissa + 1 / 2) : c.value ≤ d.value := by
  have hpos := tenPow_cast_pos d.scale
  refine le_of_mul_le_mul_right ?_ hpos
  rw [← mantissa_eq hd]
  rcases Nat.lt_or_ge d.scale c.scale with hmore | hfewer
  · -- A decimal with more places has too short a mantissa to be larger.
    obtain ⟨more, hscale⟩ := Nat.exists_eq_add_of_lt hmore
    have hten : (10 : ℚ) * tenPow d.scale ≤ tenPow c.scale := by
      rw [hscale, Nat.add_assoc, tenPow_add, tenPow_succ]
      have hone : 1 ≤ tenPow more := tenPow_pos more
      push_cast
      have hcast : (1 : ℚ) ≤ tenPow more := by exact_mod_cast hone
      nlinarith
    have hshort : (c.mantissa : ℚ) ≤ 10 * d.mantissa := by
      exact_mod_cast (c.mantissa_lt.trans_le hlong).le
    calc c.value * tenPow d.scale ≤ |c.value| * tenPow d.scale := by gcongr; exact le_abs_self _
      _ = c.mantissa * tenPow d.scale / tenPow c.scale := by rw [abs_value, div_mul_eq_mul_div]
      _ ≤ d.mantissa := by
        rw [div_le_iff₀ (tenPow_cast_pos c.scale)]
        nlinarith [(Nat.cast_nonneg d.mantissa : (0 : ℚ) ≤ d.mantissa)]
  · -- With no more places it is a whole number at the scale, and rounding respects those.
    rw [← shifted_eq hfewer] at hc ⊢
    have hlt : (c.shifted d.scale : ℚ) < d.mantissa + 1 := by linarith
    have hle : c.shifted d.scale ≤ d.mantissa := Int.lt_add_one_iff.mp (by exact_mod_cast hlt)
    exact_mod_cast hle

/-- **A rounded sum** is not below what is added.  Half to even would round a number that just fits
to itself, and the sum is at least that number. -/
theorem le_of_sum? (h : sum? a b = some d) (ha : 0 ≤ a.value) (hb : 0 ≤ b.value) :
    0 ≤ d.value ∧ a.value ≤ d.value ∧ b.value ≤ d.value := by
  obtain ⟨hd, hexact | ⟨hlong, hnear⟩⟩ := sum?_cases h (add_nonneg ha hb)
  · rw [hexact]
    exact ⟨add_nonneg ha hb, le_add_of_nonneg_right hb, le_add_of_nonneg_left ha⟩
  · have hpos := tenPow_cast_pos d.scale
    have hround := (abs_le.mp hnear).1
    have ha' := mul_nonneg ha hpos.le
    have hb' := mul_nonneg hb hpos.le
    exact ⟨hd, le_of_long hd hlong (by linarith), le_of_long hd hlong (by linarith)⟩

/-- **A rounded sum** is off by less than a unit of its own size, on both sides.  The mantissa is at
least a tenth of `2 ^ 96`, and half a place of it is less than a unit in `10 ^ 28`. -/
theorem sum?_near (h : sum? a b = some d) (hnonneg : 0 ≤ a.value + b.value) :
    a.value + b.value ≤ (1 + unit) * d.value ∧ d.value ≤ (1 + unit) * (a.value + b.value) := by
  obtain ⟨hd, hexact | ⟨hlong, hnear⟩⟩ := sum?_cases h hnonneg
  · have hmore := mul_nonneg unit_pos.le hnonneg
    rw [hexact]
    constructor <;> linarith
  · have hpos := tenPow_cast_pos d.scale
    obtain ⟨hlow, hhigh⟩ := abs_le.mp hnear
    -- The mantissa is so long that one half of its last digit is less than a unit of it.
    have hmantissa : (tenPow 28 : ℚ) + 1 ≤ 2 * d.mantissa := by
      have hten : tenPow 28 + 1 ≤ 2 * d.mantissa := by
        have hroom : 5 * tenPow 28 + 5 ≤ twoPow 96 := by decide
        omega
      exact_mod_cast hten
    have hunit : ∀ x : ℚ, (tenPow 28 : ℚ) ≤ 2 * x → 1 / 2 ≤ unit * x := by
      intro x hx
      have hscaled := mul_le_mul_of_nonneg_left hx unit_pos.le
      rw [unit_mul_tenPow] at hscaled
      linarith
    have hdown := hunit d.mantissa (by linarith)
    have hup := hunit ((a.value + b.value) * tenPow d.scale) (by linarith)
    constructor <;>
    · refine le_of_mul_le_mul_right ?_ hpos
      rw [mul_assoc, ← mantissa_eq hd]
      linarith

/-! ## Rounded totals -/

/-- Neither the start nor any number that is added to it is larger than what they come to.  By
induction on the numbers: each step is not below its own start, so what has been passed stays below.
-/
theorem le_of_foldlM_add (hds : ∀ d ∈ ds, 0 ≤ d.value) (ha : 0 ≤ a.value)
    (h : ds.foldlM add a = .ok total) :
    ∀ d ∈ a :: ds, 0 ≤ total.value ∧ d.value ≤ total.value := by
  induction ds generalizing a with
  | nil =>
      obtain rfl : a = total := Except.ok.inj h
      simpa using ha
  | cons b ds ih =>
      obtain ⟨c, hsum, hlater⟩ := foldlM_add_cons_iff.mp h
      obtain ⟨hb, hrest⟩ := List.forall_mem_cons.mp hds
      obtain ⟨hc, hac, hbc⟩ := le_of_sum? hsum ha hb
      have hle := ih hrest hc hlater
      obtain ⟨htotal, hct⟩ := hle c List.mem_cons_self
      intro d hd
      rcases List.mem_cons.mp hd with rfl | hd
      · exact ⟨htotal, hac.trans hct⟩
      · rcases List.mem_cons.mp hd with rfl | hd
        · exact ⟨htotal, hbc.trans hct⟩
        · exact hle d (List.mem_cons_of_mem c hd)

/-- **A rounded total** is not below any of the numbers that it adds up.  Hence no quotient by the
total is above one. -/
theorem le_of_sum (hds : ∀ d ∈ ds, 0 ≤ d.value) (h : Decimal.sum ds = .ok total) :
    0 ≤ total.value ∧ ∀ d ∈ ds, d.value ≤ total.value := by
  have hle := le_of_foldlM_add hds value_zero.ge h
  exact ⟨(hle zero List.mem_cons_self).1, fun d hd => (hle d (List.mem_cons_of_mem _ hd)).2⟩

/-- What adding numbers up comes to is off by a unit of its own size for each of them.  The factors
of the steps are multiplied, which is where the power comes from. -/
theorem foldlM_add_near (hds : ∀ d ∈ ds, 0 ≤ d.value) (ha : 0 ≤ a.value)
    (h : ds.foldlM add a = .ok total) :
    a.value + exactSum ds ≤ (1 + unit) ^ ds.length * total.value ∧
      total.value ≤ (1 + unit) ^ ds.length * (a.value + exactSum ds) := by
  induction ds generalizing a with
  | nil =>
      obtain rfl : a = total := Except.ok.inj h
      simp [exactSum]
  | cons b ds ih =>
      obtain ⟨c, hsum, hlater⟩ := foldlM_add_cons_iff.mp h
      obtain ⟨hb, hrest⟩ := List.forall_mem_cons.mp hds
      obtain ⟨hlow, hhigh⟩ := sum?_near hsum (add_nonneg ha hb)
      obtain ⟨hlow', hhigh'⟩ := ih hrest (le_of_sum? hsum ha hb).1 hlater
      have hnonneg := mul_nonneg unit_pos.le (exactSum_nonneg hrest)
      have hone : 0 ≤ 1 + unit := add_nonneg zero_le_one unit_pos.le
      rw [exactSum_cons, ← add_assoc, List.length_cons]
      constructor
      · calc a.value + b.value + exactSum ds
            ≤ (1 + unit) * (c.value + exactSum ds) := by linarith
          _ ≤ (1 + unit) * ((1 + unit) ^ ds.length * total.value) :=
              mul_le_mul_of_nonneg_left hlow' hone
          _ = (1 + unit) ^ (ds.length + 1) * total.value := by rw [← mul_assoc, ← pow_succ']
      · calc total.value
            ≤ (1 + unit) ^ ds.length * (c.value + exactSum ds) := hhigh'
          _ ≤ (1 + unit) ^ ds.length * ((1 + unit) * (a.value + b.value + exactSum ds)) :=
              mul_le_mul_of_nonneg_left (by linarith) (pow_nonneg hone _)
          _ = (1 + unit) ^ (ds.length + 1) * (a.value + b.value + exactSum ds) := by
              rw [← mul_assoc, ← pow_succ]

/-- **A rounded total** is off by at most a few units of its own size, however large the numbers
are. -/
theorem sum_near (hds : ∀ d ∈ ds, 0 ≤ d.value) (h : Decimal.sum ds = .ok total) :
    exactSum ds ≤ (1 + unit) ^ ds.length * total.value ∧
      total.value ≤ (1 + unit) ^ ds.length * exactSum ds := by
  have hnear := foldlM_add_near hds value_zero.ge h
  rwa [value_zero, zero_add] at hnear

/-- A rounded total is nought only of noughts.  Rounding could not make a nought of something else,
for the total is not below any of the numbers. -/
theorem sum_eq_zero_iff (hds : ∀ d ∈ ds, 0 ≤ d.value) (h : Decimal.sum ds = .ok total) :
    total.value = 0 ↔ ∀ d ∈ ds, d.value = 0 := by
  obtain ⟨hlow, hhigh⟩ := sum_near hds h
  rw [← exactSum_eq_zero_iff hds]
  constructor
  · intro hzero
    rw [hzero, mul_zero] at hlow
    exact le_antisymm hlow (exactSum_nonneg hds)
  · intro hzero
    rw [hzero, mul_zero] at hhigh
    exact le_antisymm hhigh (le_of_sum hds h).1

end Sokoban.Decimal
