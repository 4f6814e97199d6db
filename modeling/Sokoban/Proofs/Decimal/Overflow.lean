import Sokoban.Proofs.Decimal.Sums
import Sokoban.Proofs.Fallible

/-! # Sums that overflow

A sum overflows if it has more than 96 binary digits even when it is rounded to a whole number.
Rounding is half to even and `2 ^ 96` is even, so a sum that is not negative overflows from one half
below `2 ^ 96` on (`add_eq_error_iff`): at exactly one half below it is rounded up to the even
number, which is too large.

A running sum overflows at the first number that takes it there (`sum_eq_error_iff`).  It has to be
said of the running sums as they are, with what has been rounded on the way: for large numbers the
sum that overflows need not be the exact one.  `OverflowsFrom` therefore speaks of the total that
the addition itself has come to.
-/

namespace Sokoban

namespace Rounding

variable {num more den n : Nat}

/-- A larger numerator is rounded to no smaller a number.  So if the mantissa fits at some place, it
fits with fewer places too. -/
theorem halfEven_mono (h : num ≤ more) : halfEven num den ≤ halfEven more den := by
  have hquotient : num / den ≤ more / den := Nat.div_le_div_right h
  rcases Nat.eq_or_lt_of_le hquotient with heq | hlt
  · -- The same whole part, so the larger rest is rounded up where the smaller one is.
    have hsplit := Nat.div_add_mod num den
    have hsplit' := Nat.div_add_mod more den
    rw [heq] at hsplit
    unfold halfEven
    simp only
    rw [heq]
    split <;> split <;> omega
  · unfold halfEven
    simp only
    split <;> split <;> omega

/-- A quotient is rounded to an even number, or beyond it, from one half below it on.  For an odd
number the half itself would be rounded down. -/
theorem le_halfEven_iff (hden : 0 < den) (heven : n % 2 = 0) :
    n ≤ halfEven num den ↔ 2 * n * den ≤ 2 * num + den := by
  constructor
  · intro h
    calc 2 * n * den ≤ 2 * halfEven num den * den := by gcongr
      _ ≤ 2 * num + den := halfEven_mul_le num hden
  · intro h
    have hsplit := Nat.div_add_mod num den
    have hrest := Nat.mod_lt num hden
    have hnext : n ≤ num / den + 1 := by
      have hbelow : 2 * n * den < (2 * (num / den) + 3) * den := by linarith
      have hlt := Nat.lt_of_mul_lt_mul_right hbelow
      omega
    unfold halfEven
    simp only
    split
    next hdown =>
      -- Half way and below, rounding up would give an odd number.
      by_contra hlt
      obtain rfl : n = num / den + 1 := by omega
      have hhalf : den ≤ 2 * (num % den) := by linarith
      omega
    next => exact hnext

end Rounding

namespace Decimal

variable {a b d total : Decimal} {ds : List Decimal} {negative : Bool} {num den places : Nat}
  {fault : Fault}

/-- A mantissa does not fit exactly if it has more than 96 binary digits; the places are never the
reason. -/
theorem ofParts?_eq_none_iff {m : Nat} (hplaces : places ≤ 28) :
    ofParts? negative m places = none ↔ twoPow 96 ≤ m := by
  simp [ofParts?, hplaces]

/-- Nothing fits if the whole part does not.  The search gives up one place after the other, so it
fails only when it fails without any. -/
theorem fit?_eq_none_iff (hplaces : places ≤ 28) :
    fit? negative num den places = none ↔ twoPow 96 ≤ Rounding.halfEven num den := by
  induction places with
  | zero => exact ofParts?_eq_none_iff hplaces
  | succ places ih =>
      rw [fit?, Option.orElse_eq_or, Option.or_eq_none_iff, ofParts?_eq_none_iff hplaces, ih (by omega)]
      have hmore : num ≤ num * tenPow (places + 1) := Nat.le_mul_of_pos_right num (tenPow_pos _)
      exact ⟨fun h => h.2, fun h => ⟨h.trans (Rounding.halfEven_mono hmore), h⟩⟩

/-- The least number that is rounded to one with more than 96 binary digits.  It is not a decimal
itself. -/
def limit : ℚ :=
  2 ^ 96 - 1 / 2

/-- A sum that is not negative fits nowhere exactly if it is at the limit or above it.  What is
asked is whether its whole part, rounded, has more than 96 binary digits, and `2 ^ 96` is even. -/
theorem sum?_eq_none_iff (hnonneg : 0 ≤ a.value + b.value) :
    sum? a b = none ↔ limit ≤ a.value + b.value := by
  have hscale : max a.scale b.scale ≤ 28 := max_le a.scale_le b.scale_le
  have hpos := tenPow_cast_pos (max a.scale b.scale)
  have heven : twoPow 96 % 2 = 0 := by decide
  have htwo : (twoPow 96 : ℚ) = 2 ^ 96 := by norm_num [twoPow]
  obtain ⟨num, heq, hsum⟩ := exists_sum?_eq hnonneg
  rw [heq, fit?_eq_none_iff hscale, Rounding.le_halfEven_iff (tenPow_pos _) heven,
    ← @Nat.cast_le ℚ]
  push_cast
  rw [hsum, htwo, limit]
  constructor
  · intro h
    refine le_of_mul_le_mul_right ?_ hpos
    linarith
  · intro h
    have hscaled := mul_le_mul_of_nonneg_right h hpos.le
    linarith

/-- **A sum** that is not negative overflows from one half below `2 ^ 96` on, and addition fails in
no other way. -/
theorem add_eq_error_iff (hnonneg : 0 ≤ a.value + b.value) :
    a.add b = .error fault ↔ fault = .additionOverflow ∧ limit ≤ a.value + b.value := by
  rw [← sum?_eq_none_iff hnonneg, add]
  cases sum? a b <;> simp [eq_comm]

/-- A sum fails in no other way: addition names one fault, whatever its operands and their signs
are. -/
theorem eq_additionOverflow_of_add (h : a.add b = .error fault) : fault = .additionOverflow := by
  rw [add] at h
  cases hsum : sum? a b with
  | none =>
      rw [hsum] at h
      exact (Except.error.inj h).symm
  | some d =>
      rw [hsum] at h
      cases h

/-! ## Running sums -/

/-- Adding up the numbers from a start comes to a number that overflows: those before it have been
added to `total`, and with the next the limit is reached. -/
def OverflowsFrom (a : Decimal) (ds : List Decimal) : Prop :=
  ∃ first d later total, ds = first ++ d :: later ∧ first.foldlM add a = .ok total ∧
    limit ≤ total.value + d.value

/-- The first number overflows, or it can be added and one of the others overflows behind it.  This
is the recursion of the addition, so the theorem below goes by induction. -/
theorem overflowsFrom_cons_iff {b : Decimal} : OverflowsFrom a (b :: ds) ↔
    limit ≤ a.value + b.value ∨ ∃ c, a.add b = .ok c ∧ OverflowsFrom c ds := by
  constructor
  · rintro ⟨first, d, later, total, hsplit, htotal, hlimit⟩
    cases first with
    | nil =>
        obtain ⟨rfl, rfl⟩ := List.cons.inj hsplit
        obtain rfl : a = total := Except.ok.inj htotal
        exact .inl hlimit
    | cons next first =>
        obtain ⟨rfl, rfl⟩ := List.cons.inj hsplit
        rw [List.foldlM_cons, bind_eq_ok_iff] at htotal
        obtain ⟨c, hc, htotal⟩ := htotal
        exact .inr ⟨c, hc, first, d, later, total, rfl, htotal, hlimit⟩
  · rintro (hlimit | ⟨c, hc, first, d, later, total, rfl, htotal, hlimit⟩)
    · exact ⟨[], b, ds, a, rfl, rfl, hlimit⟩
    · refine ⟨b :: first, d, later, total, rfl, ?_, hlimit⟩
      rw [List.foldlM_cons, hc]
      exact htotal

/-- Adding numbers to a start fails exactly if one of the running sums overflows.  What has been
added so far is not negative, which is all that the criterion for one sum asks. -/
theorem foldlM_add_eq_error_iff (ha : 0 ≤ a.value) (hds : ∀ d ∈ ds, 0 ≤ d.value) :
    ds.foldlM add a = .error fault ↔ fault = .additionOverflow ∧ OverflowsFrom a ds := by
  induction ds generalizing a with
  | nil => simp [OverflowsFrom, pure, Except.pure]
  | cons b ds ih =>
      obtain ⟨hb, hrest⟩ := List.forall_mem_cons.mp hds
      rw [List.foldlM_cons, bind_eq_error_iff, add_eq_error_iff (add_nonneg ha hb),
        overflowsFrom_cons_iff, and_or_left]
      refine or_congr_right ?_
      constructor
      · rintro ⟨c, hc, hfault⟩
        have hc0 := (le_of_sum? (add_eq_ok_iff.mp hc) ha hb).1
        obtain ⟨rfl, hlater⟩ := (ih hc0 hrest).mp hfault
        exact ⟨rfl, c, hc, hlater⟩
      · rintro ⟨rfl, c, hc, hlater⟩
        have hc0 := (le_of_sum? (add_eq_ok_iff.mp hc) ha hb).1
        exact ⟨c, hc, (ih hc0 hrest).mpr ⟨rfl, hlater⟩⟩

/-- Adding up the numbers from nought comes to a number that overflows. -/
def Overflows (ds : List Decimal) : Prop :=
  OverflowsFrom zero ds

/-- **A running sum** of numbers that are not negative overflows at the first of them that takes it
to the limit, and fails in no other way. -/
theorem sum_eq_error_iff (hds : ∀ d ∈ ds, 0 ≤ d.value) :
    Decimal.sum ds = .error fault ↔ fault = .additionOverflow ∧ Overflows ds :=
  foldlM_add_eq_error_iff value_zero.ge hds

end Decimal

end Sokoban
