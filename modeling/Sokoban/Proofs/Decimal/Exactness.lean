import Sokoban.Proofs.Decimal.Overflow

/-! # Exact sums

A sum of decimals is rounded only if it is no decimal.  What is rounded is the sum with the places
of both numbers; if a decimal is equal to it, the digits that rounding takes away are zeros, and the
digits that stay fit (`exists_sum?_of_value`).

So a list whose running sums are decimals is added up without any rounding, and no other list is
(`runsExactly_iff`).  This is the assumption under which shares sum to one for weights of any size:
where a running sum is rounded, the total is not that of the weights, and the shares are those of
other weights.  `RunsExactly` speaks of the numbers alone, not of the addition, so it can be checked
without running it, or by running it, whichever is nearer at hand.
-/

namespace Sokoban

namespace Decimal

variable {a b c d total : Decimal} {ds : List Decimal} {num places kept more : Nat}

/-! ## One sum -/

/-- A number of which a decimal has more places than are kept is rounded to no longer a mantissa.
So if the decimal fits, the rounded number fits with these places too, and the search stops no
later. -/
theorem halfEven_le_mantissa (h : num * tenPow c.scale = c.mantissa * tenPow places)
    (hkept : kept ≤ c.scale) :
    Rounding.halfEven (num * tenPow kept) (tenPow places) ≤ c.mantissa := by
  refine Rounding.halfEven_le (tenPow_pos places) ?_
  rw [← h]
  exact Nat.mul_le_mul_left num (Nat.pow_le_pow_right (by decide) hkept)

/-- A number of which a decimal has no more places than are kept is not rounded: the division leaves
no remainder. -/
theorem halfEven_eq_mantissa (h : num * tenPow c.scale = c.mantissa * tenPow places) (more : Nat) :
    Rounding.halfEven (num * tenPow (c.scale + more)) (tenPow places) =
      c.mantissa * tenPow more := by
  have hzeros : num * tenPow (c.scale + more) = c.mantissa * tenPow more * tenPow places := by
    rw [tenPow_add, ← Nat.mul_assoc, h, Nat.mul_right_comm]
  rw [hzeros, Rounding.halfEven_mul (tenPow_pos places)]

/-- **A sum that is a decimal** is exact.  The decimal shows that at its own scale the sum fits and
has no remainder; the search takes at least that many places, and with more of them there is no
remainder either. -/
theorem exists_sum?_of_value (hc : c.value = a.value + b.value) (hnonneg : 0 ≤ c.value) :
    ∃ d, sum? a b = some d ∧ d.value = a.value + b.value := by
  have hscale : max a.scale b.scale ≤ 28 := max_le a.scale_le b.scale_le
  have hpos := tenPow_cast_pos (max a.scale b.scale)
  obtain ⟨num, heq, hsum⟩ := exists_sum?_eq (hc ▸ hnonneg)
  rw [← hc] at hsum
  rw [heq, ← hc]
  generalize max a.scale b.scale = places at hscale hsum hpos ⊢
  -- The two fractions are equal, multiplied out.
  have hcross : num * tenPow c.scale = c.mantissa * tenPow places := by
    have hcast : (num : ℚ) * tenPow c.scale = c.mantissa * tenPow places := by
      rw [hsum, mantissa_eq hnonneg, mul_right_comm]
    exact_mod_cast hcast
  cases hfit : fit? false num (tenPow places) places with
  | none =>
      have hlong := (fit?_eq_none_iff hscale).mp hfit
      have hshort := halfEven_le_mantissa hcross (Nat.zero_le c.scale)
      rw [tenPow_zero, Nat.mul_one] at hshort
      exact absurd c.mantissa_lt (Nat.not_lt.mpr (hlong.trans hshort))
  | some d =>
      refine ⟨d, rfl, ?_⟩
      obtain ⟨hneg, hmantissa, hmost⟩ := fit?_some hscale hfit
      have habs := abs_value_of_not_negative hneg
      rw [← habs, abs_value]
      rcases Nat.lt_or_ge d.scale c.scale with hmore | hfewer
      · -- Had places been given up, there would be room for one more of them.
        have hall : d.scale = places := hmost.resolve_right fun hlong =>
          Nat.not_lt.mpr (hlong.trans (halfEven_le_mantissa hcross hmore)) c.mantissa_lt
        rw [hall, Rounding.halfEven_mul (tenPow_pos places)] at hmantissa
        rw [hall, hmantissa, hsum, mul_div_cancel_right₀ _ hpos.ne']
      · obtain ⟨more, hsplit⟩ := Nat.exists_eq_add_of_le hfewer
        have hmore := (tenPow_cast_pos more).ne'
        rw [hsplit, halfEven_eq_mantissa hcross] at hmantissa
        rw [hmantissa, hsplit, tenPow_add, Nat.cast_mul, Nat.cast_mul,
          mul_div_mul_right _ _ hmore, ← abs_value, abs_of_nonneg hnonneg]

/-! ## Running sums -/

/-- Every running sum is a decimal.  Nothing is said of how the running sums are taken. -/
def RunsExactly (ds : List Decimal) : Prop :=
  ∀ first, first <+: ds → ∃ d : Decimal, d.value = exactSum first

/-- Adding numbers to a start is exact if each sum on the way is a decimal.  By induction on the
numbers, with the start as it is left by those before. -/
theorem exists_foldlM_add_of_value (ha : 0 ≤ a.value) (hds : ∀ d ∈ ds, 0 ≤ d.value)
    (h : ∀ first, first <+: ds → ∃ d : Decimal, d.value = a.value + exactSum first) :
    ∃ total, ds.foldlM add a = .ok total ∧ total.value = a.value + exactSum ds := by
  induction ds generalizing a with
  | nil => exact ⟨a, rfl, (add_zero _).symm⟩
  | cons b ds ih =>
      obtain ⟨hb, hrest⟩ := List.forall_mem_cons.mp hds
      obtain ⟨c, hc⟩ := h [b] (List.prefix_append [b] ds)
      rw [exactSum_cons, exactSum, List.map_nil, List.sum_nil, add_zero] at hc
      obtain ⟨d, hd, hvalue⟩ := exists_sum?_of_value hc (hc ▸ add_nonneg ha hb)
      obtain ⟨total, htotal, hexact⟩ := ih (hvalue ▸ add_nonneg ha hb) hrest fun first hfirst => by
        obtain ⟨e, he⟩ := h (b :: first) ((List.prefix_cons_inj b).mpr hfirst)
        exact ⟨e, by rw [he, exactSum_cons, hvalue, add_assoc]⟩
      refine ⟨total, foldlM_add_cons_iff.mpr ⟨d, hd, htotal⟩, ?_⟩
      rw [hexact, hvalue, exactSum_cons, add_assoc]

/-- **Running sums that are decimals** are exact, and so the total is.  It is the case of the lemma
before that starts from nought, which is a decimal. -/
theorem RunsExactly.exists_sum (h : RunsExactly ds) (hds : ∀ d ∈ ds, 0 ≤ d.value) :
    ∃ total, Decimal.sum ds = .ok total ∧ total.value = exactSum ds := by
  obtain ⟨total, htotal, hexact⟩ := exists_foldlM_add_of_value value_zero.ge hds fun first hfirst => by
    rw [value_zero, zero_add]
    exact h first hfirst
  exact ⟨total, htotal, by rw [hexact, value_zero, zero_add]⟩

/-- A decimal by itself is a running sum, so a single weight is always shared out. -/
theorem runsExactly_of_length_le (h : ds.length ≤ 1) : RunsExactly ds := by
  intro first hfirst
  match first, hfirst.length_le.trans h with
  | [], _ => exact ⟨zero, value_zero⟩
  | [d], _ => exact ⟨d, by simp [exactSum]⟩

/-- **Every running sum is a decimal** if and only if none is rounded and none overflows.  One
direction is the theorem above for each beginning of the list; for the other the running sums
themselves are the decimals. -/
theorem runsExactly_iff (hds : ∀ d ∈ ds, 0 ≤ d.value) :
    RunsExactly ds ↔ ∀ first, first <+: ds →
      ∃ total, Decimal.sum first = .ok total ∧ total.value = exactSum first := by
  constructor
  · intro h first hfirst
    have hbegin : RunsExactly first := fun part hpart => h part (hpart.trans hfirst)
    exact hbegin.exists_sum fun d hd => hds d (hfirst.subset hd)
  · intro h first hfirst
    obtain ⟨total, -, hexact⟩ := h first hfirst
    exact ⟨total, hexact⟩

end Decimal

end Sokoban
