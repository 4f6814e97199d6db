import Sokoban.Probability
import Sokoban.Proofs.Decimal.Sums
import Sokoban.Proofs.Fallible

/-! # Shares

Weights are divided into shares by their total.  All shares but the last are rounded quotients; the
last one makes up for the others, and so the shares sum to exactly one.  `AreShares` says this.
Weights with an exact total have such shares (`exists_shares_of_sum`), and moderate weights have an
exact total (`exists_shares`).

The last share takes on the rounding of all others.  It can be off by half a unit for each of them
(`AreShares.abs_last_sub_le`).  Behind at most two others it does not fall below nought
(`AreShares.nonneg`): it is a whole multiple of the unit.  Behind more of them a small weight
may end up with a share below nought; weights of a few units are large enough for up to eight
others (`AreShares.pos`).
-/

namespace Sokoban

open Decimal (unit unit_pos exactSum exactSum_append)

variable {ds init others shares : List Decimal} {w last total : Decimal}

/-- Shares are quotients by the total, but for the last one, which makes up for the others.  This
lists what the function does, each step with its result, so that proofs need not unfold it. -/
theorem exactShares_eq_some_iff :
    exactShares ds = .ok (some shares) ↔
      ∃ total quotients covered last, Decimal.sum ds = .ok total ∧ ¬ total.isZero ∧
        ds.mapM (·.div total) = .ok quotients ∧ Decimal.sum quotients.dropLast = .ok covered ∧
        Decimal.one.sub covered = .ok last ∧ quotients.dropLast ++ [last] = shares := by
  rw [exactShares, bind_eq_ok_iff]
  refine exists_congr fun total => ?_
  by_cases hnone : total.isZero
  · simp [hnone, pure_eq_ok_iff]
  · simp [hnone, bind_eq_ok_iff, pure_eq_ok_iff, -bind_pure_comp]

/-- Only of some weights can there be shares: without weights the total is nought. -/
theorem ne_nil_of_exactShares (h : exactShares ds = .ok (some shares)) : ds ≠ [] ∧ shares ≠ [] := by
  obtain ⟨total, quotients, covered, last, hsum, hpos, -, -, -, rfl⟩ := exactShares_eq_some_iff.mp h
  refine ⟨?_, by simp⟩
  rintro rfl
  obtain rfl := Except.ok.inj hsum
  exact hpos rfl

/-- The shares of weights, the last weight and the last share apart.  The last share is not a
quotient; all that is known of it is that it makes the sum one. -/
structure AreShares (init : List Decimal) (w : Decimal) (others : List Decimal) (last : Decimal) :
    Prop where
  near : List.Forall₂ (fun d q => q.Approximates (d.value / exactSum (init ++ [w]))) init others
  sum_eq : exactSum (others ++ [last]) = 1

/-- Rounded quotients by one number have a sum that is off by at most half a unit for each.  By
induction on the pairs of weights and quotients. -/
theorem abs_exactSum_sub_le {t : ℚ}
    (h : List.Forall₂ (fun d q => q.Approximates (d.value / t)) ds others) :
    |exactSum others - exactSum ds / t| ≤ ds.length * (unit / 2) := by
  induction h with
  | nil => simp [exactSum]
  | cons hq _ ih =>
      rw [Decimal.exactSum_cons, Decimal.exactSum_cons, add_div, List.length_cons]
      push_cast
      rw [abs_le] at ih ⊢
      constructor <;> linarith [hq.le, hq.ge]

/-- The upper half of this bound, which limits what the others take from the last share. -/
theorem exactSum_le_of_near {t : ℚ}
    (h : List.Forall₂ (fun d q => q.Approximates (d.value / t)) ds others) :
    exactSum others ≤ exactSum ds / t + ds.length * (unit / 2) := by
  linarith [(abs_le.mp (abs_exactSum_sub_le h)).2]

/-- Some weights above nought have a total above nought.  There is at least one of them, the last.
-/
theorem exactSum_pos (hpos : ∀ d ∈ init ++ [w], 0 < d.value) : 0 < exactSum (init ++ [w]) := by
  have hw : w ∈ init ++ [w] := List.mem_append_right _ (List.mem_singleton_self w)
  exact (hpos w hw).trans_le (Decimal.le_exactSum (fun d hd => (hpos d hd).le) hw)

/-- The total is that of the weights in front and the last weight. -/
theorem exactSum_concat (init : List Decimal) (w : Decimal) :
    exactSum (init ++ [w]) = exactSum init + w.value := by
  rw [exactSum_append, Decimal.exactSum_cons]
  simp [exactSum]

/-- **Weights with an exact total** above nought have shares that sum to exactly one.  The quotients
can be taken because no weight is larger than the total; they add up to little more than one, with
fewer than `10 ^ 27` roundings by half a unit, so their sum and the difference to one are exact. -/
theorem exists_shares_of_sum (hds : ∀ d ∈ init ++ [w], 0 ≤ d.value)
    (hsum : Decimal.sum (init ++ [w]) = .ok total) (hexact : total.value = exactSum (init ++ [w]))
    (hsome : 0 < total.value) (hfew : init.length ≤ 10 ^ 27) :
    ∃ others last, exactShares (init ++ [w]) = .ok (some (others ++ [last])) ∧
      AreShares init w others last := by
  have hdiv : ∀ d ∈ init ++ [w],
      ∃ q, d.div total = .ok q ∧ q.Approximates (d.value / exactSum (init ++ [w])) := by
    intro d hd
    rw [← hexact]
    have hle : d.value ≤ total.value := hexact ▸ Decimal.le_exactSum hds hd
    exact Decimal.exists_div (hds d hd) hsome (by linarith)
  obtain ⟨others, hothers, hnear⟩ := exists_mapM_ok fun d hd => hdiv d (List.mem_append_left _ hd)
  obtain ⟨q, hq, -⟩ := hdiv w (List.mem_append_right _ (List.mem_singleton_self w))
  have hquotients : (init ++ [w]).mapM (·.div total) = .ok (others ++ [q]) :=
    mapM_eq_ok_iff.mpr (List.rel_append (mapM_eq_ok_iff.mp hothers) (.cons hq .nil))
  have hnonneg : ∀ d ∈ others, 0 ≤ d.value := by
    intro d hd
    obtain ⟨x, hx, hok⟩ := exists_of_mem_mapM hothers hd
    obtain ⟨y, hy, happrox⟩ := hdiv x (List.mem_append_left _ hx)
    obtain rfl : y = d := Except.ok.inj (hy.symm.trans hok)
    exact happrox.nonneg
  -- The others add up to little more than one, so their sum is exact.
  have hcover : exactSum others ≤ 2 := by
    have hround := exactSum_le_of_near hnear
    have hpart : exactSum init / exactSum (init ++ [w]) ≤ 1 := by
      rw [← hexact, div_le_one hsome, hexact, exactSum_concat]
      linarith [hds w (List.mem_append_right _ (List.mem_singleton_self w))]
    have hmany : (init.length : ℚ) * (unit / 2) ≤ 1 := by
      have hcast : (init.length : ℚ) ≤ 10 ^ 27 := by exact_mod_cast hfew
      have hunit : (10 : ℚ) ^ 27 * (unit / 2) ≤ 1 := by norm_num [unit, tenPow]
      exact (mul_le_mul_of_nonneg_right hcast (half_pos unit_pos).le).trans hunit
    linarith
  obtain ⟨covered, hcovered, hexact'⟩ := Decimal.exists_sum hnonneg (by linarith)
  obtain ⟨last, hlast, hvalue⟩ := Decimal.exists_sub (a := .one) (b := covered) (by
    rw [Decimal.value_one, hexact', abs_le]
    constructor <;> linarith [Decimal.exactSum_nonneg hnonneg])
  refine ⟨others, last, exactShares_eq_some_iff.mpr ⟨total, others ++ [q], covered, last, hsum,
    fun hzero => hsome.ne' (Decimal.isZero_iff.mp hzero), hquotients, ?_, hlast, ?_⟩, hnear, ?_⟩
  · rwa [List.dropLast_concat]
  · rw [List.dropLast_concat]
  · rw [exactSum_concat, hvalue, Decimal.value_one, hexact', add_sub_cancel]

/-- **Weights above nought with a moderate total** have shares that sum to exactly one.  Up to seven
the total is exact by itself. -/
theorem exists_shares (hpos : ∀ d ∈ init ++ [w], 0 < d.value)
    (hroom : exactSum (init ++ [w]) ≤ 7) (hfew : init.length ≤ 10 ^ 27) :
    ∃ others last, exactShares (init ++ [w]) = .ok (some (others ++ [last])) ∧
      AreShares init w others last := by
  have hds : ∀ d ∈ init ++ [w], 0 ≤ d.value := fun d hd => (hpos d hd).le
  obtain ⟨total, hsum, hexact⟩ := Decimal.exists_sum hds hroom
  exact exists_shares_of_sum hds hsum hexact (hexact ▸ exactSum_pos hpos) hfew

/-! ## The last share -/

namespace AreShares

/-- There is one share for each weight. -/
theorem length_eq (h : AreShares init w others last) : others.length = init.length :=
  h.near.length_eq.symm

/-- **The last share** is off by at most half a unit for each of the others: it takes on all of
their rounding, and has none of its own. -/
theorem abs_last_sub_le (h : AreShares init w others last)
    (hsome : 0 < exactSum (init ++ [w])) :
    |last.value - w.value / exactSum (init ++ [w])| ≤ init.length * (unit / 2) := by
  have hround := abs_exactSum_sub_le h.near
  have hsum := h.sum_eq
  rw [exactSum_concat] at hsum
  have hparts : exactSum init / exactSum (init ++ [w]) + w.value / exactSum (init ++ [w]) = 1 := by
    rw [← add_div, ← exactSum_concat, div_self hsome.ne']
  -- What the others have too much is what the last share has too little.
  have hlast : last.value - w.value / exactSum (init ++ [w]) =
      -(exactSum others - exactSum init / exactSum (init ++ [w])) := by linarith
  rwa [hlast, abs_neg]

/-- The last share is not below its weight's part by more than half a unit for each of the others.
This is the half of the bound that keeps it above nought. -/
theorem le_last (h : AreShares init w others last) (hpos : ∀ d ∈ init ++ [w], 0 < d.value) :
    w.value / exactSum (init ++ [w]) - init.length * (unit / 2) ≤ last.value := by
  linarith [(abs_le.mp (h.abs_last_sub_le (exactSum_pos hpos))).1]

/-- The rounded quotients are not negative. -/
theorem others_nonneg (h : AreShares init w others last) : ∀ q ∈ others, 0 ≤ q.value := by
  intro q hq
  obtain ⟨d, -, hround⟩ := exists_of_forall₂ h.near hq
  exact hround.nonneg

/-- **Behind one or two others** the last share is not below nought, and so no share is.  It is
above minus one unit, and a multiple of the unit. -/
theorem nonneg (h : AreShares init w others last) (hpos : ∀ d ∈ init ++ [w], 0 < d.value)
    (hfew : init.length ≤ 2) : ∀ q ∈ others ++ [last], 0 ≤ q.value := by
  have hlast := h.le_last hpos
  have hquotient : 0 < w.value / exactSum (init ++ [w]) :=
    div_pos (hpos w (List.mem_append_right _ (List.mem_singleton_self w))) (exactSum_pos hpos)
  have hunits : (init.length : ℚ) * (unit / 2) ≤ 2 * (unit / 2) :=
    mul_le_mul_of_nonneg_right (by exact_mod_cast hfew) (half_pos unit_pos).le
  -- The last share is a whole multiple of the unit and less than a unit below nought.
  have hneg : last.neg.value ≤ (0 : Nat) := by
    refine Decimal.le_natCast_of_lt ?_
    rw [Decimal.value_neg, Nat.cast_zero]
    linarith
  intro q hq
  rcases List.mem_append.mp hq with hother | hq
  · exact h.others_nonneg q hother
  · obtain rfl := List.mem_singleton.mp hq
    rw [Decimal.value_neg, Nat.cast_zero] at hneg
    linarith

/-- **Weights of a few units** in a total of about one have shares above nought.  Nine halves of a
unit outweigh the half units of up to eight others. -/
theorem pos (h : AreShares init w others last) (hone : exactSum (init ++ [w]) ≤ 1 + 13 * unit)
    (hlarge : ∀ d ∈ init ++ [w], 9 / 2 * unit ≤ d.value) (hfew : init.length ≤ 8) :
    ∀ q ∈ others ++ [last], 0 < q.value := by
  have hunit := unit_pos
  have hpos : ∀ d ∈ init ++ [w], 0 < d.value := fun d hd =>
    (mul_pos (by norm_num) hunit).trans_le (hlarge d hd)
  have hquotient : ∀ d ∈ init ++ [w], 4 * unit < d.value / exactSum (init ++ [w]) := by
    intro d hd
    have hsmall : unit < 1 / 104 := by norm_num [unit, tenPow]
    rw [lt_div_iff₀ (exactSum_pos hpos)]
    nlinarith [hlarge d hd]
  have hunits : (init.length : ℚ) * (unit / 2) ≤ 8 * (unit / 2) :=
    mul_le_mul_of_nonneg_right (by exact_mod_cast hfew) (half_pos hunit).le
  intro q hq
  rcases List.mem_append.mp hq with hother | hlast
  · obtain ⟨d, hd, hround⟩ := exists_of_forall₂ h.near hother
    linarith [hround.ge, hquotient d (List.mem_append_left _ hd)]
  · obtain rfl := List.mem_singleton.mp hlast
    linarith [h.le_last hpos, hquotient w (List.mem_append_right _ (List.mem_singleton_self w))]

end AreShares

end Sokoban
