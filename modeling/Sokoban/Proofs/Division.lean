import Sokoban.Proofs.Decimal.Exactness
import Sokoban.Proofs.Shares

/-! # Dividing weights exactly

Weights that are not negative and whose running sums are decimals can be divided, unless all of them
are nought (`exactShares_near`).  The weights may be as large as decimals can be, and there may be
many of them: the shares before the last one are rounded quotients up to one, so that their sum stays
small and is exact.  The last share takes on the rounding of all others.
-/

namespace Sokoban

open Decimal (unit exactSum RunsExactly)

variable {ds : List Decimal}

/-- Only a total of nought has no shares, and without a fault that is all that can be missing.  An
empty list has such a total as well. -/
theorem exactShares_eq_none_iff {total : Decimal} (hsum : Decimal.sum ds = .ok total) :
    exactShares ds = .ok none ↔ total.value = 0 := by
  rw [exactShares, bind_eq_ok_iff, ← Decimal.isZero_iff]
  constructor
  · rintro ⟨other, hother, hrest⟩
    obtain rfl : other = total := Except.ok.inj (hother.symm.trans hsum)
    by_contra hsome
    rw [if_neg hsome] at hrest
    obtain ⟨quotients, -, hrest⟩ := bind_eq_ok_iff.mp hrest
    obtain ⟨covered, -, hrest⟩ := bind_eq_ok_iff.mp hrest
    obtain ⟨last, -, hrest⟩ := bind_eq_ok_iff.mp hrest
    cases pure_eq_ok_iff.mp hrest
  · intro hnone
    exact ⟨total, hsum, by rw [if_pos hnone]; rfl⟩

/-- **Shares of weights** whose running sums are decimals.  There are none if all weights are nought.
Otherwise there is one for every weight; they sum to exactly one, and each is off from the quotient
by the total by at most half a unit, or half a unit for each of the others if it is the last. -/
theorem exactShares_near (hds : ∀ d ∈ ds, 0 ≤ d.value) (hexact : RunsExactly ds)
    (hfew : ds.length < 10 ^ 27) :
    (exactShares ds = .ok none ↔ ∀ d ∈ ds, d.value = 0) ∧
      ((∃ d ∈ ds, d.value ≠ 0) → ∃ shares, exactShares ds = .ok (some shares) ∧
        shares.length = ds.length ∧ exactSum shares = 1 ∧
        ∀ (index : Nat) (d share : Decimal), ds[index]? = some d → shares[index]? = some share →
          |share.value - d.value / exactSum ds| ≤
            if index + 1 < ds.length then unit / 2 else ((ds.length : ℚ) - 1) / 2 * unit) := by
  obtain ⟨total, hsum, hvalue⟩ := hexact.exists_sum hds
  refine ⟨by rw [exactShares_eq_none_iff hsum, hvalue, Decimal.exactSum_eq_zero_iff hds], fun hsome => ?_⟩
  obtain ⟨d, hd, hne⟩ := hsome
  have hpos : 0 < exactSum ds :=
    (lt_of_le_of_ne (hds d hd) hne.symm).trans_le (Decimal.le_exactSum hds hd)
  obtain ⟨init, w, rfl⟩ := (List.eq_nil_or_concat' ds).resolve_left (List.ne_nil_of_mem hd)
  have hlength : init.length + 1 < 10 ^ 27 := by simpa using hfew
  obtain ⟨others, last, hshares, hare⟩ :=
    exists_shares_of_sum hds hsum hvalue (hvalue ▸ hpos) (by omega)
  refine ⟨_, hshares, by simp [hare.length_eq], hare.sum_eq, fun index v share hv hshare => ?_⟩
  -- All shares but the last are rounded quotients.
  rcases Nat.lt_or_ge index init.length with hlt | hge
  · rw [List.getElem?_append_left hlt] at hv
    rw [List.getElem?_append_left (hare.length_eq ▸ hlt)] at hshare
    obtain ⟨hi, rfl⟩ := List.getElem?_eq_some_iff.mp hv
    obtain ⟨ho, rfl⟩ := List.getElem?_eq_some_iff.mp hshare
    rw [if_pos (by simpa using hlt)]
    exact (hare.near.get hi ho).near
  · have hindex : index = init.length := by
      have hbound := (List.getElem?_eq_some_iff.mp hv).1
      rw [List.length_append, List.length_singleton] at hbound
      omega
    subst hindex
    rw [List.getElem?_concat_length] at hv
    rw [← hare.length_eq, List.getElem?_concat_length] at hshare
    obtain rfl := Option.some.inj hv
    obtain rfl := Option.some.inj hshare
    have hlast := hare.abs_last_sub_le hpos
    rw [if_neg (by simp), List.length_append, List.length_singleton]
    push_cast
    linarith

/-- A weight that takes up nearly all of the room for a total, and two that are small beside it. -/
def lopsided : List Decimal :=
  [{ Decimal.one with mantissa := 79228162514264337593543950333, mantissa_lt := by decide }, .one, .one]

/-- The running sums of the lopsided weights are found by adding them up: none of them is rounded, and
the last is the largest decimal there is. -/
theorem runsExactly_lopsided : RunsExactly lopsided := by
  have hsums : ∀ first ∈ lopsided.inits,
      (Decimal.sum first).toOption.any fun total => total.value == exactSum first := by
    decide +kernel
  refine (Decimal.runsExactly_iff (by decide +kernel)).mpr fun first hfirst => ?_
  obtain ⟨total, htotal, hvalue⟩ := exists_ok_of_any (hsums first ((List.mem_inits ..).mpr hfirst))
  exact ⟨total, htotal, beq_iff_eq.mp hvalue⟩

/-- The total is the largest decimal, and a small weight is half a unit and less of it.  Its share
is rounded to nought, within the bound. -/
theorem exactShares_near_lopsided : ∃ shares, exactShares lopsided = .ok (some shares) ∧
    shares.length = 3 ∧ exactSum shares = 1 ∧
    ∀ last ∈ shares[2]?, |last.value - 1 / 79228162514264337593543950335| ≤ unit := by
  have hds : ∀ d ∈ lopsided, 0 ≤ d.value := by decide +kernel
  have hsome : ∃ d ∈ lopsided, d.value ≠ 0 := ⟨.one, by simp [lopsided], by decide +kernel⟩
  have htotal : exactSum lopsided = 79228162514264337593543950335 := by decide +kernel
  obtain ⟨shares, hshares, hlength, hsum, hnear⟩ :=
    (exactShares_near hds runsExactly_lopsided (by decide)).2 hsome
  refine ⟨shares, hshares, hlength, hsum, fun last hlast => ?_⟩
  have hlast := hnear 2 .one last rfl hlast
  rw [htotal, Decimal.value_one, if_neg (by decide)] at hlast
  norm_num [lopsided] at hlast ⊢
  exact hlast

end Sokoban
