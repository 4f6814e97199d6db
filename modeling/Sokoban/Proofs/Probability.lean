import Sokoban.Proofs.Shares

/-! # Probability maps

The weights of a probability map that entries make are quotients by a total.  The total is rounded,
and so are the quotients (`ofEntries_ok`); nevertheless no weight is above one, and all weights
together are one up to a few units (`Accepted.within`, `Accepted.abs_exactSum_sub_le`).  The first
holds because a rounded total is not below any of the numbers that it adds up, the second because it
is off by at most a few units of its own size.

`ProbabilityMap.Accepted` are the maps that a configuration can hold: the uniform one, and those
that entries make.  All theorems about modes with weights assume nothing else of a map.
-/

namespace Sokoban

open Decimal (unit unit_pos exactSum)

/-- Every label is listed. -/
theorem Label.mem_all (label : Label) : label ∈ all := by
  cases label with
  | toward dir => exact List.mem_append_left _ (List.mem_map_of_mem (Direction.mem_all dir))
  | drift => exact List.mem_append_right _ (List.mem_singleton_self _)

/-- What can be checked for each of the five labels. -/
theorem Label.forall_of_all {P : Label → Prop} (h : ∀ label ∈ all, P label) (label : Label) :
    P label :=
  h label (mem_all label)

namespace ProbabilityMap

variable {map : ProbabilityMap} {weights after : Weights} {entries : List (Label × Decimal)}

/-- The maps that a configuration can hold. -/
def Accepted (map : ProbabilityMap) : Prop :=
  map = uniform ∨ ∃ entries, ofEntries entries = .ok map

/-- A map that is read from a text is made of entries. -/
theorem accepted_of_ofText {text : List Char} (h : ofText text = .ok map) : map.Accepted := by
  obtain ⟨entries, -, hentries⟩ := bind_eq_ok_iff.mp h
  exact .inr ⟨entries, hentries⟩

/-! ## Entries -/

/-- An entry is added to a weight that is there.  The labels stay, and no weight falls below nought.
-/
theorem addEntry_ok {entry : Label × Decimal} (hnonneg : ∀ w ∈ weights, 0 ≤ w.2.value)
    (h : addEntry weights entry = .ok after) :
    after.map (·.1) = weights.map (·.1) ∧ ∀ w ∈ after, 0 ≤ w.2.value := by
  unfold addEntry at h
  split at h
  next => cases h
  next hentry =>
    refine ⟨map_eq_of_forall₂ (mapM_eq_ok_iff.mp h) fun old w hok => ?_, fun w hw => ?_⟩
    · simp only at hok
      split at hok
      next =>
        rw [mapError_eq_ok_iff, map_eq_ok_iff] at hok
        obtain ⟨sum, -, rfl⟩ := hok
        rfl
      next => rw [← Except.ok.inj hok]
    · have hentry0 : 0 ≤ entry.2.value :=
        Decimal.isNegative_eq_false_iff.mp (Bool.not_eq_true _ ▸ hentry)
      obtain ⟨⟨label, weight⟩, hold, hok⟩ := exists_of_mem_mapM h hw
      simp only at hok
      split at hok
      next =>
        rw [mapError_eq_ok_iff, map_eq_ok_iff] at hok
        obtain ⟨sum, hsum, rfl⟩ := hok
        have hweight : 0 ≤ weight.value := hnonneg (label, weight) hold
        exact (Decimal.le_of_sum? (Decimal.add_eq_ok_iff.mp hsum) hweight hentry0).1
      next =>
        obtain rfl := Except.ok.inj hok
        exact hnonneg _ hold

/-- Adding all entries keeps the labels, and no weight falls below nought.  By induction on the
entries, of which each is added to the one weight with its label. -/
theorem foldlM_addEntry_ok (hnonneg : ∀ w ∈ weights, 0 ≤ w.2.value)
    (h : entries.foldlM addEntry weights = .ok after) :
    after.map (·.1) = weights.map (·.1) ∧ ∀ w ∈ after, 0 ≤ w.2.value := by
  induction entries generalizing weights with
  | nil =>
      obtain rfl : weights = after := Except.ok.inj h
      exact ⟨rfl, hnonneg⟩
  | cons entry entries ih =>
      rw [List.foldlM_cons, bind_eq_ok_iff] at h
      obtain ⟨next, hnext, hrest⟩ := h
      obtain ⟨hlabels, hnext0⟩ := addEntry_ok hnonneg hnext
      obtain ⟨hlabels', hafter⟩ := ih hnext0 hrest
      exact ⟨hlabels'.trans hlabels, hafter⟩

/-- Where labels are different, each is looked up with its own weight.  So the weights of a map can
be listed in the order of the labels. -/
theorem map_lookup (hnodup : (weights.map (·.1)).Nodup) :
    (weights.map (·.1)).map (lookup weights) = weights.map (·.2) := by
  rw [List.map_map]
  refine List.map_congr_left fun w hw => ?_
  have hfind : weights.find? (·.1 == w.1) = some w := by
    induction weights with
    | nil => cases hw
    | cons x weights ih =>
        rw [List.map_cons, List.nodup_cons] at hnodup
        rcases List.mem_cons.mp hw with rfl | hw
        · exact List.find?_cons_of_pos (by simp)
        · have hne : x.1 ≠ w.1 := fun heq => hnodup.1 (heq ▸ List.mem_map_of_mem hw)
          rw [List.find?_cons_of_neg (by simpa using hne)]
          exact ih hnodup.2 hw
  rw [Function.comp_apply, lookup, hfind]
  rfl

/-- The weights of a map that entries make are quotients by a total.  This lists the steps of the
function with their results. -/
theorem ofEntries_eq_ok_iff :
    ofEntries entries = .ok map ↔
      ∃ weights total scaled, entries.foldlM addEntry (Label.all.map (·, .zero)) = .ok weights ∧
        Decimal.sum (weights.map (·.2)) = .ok total ∧ ¬ total.isZero ∧
        weights.mapM (fun w => (w.2.div total).map (w.1, ·)) = .ok scaled ∧
        ⟨lookup scaled⟩ = map := by
  unfold ofEntries
  constructor
  · intro h
    obtain ⟨weights, hweights, hrest⟩ := bind_eq_ok_iff.mp h
    obtain ⟨total, htotal, hrest⟩ := bind_eq_ok_iff.mp hrest
    by_cases hnone : total.isZero
    · rw [if_pos hnone] at hrest
      cases hrest
    · rw [if_neg hnone] at hrest
      obtain ⟨scaled, hscaled, hmap⟩ := bind_eq_ok_iff.mp hrest
      rw [mapM_eq_ok_iff] at hscaled
      exact ⟨weights, total, scaled, hweights, mapError_eq_ok_iff.mp htotal, hnone,
        mapM_eq_ok_iff.mpr (hscaled.imp fun _ _ hok => mapError_eq_ok_iff.mp hok),
        pure_eq_ok_iff.mp hmap⟩
  · intro h
    obtain ⟨weights, total, scaled, hweights, htotal, hsome, hscaled, hmap⟩ := h
    rw [mapM_eq_ok_iff] at hscaled
    refine bind_eq_ok_iff.mpr ⟨weights, hweights, bind_eq_ok_iff.mpr ⟨total, ?_, ?_⟩⟩
    · exact mapError_eq_ok_iff.mpr htotal
    · rw [if_neg hsome]
      exact bind_eq_ok_iff.mpr ⟨scaled,
        mapM_eq_ok_iff.mpr (hscaled.imp fun _ _ hok => mapError_eq_ok_iff.mpr hok),
        pure_eq_ok_iff.mpr hmap⟩

/-- The quotients by a total are near, whether or not the total is rounded. -/
theorem exists_quotient {ds : List Decimal} {total d : Decimal} (hds : ∀ d ∈ ds, 0 ≤ d.value)
    (hsum : Decimal.sum ds = .ok total) (hsome : 0 < total.value) (hd : d ∈ ds) :
    ∃ q, d.div total = .ok q ∧ q.Approximates (d.value / total.value) := by
  have hle := (Decimal.le_of_sum hds hsum).2 d hd
  exact Decimal.exists_div (hds d hd) hsome (by linarith)

/-- **The weights of a map that entries make** are near the quotients of five numbers by their
rounded total. -/
theorem ofEntries_ok (h : ofEntries entries = .ok map) :
    ∃ ds total, ds.length = 5 ∧ (∀ d ∈ ds, 0 ≤ d.value) ∧ Decimal.sum ds = .ok total ∧
      0 < total.value ∧ List.Forall₂ (fun d q => q.Approximates (d.value / total.value)) ds
        (Label.all.map map.weight) := by
  obtain ⟨weights, total, scaled, hweights, hsum, hsome, hscaled, rfl⟩ := ofEntries_eq_ok_iff.mp h
  obtain ⟨hlabels, hnonneg⟩ := foldlM_addEntry_ok (by simp [Decimal.value_zero]) hweights
  -- The quotients are those of all labels, in their order.
  have hall : scaled.map (·.1) = Label.all := by
    have hkeep : scaled.map (·.1) = weights.map (·.1) := by
      refine map_eq_of_forall₂ (mapM_eq_ok_iff.mp hscaled) fun old w hok => ?_
      obtain ⟨q, -, rfl⟩ := map_eq_ok_iff.mp hok
      rfl
    rw [hkeep, hlabels]
    rfl
  have hds : ∀ d ∈ weights.map (·.2), 0 ≤ d.value := by
    intro d hd
    obtain ⟨w, hw, rfl⟩ := List.mem_map.mp hd
    exact hnonneg w hw
  have hpos : 0 < total.value := lt_of_le_of_ne (Decimal.le_of_sum hds hsum).1
    fun heq => hsome (Decimal.isZero_iff.mpr heq.symm)
  refine ⟨weights.map (·.2), total, ?_, hds, hsum, hpos, ?_⟩
  · rw [List.length_map, ← List.length_map (·.1), hlabels]
    rfl
  · have hvalues : Label.all.map (lookup scaled) = scaled.map (·.2) := by
      rw [← hall]
      exact map_lookup (by rw [hall]; decide)
    rw [hvalues, List.forall₂_map_left_iff, List.forall₂_map_right_iff]
    refine ((List.forall₂_and_left _ _).mpr ⟨fun _ hw => hw, mapM_eq_ok_iff.mp hscaled⟩).imp ?_
    intro old w hok
    obtain ⟨hold, hdiv⟩ := hok
    obtain ⟨q, hq, rfl⟩ := map_eq_ok_iff.mp hdiv
    obtain ⟨other, hother, hnear⟩ := exists_quotient hds hsum hpos (List.mem_map_of_mem hold)
    obtain rfl : other = q := Except.ok.inj (hother.symm.trans hq)
    exact hnear

/-! ## Accepted maps -/

/-- **No weight of an accepted map** is above one, and none is below nought.  A rounded total is not
below any number that it adds up, and rounding a quotient does not go beyond one. -/
theorem Accepted.within (h : map.Accepted) (label : Label) : (map.weight label).Within 1 := by
  rcases h with rfl | ⟨entries, hentries⟩
  · cases label with
    | toward dir =>
        change Decimal.quarter.Within _
        constructor <;> norm_num [Decimal.value, Decimal.quarter, tenPow]
    | drift => exact Decimal.within_zero _
  · obtain ⟨ds, total, -, hds, hsum, hpos, hnear⟩ := ofEntries_ok hentries
    obtain ⟨d, hd, hround⟩ := exists_of_forall₂ hnear (List.mem_map_of_mem (Label.mem_all label))
    refine hround.within ?_
    rw [Nat.cast_one, div_le_one hpos]
    exact (Decimal.le_of_sum hds hsum).2 d hd

/-- A weight that is not nought is above nought. -/
theorem Accepted.pos_iff (h : map.Accepted) (label : Label) :
    0 < (map.weight label).value ↔ (map.weight label).isZero = false := by
  rw [(h.within label).nonneg.lt_iff_ne', ← Bool.not_eq_true, Decimal.isZero_iff]

/-- **All weights of an accepted map** together are one, up to a few units.  The total of five
numbers is off by at most five units of its size, and each of five quotients by half a unit. -/
theorem Accepted.abs_exactSum_sub_le (h : map.Accepted) :
    |exactSum (Label.all.map map.weight) - 1| ≤ 9 * unit := by
  rcases h with rfl | ⟨entries, hentries⟩
  · have hone : exactSum (Label.all.map uniform.weight) = 1 := by
      simp only [exactSum, Label.all, Direction.all, uniform, List.map_cons, List.map_nil,
        List.cons_append, List.nil_append, List.sum_cons, List.sum_nil]
      norm_num [Decimal.value, Decimal.quarter, Decimal.zero, tenPow]
    rw [hone, sub_self, abs_zero]
    exact mul_nonneg (by norm_num) unit_pos.le
  · obtain ⟨ds, total, hlength, hds, hsum, hpos, hnear⟩ := ofEntries_ok hentries
    have hround := Sokoban.abs_exactSum_sub_le hnear
    obtain ⟨hlow, hhigh⟩ := Decimal.sum_near hds hsum
    rw [hlength] at hround hlow hhigh
    have hmost : exactSum ds / total.value ≤ (1 + unit) ^ 5 := (div_le_iff₀ hpos).mpr hlow
    have hleast : 1 ≤ (1 + unit) ^ 5 * (exactSum ds / total.value) := by
      rw [← mul_div_assoc, one_le_div hpos]
      exact hhigh
    generalize exactSum ds / total.value = quotient at hround hmost hleast
    have hunit : unit = 1 / 10000000000000000000000000000 := by norm_num [unit, tenPow]
    rw [hunit] at hround hmost hleast ⊢
    rw [abs_le] at hround ⊢
    constructor <;> linarith [hround.1, hround.2]

/-- All weights together are at most one and nine units, which leaves room for them to be added up.
-/
theorem Accepted.exactSum_le (h : map.Accepted) :
    exactSum (Label.all.map map.weight) ≤ 1 + 9 * unit := by
  linarith [(abs_le.mp h.abs_exactSum_sub_le).2]

end ProbabilityMap

end Sokoban
