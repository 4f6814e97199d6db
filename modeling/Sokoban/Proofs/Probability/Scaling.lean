import Sokoban.Proofs.Overflow

/-! # Maps that are made of entries

Entries whose sums can be held make a map, unless they are all nought (`ofEntries_cases`).  Its
weights are the sums of the labels, divided by the total of these sums (`exists_scale`); it does not
matter in which order entries of different labels stand (`ofEntries_congr`), since only the amounts
of each label are added in their order.

That sums can be held is the one hypothesis.  It is `¬ TooLarge entries`, which excludes the
overflow of a label or of the total and nothing else.
-/

namespace Sokoban

namespace ProbabilityMap

variable {entries others : List (Label × Decimal)} {weight : Label → Decimal} {total : Decimal}
  {map : ProbabilityMap}

/-! ## Scaling -/

/-- Looking up a label in a table gives its weight. -/
theorem lookup_table : lookup (table weight) = weight := by
  funext label
  cases label with
  | toward dir => cases dir <;> rfl
  | drift => rfl

/-- Weights are divided by their total, one by one and in the order of the labels. -/
theorem scale_table_eq_ok (htotal : Decimal.sum (Label.all.map weight) = .ok total)
    (hsome : ¬ total.isZero) (hdiv : ∀ label, (weight label).div total = .ok (map.weight label)) :
    scale (table weight) = .ok map := by
  have hscaled : (table weight).mapM (fun w => ((w.2.div total).map (w.1, ·)).mapError
      ProbabilityError.arithmetic) = .ok (table map.weight) := by
    rw [table, List.mapM_map]
    refine mapM_eq_ok_map fun label _ => ?_
    exact mapError_eq_ok_iff.mpr (map_eq_ok_iff.mpr ⟨_, hdiv label, rfl⟩)
  rw [scale, map_snd_table, bind_eq_ok_iff]
  refine ⟨total, mapError_eq_ok_iff.mpr htotal, ?_⟩
  rw [if_neg hsome]
  exact bind_eq_ok_iff.mpr ⟨_, hscaled, pure_eq_ok_iff.mpr (by rw [lookup_table])⟩

/-- There is no dividing by nought.  A total of nought is found before anything is divided. -/
theorem scale_table_eq_zeroSum (htotal : Decimal.sum (Label.all.map weight) = .ok total)
    (hnone : total.isZero) : scale (table weight) = .error .zeroSum := by
  rw [scale, map_snd_table, htotal, bind_eq_error_iff]
  exact .inr ⟨total, rfl, if_pos hnone⟩

/-- **The weights of a map** are the quotients by the total, up to half a unit.  They exist because
no weight is larger than the total. -/
theorem exists_scale (hnonneg : ∀ d ∈ Label.all.map weight, 0 ≤ d.value)
    (htotal : Decimal.sum (Label.all.map weight) = .ok total) (hpos : 0 < total.value) :
    ∃ map, scale (table weight) = .ok map ∧
      ∀ label, (map.weight label).Approximates ((weight label).value / total.value) := by
  have heach : ∀ label, ∃ q, (weight label).div total = .ok q ∧
      q.Approximates ((weight label).value / total.value) := fun label =>
    exists_quotient hnonneg htotal hpos (List.mem_map_of_mem (Label.mem_all label))
  choose share hshare hnear using heach
  exact ⟨⟨share⟩, scale_table_eq_ok htotal (fun hnone => hpos.ne' (Decimal.isZero_iff.mp hnone))
    hshare, hnear⟩

/-! ## Entries -/

/-- Entries whose sums are known are scaled from those sums. -/
theorem ofEntries_eq_scale_table (hsign : ∀ entry ∈ entries, entry.2.isNegative = false)
    (hweight : ∀ label, Decimal.sum (amounts entries label) = .ok (weight label)) :
    ofEntries entries = scale (table weight) := by
  rw [ofEntries_eq_scale, foldlM_addEntry_eq_ok_iff.mpr ⟨hsign, weight, hweight, rfl⟩]
  rfl

/-- Only the sums of the labels matter, so entries with the same amounts for each label make the
same map. -/
theorem ofEntries_congr (hsign : ∀ entry ∈ entries, entry.2.isNegative = false)
    (hsign' : ∀ entry ∈ others, entry.2.isNegative = false)
    (hweight : ∀ label, Decimal.sum (amounts entries label) = .ok (weight label))
    (hsame : ∀ label, amounts others label = amounts entries label) :
    ofEntries others = ofEntries entries := by
  rw [ofEntries_eq_scale_table hsign hweight,
    ofEntries_eq_scale_table hsign' fun label => by rw [hsame, hweight]]

/-- Entries that are not too large can be added up: those of each label, and then the sums of the
labels.  An overflow of either would be one of the two cases of `TooLarge`. -/
theorem exists_sums (hsign : ∀ entry ∈ entries, entry.2.isNegative = false)
    (hroom : ¬ TooLarge entries) :
    ∃ weight total, (∀ label, Decimal.sum (amounts entries label) = .ok (weight label)) ∧
      Decimal.sum (Label.all.map weight) = .ok total := by
  obtain ⟨hlabels, htotals⟩ := not_or.mp hroom
  have hall : counted entries = entries :=
    List.takeWhile_eq_self_iff.mpr fun entry hentry => by simp [hsign entry hentry]
  have heach : ∀ label, ∃ sum, Decimal.sum (amounts entries label) = .ok sum := by
    intro label
    cases hsum : Decimal.sum (amounts entries label) with
    | ok sum => exact ⟨sum, rfl⟩
    | error fault =>
        rw [← hall, sum_counted_eq_error_iff] at hsum
        exact absurd ⟨label, hsum.2⟩ hlabels
  choose weight hweight using heach
  cases htotal : Decimal.sum (Label.all.map weight) with
  | ok total => exact ⟨weight, total, hweight, htotal⟩
  | error fault =>
      rw [Decimal.sum_eq_error_iff (nonneg_of_sum_amounts hsign hweight)] at htotal
      exact absurd ⟨hsign, weight, hweight, htotal.2⟩ htotals

/-- The sums of all labels are nought if all entries are, and only then.  Nothing is negative, so
nothing cancels. -/
theorem sums_eq_zero_iff (hsign : ∀ entry ∈ entries, entry.2.isNegative = false)
    (hweight : ∀ label, Decimal.sum (amounts entries label) = .ok (weight label)) :
    (∀ d ∈ Label.all.map weight, d.value = 0) ↔ ∀ entry ∈ entries, entry.2.value = 0 := by
  have heach : ∀ label, (weight label).value = 0 ↔ ∀ d ∈ amounts entries label, d.value = 0 :=
    fun label => Decimal.sum_eq_zero_iff (fun _ hd => nonneg_of_mem_amounts hsign hd) (hweight label)
  constructor
  · intro h entry hentry
    have hlabel := h (weight entry.1) (List.mem_map_of_mem (Label.mem_all entry.1))
    refine (heach entry.1).mp hlabel entry.2 ?_
    exact List.mem_map_of_mem (List.mem_filter.mpr ⟨hentry, by simp⟩)
  · intro h d hd
    obtain ⟨label, -, rfl⟩ := List.mem_map.mp hd
    refine (heach label).mpr fun d hd => ?_
    obtain ⟨entry, hentry, rfl⟩ := List.mem_map.mp hd
    exact h entry (List.mem_of_mem_filter hentry)

/-- **Entries that are not too large** make a map, unless all of them are nought.  Then the total is
nought, and there is nothing to divide by. -/
theorem ofEntries_cases (hsign : ∀ entry ∈ entries, entry.2.isNegative = false)
    (hroom : ¬ TooLarge entries) :
    (∀ entry ∈ entries, entry.2.value = 0) ∧ ofEntries entries = .error .zeroSum ∨
      (¬ ∀ entry ∈ entries, entry.2.value = 0) ∧ ∃ map, ofEntries entries = .ok map := by
  obtain ⟨weight, total, hweight, htotal⟩ := exists_sums hsign hroom
  have hnonneg := nonneg_of_sum_amounts hsign hweight
  have hzero := Decimal.sum_eq_zero_iff hnonneg htotal
  rw [sums_eq_zero_iff hsign hweight] at hzero
  rw [ofEntries_eq_scale_table hsign hweight, ← hzero]
  rcases (Decimal.le_of_sum hnonneg htotal).1.eq_or_lt with hnone | hpos
  · exact .inl ⟨hnone.symm, scale_table_eq_zeroSum htotal (Decimal.isZero_iff.mpr hnone.symm)⟩
  · obtain ⟨map, hmap, -⟩ := exists_scale hnonneg htotal hpos
    exact .inr ⟨hpos.ne', map, hmap⟩

end ProbabilityMap

end Sokoban
