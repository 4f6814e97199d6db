import Sokoban.Proofs.Decimal.Exactness
import Sokoban.Proofs.Decimal.Text
import Sokoban.Proofs.Probability.Items
import Sokoban.Proofs.Probability.Scaling

/-! # Maps that are read again

The text of a map has an item for every label, and the weights in their shortest form.  These
weights sum to one only up to a few units, so reading the text divides by a total that is not quite
one.  That moves no weight by more than ten units (`ofEntries_reread`): nine for the total and a
half for rounding the quotient.  The total is exact, and a weight that is not nought is at least one
unit, more than a quotient by the total can lose, so labels without weight are the same before and
after.

The two halves are apart: that the text is read as the weights (`ofText_toText`), which is about
characters, and that weights which are nearly one together are scaled to nearly the same weights
(`exists_scale_near`), which is about numbers.
-/

namespace Sokoban

namespace ProbabilityMap

open Decimal (unit unit_pos exactSum)
open Text (isBlank)

variable {map : ProbabilityMap} {label : Label} {entries : List (Label × Decimal)}
  {weight : Label → Decimal}

/-! ## The text of a map -/

/-- What is written for a label. -/
def piece (map : ProbabilityMap) (label : Label) : List Char :=
  label.key :: '=' :: (map.weight label).normalize.toText.toList

/-- The text of a map consists of its items with commas between them. -/
theorem toList_toText (map : ProbabilityMap) :
    map.toText.toList = [','].intercalate (Label.all.map map.piece) := by
  rw [toText, String.toList_intercalate, List.map_map]
  congr 1
  refine List.map_congr_left fun label _ => ?_
  simp [piece, toString]

/-- No item has a comma in it. -/
theorem comma_not_mem_piece (map : ProbabilityMap) (label : Label) : ',' ∉ map.piece label := by
  have htext : ',' ∉ (map.weight label).normalize.toText.toList := fun hmem => by
    simpa using Decimal.mem_toText hmem
  simp [piece, label.key_ne.1.symm, htext]

/-- What is written for a label is read with the weight in its shortest form.  The letter is the
label's own, and the text of a decimal is read as it was written. -/
theorem reads_piece (hnonneg : 0 ≤ (map.weight label).value) :
    Reads (map.piece label) (label, (map.weight label).normalize) := by
  have hkey : '=' ∉ [label.key] := by simpa using label.key_ne.2.symm
  refine ⟨[label.key], _, ⟨rfl, hkey⟩, ⟨label.key, .refl _, .inl rfl⟩, ?_, ?_⟩
  · have hblank : ∀ c ∈ (map.weight label).normalize.toText.toList, isBlank c = false := by
      intro c hc
      rcases Decimal.mem_toText hc with hdigit | rfl | rfl
      · exact Text.isBlank_of_isDigit hdigit
      · decide
      · decide
    rw [Text.strip_eq_self hblank, Decimal.ofText?_toText, Decimal.isNegative_normalize]
    rfl
  · rwa [Decimal.isNegative_eq_false_iff, Decimal.value_normalize]

/-- No item of the text of a map is blank, so each of them counts.  A decimal has no comma in it,
and so the commas are just the ones between items. -/
theorem nonblank_toText (map : ProbabilityMap) :
    nonblank map.toText.toList = Label.all.map map.piece := by
  have hpieces : ∀ piece ∈ Label.all.map map.piece, ',' ∉ piece := by
    intro piece hpiece
    obtain ⟨label, -, rfl⟩ := List.mem_map.mp hpiece
    exact map.comma_not_mem_piece label
  rw [nonblank, toList_toText, List.splitOn_intercalate _ hpieces (List.cons_ne_nil _ _),
    List.filter_eq_self]
  intro piece hpiece
  obtain ⟨label, -, rfl⟩ := List.mem_map.mp hpiece
  simp [ProbabilityMap.piece, label.isBlank_key.1]

/-- **The text of a map** is read as its weights.  Each item is for a label of its own, so they are
entries for all five labels. -/
theorem ofText_toText (hnonneg : ∀ label, 0 ≤ (map.weight label).value) :
    ofText map.toText.toList =
      ofEntries (Label.all.map fun label => (label, (map.weight label).normalize)) := by
  have hread : entriesOfItems [] (items map.toText.toList) =
      .ok (Label.all.map fun label => (label, (map.weight label).normalize)) := by
    rw [items_eq, nonblank_toText, List.map_map, entriesOfItems_eq_ok_iff, List.map_map]
    refine ⟨?_, ?_, fun _ _ => List.not_mem_nil⟩
    · rw [List.forall₂_map_left_iff, List.forall₂_map_right_iff, List.forall₂_same]
      exact fun label _ => (reads_iff_of_pads (Text.pads_strip _)).mp (reads_piece (hnonneg label))
    · have hdifferent : (Label.all.map id).Nodup := by decide
      exact hdifferent
  rw [ofText, hread]
  rfl

/-! ## Dividing by nearly one -/

/-- Dividing a part by a whole that is nearly one moves it by no more than the whole is off, for a
part is at most the whole. -/
theorem abs_div_sub_le {part whole : ℚ} (hpart : 0 ≤ part) (hle : part ≤ whole)
    (hpos : 0 < whole) : |part / whole - part| ≤ |whole - 1| := by
  have hquotient : |part / whole| ≤ 1 := by
    rw [abs_of_nonneg (div_nonneg hpart hpos.le)]
    exact (div_le_one hpos).mpr hle
  have hsplit : part / whole - part = part / whole * (1 - whole) := by
    rw [mul_sub, mul_one, div_mul_cancel₀ part hpos.ne']
  rw [hsplit, abs_mul, abs_sub_comm]
  exact mul_le_of_le_one_left (abs_nonneg _) hquotient

/-- A quotient by nearly one is nought only of nought: a decimal above nought is at least a unit,
and its quotient by less than two more than half a unit. -/
theorem eq_zero_iff_of_approximates {part q : Decimal} {whole : ℚ} (hpart : 0 ≤ part.value)
    (hpos : 0 < whole) (hwhole : whole < 2) (hnear : q.Approximates (part.value / whole)) :
    q.value = 0 ↔ part.value = 0 := by
  constructor
  · intro hzero
    have hquotient : part.value / whole ≤ unit / 2 := by linarith [hnear.ge]
    rw [div_le_iff₀ hpos] at hquotient
    have hless : part.value < (0 : Nat) + unit := by
      rw [Nat.cast_zero, zero_add]
      nlinarith [unit_pos]
    exact le_antisymm (by simpa using Decimal.le_natCast_of_lt hless) hpart
  · intro hzero
    rw [hzero, zero_div] at hnear
    exact le_antisymm (by simpa using hnear.le_natCast (n := 0) (by simp)) hnear.nonneg

/-- **Weights that are nearly one together** are scaled to nearly the same weights.  The total is
exact, since it is far below seven, and each quotient by it moves a weight by what the total is off,
and half a unit. -/
theorem exists_scale_near (hnonneg : ∀ label, 0 ≤ (weight label).value)
    (hnearly : |exactSum (Label.all.map weight) - 1| ≤ 9 * unit) :
    ∃ map, scale (table weight) = .ok map ∧ ∀ label,
      ((map.weight label).value = 0 ↔ (weight label).value = 0) ∧
        |(map.weight label).value - (weight label).value| ≤ 10 * unit := by
  have hweights : ∀ d ∈ Label.all.map weight, 0 ≤ d.value := List.forall_mem_map.mpr fun label _ =>
    hnonneg label
  obtain ⟨htwo, hsome⟩ : exactSum (Label.all.map weight) < 2 ∧
      0 < exactSum (Label.all.map weight) := by
    have hunit : 9 * unit < 1 := by norm_num [unit, tenPow]
    obtain ⟨hlow, hhigh⟩ := abs_le.mp hnearly
    constructor <;> linarith
  -- So small a total is exact, and only the quotients are rounded.
  obtain ⟨total, htotal, hexact⟩ := Decimal.exists_sum hweights (by linarith)
  obtain ⟨map, hmap, hnear⟩ := exists_scale hweights htotal (hexact ▸ hsome)
  refine ⟨map, hmap, fun label => ?_⟩
  have hround := hnear label
  rw [hexact] at hround
  refine ⟨eq_zero_iff_of_approximates (hnonneg label) hsome htwo hround, ?_⟩
  have hle := Decimal.le_exactSum hweights (List.mem_map_of_mem (Label.mem_all label))
  have hmove := (abs_div_sub_le (hnonneg label) hle hsome).trans hnearly
  calc |(map.weight label).value - (weight label).value|
      ≤ |(map.weight label).value - (weight label).value / exactSum (Label.all.map weight)| +
        |(weight label).value / exactSum (Label.all.map weight) - (weight label).value| :=
        abs_sub_le ..
    _ ≤ unit / 2 + 9 * unit := add_le_add hround.near hmove
    _ ≤ 10 * unit := by linarith [unit_pos]

/-! ## Reading again -/

/-- Of one entry for each label, each label has its own amount. -/
theorem amounts_map_all (f : Label → Decimal) (label : Label) :
    amounts (Label.all.map fun label => (label, f label)) label = [f label] := by
  cases label with
  | toward dir => cases dir <;> rfl
  | drift => rfl

/-- What is written for a label is added to nothing else. -/
theorem exists_sum_written (hnonneg : 0 ≤ (map.weight label).value) :
    ∃ sum, Decimal.sum (amounts (Label.all.map fun label =>
      (label, (map.weight label).normalize)) label) = .ok sum ∧
        sum.value = (map.weight label).value := by
  have hsingle : Decimal.RunsExactly [(map.weight label).normalize] :=
    Decimal.runsExactly_of_length_le (Nat.le_refl 1)
  obtain ⟨sum, hsum, hvalue⟩ := hsingle.exists_sum (by simpa [Decimal.value_normalize] using hnonneg)
  refine ⟨sum, by rw [amounts_map_all, hsum], hvalue.trans ?_⟩
  simp [exactSum, Decimal.value_normalize]

/-- **A map is read again** with nearly the same weights, and nought stays nought.  What is written
for a label has the same value as its weight, so nearly one is left nearly one. -/
theorem Accepted.exists_reread (h : map.Accepted) :
    ∃ again, ofText map.toText.toList = .ok again ∧ ∀ label,
      ((again.weight label).value = 0 ↔ (map.weight label).value = 0) ∧
        |(again.weight label).value - (map.weight label).value| ≤ 10 * unit := by
  have hmap : ∀ label, 0 ≤ (map.weight label).value := fun label => (h.within label).nonneg
  have heach := fun label => exists_sum_written (hmap label)
  choose weight hweight hvalue using heach
  have hsame : exactSum (Label.all.map weight) = exactSum (Label.all.map map.weight) := by
    rw [exactSum, exactSum, List.map_map, List.map_map]
    exact congrArg List.sum (List.map_congr_left fun label _ => hvalue label)
  obtain ⟨again, hagain, hnear⟩ := exists_scale_near (fun label => hvalue label ▸ hmap label)
    (hsame ▸ h.abs_exactSum_sub_le)
  refine ⟨again, ?_, fun label => hvalue label ▸ hnear label⟩
  rw [ofText_toText hmap, ofEntries_eq_scale_table ?_ hweight, hagain]
  intro entry hentry
  obtain ⟨label, -, rfl⟩ := List.mem_map.mp hentry
  rw [Decimal.isNegative_eq_false_iff, Decimal.value_normalize]
  exact hmap label

/-! ## Entries -/

/-- **Entries that are not too large** and not negative.  If all are nought, there is no map of them.
Otherwise there is one; no weight of it is above one, all weights are one together, and it is read
again from its text, where the same weights are nought: all but for ten units. -/
theorem ofEntries_reread (hsign : ∀ entry ∈ entries, 0 ≤ entry.2.value)
    (hroom : ¬ TooLarge entries) :
    (ofEntries entries = .error .zeroSum ↔ ∀ entry ∈ entries, entry.2.value = 0) ∧
      ((∃ entry ∈ entries, entry.2.value ≠ 0) → ∃ map, ofEntries entries = .ok map ∧
        (∀ label, 0 ≤ (map.weight label).value ∧ (map.weight label).value ≤ 1) ∧
        |exactSum (Label.all.map map.weight) - 1| ≤ 10 * unit ∧
        ∃ again, ofText map.toText.toList = .ok again ∧ ∀ label,
          ((again.weight label).value = 0 ↔ (map.weight label).value = 0) ∧
            |(again.weight label).value - (map.weight label).value| ≤ 10 * unit) := by
  have hnone : ∀ entry ∈ entries, entry.2.isNegative = false := fun entry hentry =>
    Decimal.isNegative_eq_false_iff.mpr (hsign entry hentry)
  rcases ofEntries_cases hnone hroom with ⟨hzero, herror⟩ | ⟨hsome, map, hmap⟩
  · refine ⟨iff_of_true herror hzero, fun hother => ?_⟩
    obtain ⟨entry, hentry, hne⟩ := hother
    exact absurd (hzero entry hentry) hne
  · refine ⟨iff_of_false (by rw [hmap]; nofun) hsome, fun _ => ⟨map, hmap, fun label => ?_, ?_, ?_⟩⟩
    · have hwithin := Accepted.within (.inr ⟨entries, hmap⟩) label
      exact ⟨hwithin.nonneg, by simpa using hwithin.le⟩
    · have hnearly := Accepted.abs_exactSum_sub_le (.inr ⟨entries, hmap⟩)
      linarith [unit_pos]
    · exact Accepted.exists_reread (.inr ⟨entries, hmap⟩)

/-- Three equal weights, one of them in parts, and none to the left. -/
def thirds : List (Label × Decimal) :=
  [(.drift, .quarter), (.toward .up, .one), (.drift, .quarter), (.toward .left, .zero),
    (.toward .down, .one), (.drift, .quarter), (.drift, .quarter)]

/-- The shares of three equal weights are less than one together. -/
theorem ofEntries_reread_thirds :
    (∀ entry ∈ thirds, 0 ≤ entry.2.value) ∧ ¬ TooLarge thirds ∧
      ∃ map, ofEntries thirds = .ok map ∧
        |exactSum (Label.all.map map.weight) - 1| ≤ 10 * unit ∧
        ∃ again, ofText map.toText.toList = .ok again ∧
          ∀ label, |(again.weight label).value - (map.weight label).value| ≤ 10 * unit := by
  have hsign : ∀ entry ∈ thirds, 0 ≤ entry.2.value := by decide +kernel
  have hroom : ¬ TooLarge thirds := by
    intro hlarge
    have herror := ofEntries_eq_arithmetic_iff.mpr ⟨rfl, hlarge⟩
    have hmade : (ofEntries thirds).isOk = true := by decide +kernel
    rw [herror] at hmade
    cases hmade
  have hsome : ∃ entry ∈ thirds, entry.2.value ≠ 0 :=
    ⟨(.drift, .quarter), List.mem_cons_self, by decide +kernel⟩
  obtain ⟨map, hmap, -, hone, again, hagain, hnear⟩ := (ofEntries_reread hsign hroom).2 hsome
  exact ⟨hsign, hroom, map, hmap, hone, again, hagain, fun label => (hnear label).2⟩

end ProbabilityMap

end Sokoban
