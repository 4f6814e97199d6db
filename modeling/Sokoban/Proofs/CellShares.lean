import Sokoban.Proofs.Weighing

/-! # The shares of a cell

Where weights choose, the motions of a step share the weight of its direction in equal parts, and
drift has its own weight.  A step to a cell ahead is one motion or two: it may be a walk or a shove,
and which it is depends on where the boxes are.  The parts are rounded (`IsMotionShare`), but
together the shares of a cell are about one (`exactSum_cellShares_le`), since the weights of an
accepted map are and a cell has at most four steps.  So nothing overflows, and the shares can be
weighed (`exists_fixedOutcomes`).

`CellOutcomes` says that outcomes are those of a cell, with the probabilities that its shares get.
What they do does not depend on rounding (`CellOutcomes.areWeighted`), and neither does it depend on
the encoding.
-/

namespace Sokoban.Commands

open Decimal (unit exactSum)

variable {map : ProbabilityMap} {row : Level.StepRow} {share : Direction × Step → Decimal}
  {outcomes : List (Option Expr × Outcome)}

/-! ## Motions -/

/-- A step can turn out to be one motion or two. -/
theorem length_motions (step : Step) : 0 < step.motions.length ∧ step.motions.length ≤ 2 := by
  cases step <;> simp [Step.motions]

/-- A share for each of the motions of a step: the weight of its direction in equal parts, up to
rounding. -/
def IsMotionShare (map : ProbabilityMap) (x : Direction × Step) (share : Decimal) : Prop :=
  share.Approximates ((map.toward x.1).value / x.2.motions.length)

/-- The motions of a step share its weight, whatever the encoding.  The weight is at most one, so it
can be divided. -/
theorem exists_motionShares (hmap : map.Accepted) (x : Direction × Step) :
    ∃ share, IsMotionShare map x share ∧ ∀ e, motionShares e map x.1 x.2 =
      .ok (sharesOf e (x.2.motions.map fun motion => (share, .attempt motion))) := by
  have hweight := hmap.within (.toward x.1)
  have hseven : (map.toward x.1).Within 7 :=
    ⟨hweight.nonneg, hweight.le.trans (by norm_num)⟩
  obtain ⟨share, hshare, hnear⟩ := Decimal.exists_divNat hseven (length_motions x.2).1
  refine ⟨share, hnear, fun e => ?_⟩
  rw [motionShares, hshare, sharesOf, List.map_map]
  rfl

/-- The motions of a row, each with the share of its step.  A motion is attempted: where it cannot
be made, nothing happens. -/
def attempts (row : Level.StepRow) (share : Direction × Step → Decimal) :
    List (Decimal × Outcome) :=
  row.flatMap fun x => x.2.motions.map fun motion => (share x, .attempt motion)

/-- The motions of a row are those of its first step and of the others. -/
theorem attempts_cons (x : Direction × Step) (row : Level.StepRow)
    (share : Direction × Step → Decimal) :
    attempts (x :: row) share =
      (x.2.motions.map fun motion => (share x, .attempt motion)) ++ attempts row share :=
  List.flatMap_cons

/-- Every motion of a row is one of one of its steps, with the share of that step. -/
theorem mem_attempts {o : Decimal × Outcome} :
    o ∈ attempts row share ↔ ∃ x ∈ row, ∃ motion ∈ x.2.motions, (share x, .attempt motion) = o := by
  simp only [attempts, List.mem_flatMap, List.mem_map]

/-- There are at most two motions for each step.  This bounds the number of roundings, and with it
what they can add up to. -/
theorem length_attempts_le (row : Level.StepRow) (share : Direction × Step → Decimal) :
    (attempts row share).length ≤ 2 * row.length := by
  induction row with
  | nil => exact Nat.le_refl 0
  | cons x row ih =>
      have hx := (length_motions x.2).2
      rw [attempts_cons, List.length_append, List.length_map, List.length_cons]
      omega

/-- The shares of motions together are the weights of their directions, up to a unit for each
direction: half a unit for each of at most two motions. -/
theorem exactSum_attempts_le (row : Level.StepRow) (hshare : ∀ x, IsMotionShare map x (share x)) :
    exactSum ((attempts row share).map (·.1)) ≤
      exactSum ((row.map (·.1)).map map.toward) + row.length * unit := by
  induction row with
  | nil => simp [attempts, exactSum]
  | cons x row ih =>
      have hmotions : exactSum ((x.2.motions.map fun motion =>
          (share x, Outcome.attempt motion)).map (·.1)) = x.2.motions.length * (share x).value := by
        rw [exactSum, List.map_map, List.map_map, ← nsmul_eq_mul, ← List.sum_replicate,
          ← List.map_const']
        rfl
      have hround : x.2.motions.length * (share x).value ≤ (map.toward x.1).value + unit := by
        obtain ⟨hsome, hfew⟩ := length_motions x.2
        have hpos : (0 : ℚ) < x.2.motions.length := by exact_mod_cast hsome
        have hle : (x.2.motions.length : ℚ) ≤ 2 := by exact_mod_cast hfew
        calc x.2.motions.length * (share x).value
            ≤ x.2.motions.length * ((map.toward x.1).value / x.2.motions.length + unit / 2) :=
              mul_le_mul_of_nonneg_left (hshare x).le hpos.le
          _ = (map.toward x.1).value + x.2.motions.length * (unit / 2) := by
              rw [mul_add, mul_div_cancel₀ _ hpos.ne']
          _ ≤ (map.toward x.1).value + unit := by nlinarith [Decimal.unit_pos]
      rw [attempts_cons, List.map_append, Decimal.exactSum_append, hmotions, List.map_cons,
        List.map_cons, Decimal.exactSum_cons, List.length_cons]
      push_cast
      linarith

/-- The shares of steps, put into an encoding one step after the other, are those of the row. -/
theorem flatten_sharesOf (e : Encoding) (row : Level.StepRow) (share : Direction × Step → Decimal) :
    (row.map fun x =>
      sharesOf e (x.2.motions.map fun motion => (share x, .attempt motion))).flatten =
        sharesOf e (attempts row share) := by
  rw [sharesOf, attempts, List.map_flatMap]
  rfl

/-! ## Cells -/

/-- What a branch of a cell does where weights choose: it attempts a motion of a step, or hands over
to the adversary. -/
def IsWeighted (map : ProbabilityMap) (row : Level.StepRow) (o : Outcome) : Prop :=
  (∃ dir step, (dir, step) ∈ row ∧ ∃ motion ∈ step.motions, o = .attempt motion) ∨
    (map.drift.isZero = false ∧ o = .drift)

/-- What the branches of a cell do: a single one does nothing, or each of them has a weight. -/
def AreWeighted (map : ProbabilityMap) (row : Level.StepRow)
    (outcomes : List (Option Expr × Outcome)) : Prop :=
  outcomes ≠ [] ∧ (outcomes = [(none, .stay)] ∨ ∀ o ∈ outcomes, IsWeighted map row o.2)

/-- The gate of a cell where weights choose. -/
def fixedGate (map : ProbabilityMap) : Gate :=
  if map.drift.isZero then .always else .settled

/-- The outcome that hands over to the adversary, where drift has a weight. -/
def driftOutcome (map : ProbabilityMap) : List (Decimal × Outcome) :=
  if map.drift.isZero then [] else [(map.drift, .drift)]

/-- There is a share for drift exactly if drift has a weight. -/
theorem mem_driftOutcome {o : Decimal × Outcome} :
    o ∈ driftOutcome map ↔ map.drift.isZero = false ∧ (map.drift, .drift) = o := by
  unfold driftOutcome
  cases map.drift.isZero <;> simp [eq_comm]

/-- The command of a cell, from its shares and the branches that they make.  With and without drift
it differs in the gate only. -/
theorem fixedCommand_eq {e : Encoding} {shares : List (List (Decimal × List Assignment))}
    {branches : List Branch}
    (hshares : row.mapM (fun x => motionShares e map x.1 x.2) = .ok shares)
    (hbranches : weightedBranches (shares.flatten ++ sharesOf e (driftOutcome map)) = .ok branches)
    (cell : Nat) :
    fixedCommand e map cell row = .ok ⟨none, (fixedGate map).guard e cell, branches⟩ := by
  unfold driftOutcome at hbranches
  unfold fixedCommand fixedGate
  refine bind_eq_ok_iff.mpr ⟨shares, hshares, ?_⟩
  by_cases hdrift : map.drift.isZero
  · rw [if_pos hdrift] at hbranches ⊢
    rw [sharesOf, List.map_nil, List.append_nil] at hbranches
    exact bind_eq_ok_iff.mpr ⟨branches, hbranches, by rw [if_pos hdrift]; rfl⟩
  · rw [if_neg hdrift] at hbranches ⊢
    exact bind_eq_ok_iff.mpr ⟨branches, hbranches, by rw [if_neg hdrift]; rfl⟩

/-- The outcomes of a cell with their shares: the motions of its steps, and drift. -/
def cellShares (map : ProbabilityMap) (row : Level.StepRow) (share : Direction × Step → Decimal) :
    List (Decimal × Outcome) :=
  attempts row share ++ driftOutcome map

/-- The outcomes of a cell where weights choose, with the probabilities that the weights give. -/
def CellOutcomes (map : ProbabilityMap) (row : Level.StepRow)
    (outcomes : List (Option Expr × Outcome)) : Prop :=
  ∃ share : Direction × Step → Decimal, (∀ x, IsMotionShare map x (share x)) ∧
    Weighing (kept (cellShares map row share)) outcomes

/-- The shares of a cell are those of motions and that of drift. -/
theorem mem_cellShares {o : Decimal × Outcome} :
    o ∈ cellShares map row share ↔
      (∃ x ∈ row, ∃ motion ∈ x.2.motions, (share x, .attempt motion) = o) ∨
        map.drift.isZero = false ∧ (map.drift, .drift) = o := by
  rw [cellShares, List.mem_append, mem_attempts, mem_driftOutcome]

/-- A cell has at most nine outcomes: two for each direction, and drift. -/
theorem length_cellShares_le (hrow : (row.map (·.1)).Sublist Direction.all) :
    (cellShares map row share).length ≤ 9 := by
  have hattempts := length_attempts_le row share
  have hlength := hrow.length_le
  have hfour : Direction.all.length = 4 := rfl
  rw [List.length_map, hfour] at hlength
  rw [cellShares, List.length_append, driftOutcome]
  split <;> simp only [List.length_nil, List.length_singleton] <;> omega

/-- No share of a cell is below nought, as no weight of an accepted map is. -/
theorem cellShares_nonneg (hmap : map.Accepted) (hshare : ∀ x, IsMotionShare map x (share x)) :
    ∀ o ∈ cellShares map row share, 0 ≤ o.1.value := by
  intro o ho
  rcases mem_cellShares.mp ho with ⟨x, -, motion, -, rfl⟩ | ⟨-, rfl⟩
  · exact (hshare x).nonneg
  · exact (hmap.within .drift).nonneg

/-- Drift adds its weight to the total, and nothing if it has none. -/
theorem exactSum_driftOutcome (map : ProbabilityMap) :
    exactSum ((driftOutcome map).map (·.1)) = map.drift.value := by
  unfold driftOutcome
  split
  next hzero => simp [exactSum, Decimal.isZero_iff.mp hzero]
  next => simp [exactSum]

/-- **The shares of a cell** together are about one: the weights of a map sum to one up to a few
units, and rounding adds at most one for each step. -/
theorem exactSum_cellShares_le (hmap : map.Accepted)
    (hshare : ∀ x, IsMotionShare map x (share x))
    (hrow : (row.map (·.1)).Sublist Direction.all) :
    exactSum ((cellShares map row share).map (·.1)) ≤ 1 + 13 * unit := by
  have hattempts := exactSum_attempts_le row hshare
  have hpart : exactSum ((row.map (·.1)).map map.toward) ≤
      exactSum (Direction.all.map map.toward) := by
    refine ((hrow.map map.toward).map Decimal.value).sum_le_sum fun x hx => ?_
    obtain ⟨d, hd, rfl⟩ := List.mem_map.mp hx
    obtain ⟨dir, -, rfl⟩ := List.mem_map.mp hd
    exact (hmap.within (.toward dir)).nonneg
  have hall : exactSum (Direction.all.map map.toward) + map.drift.value ≤ 1 + 9 * unit := by
    have htotal := hmap.exactSum_le
    rw [Label.all, List.map_append, List.map_singleton, exactSum_concat, List.map_map] at htotal
    exact htotal
  have hfew : (row.length : ℚ) * unit ≤ 4 * unit := by
    have hlength := hrow.length_le
    rw [List.length_map] at hlength
    exact mul_le_mul_of_nonneg_right (by exact_mod_cast hlength) Decimal.unit_pos.le
  rw [cellShares, List.map_append, Decimal.exactSum_append, exactSum_driftOutcome]
  linarith

/-- What the outcomes of a cell do: either there is one that does nothing, or each has a weight.
Weighing drops outcomes but makes no new ones, apart from staying where nothing is left. -/
theorem CellOutcomes.areWeighted (h : CellOutcomes map row outcomes) :
    AreWeighted map row outcomes := by
  obtain ⟨share, -, hweighing⟩ := h
  refine ⟨hweighing.ne_nil, hweighing.stay_or_mem.imp_right fun hmem o ho => ?_⟩
  obtain ⟨x, hkept, heq⟩ := hmem o ho
  rw [← heq]
  rcases mem_cellShares.mp (mem_of_mem_kept hkept) with
    ⟨y, hy, motion, hmotion, rfl⟩ | ⟨hdrift, rfl⟩
  · exact .inl ⟨y.1, y.2, hy, motion, hmotion, rfl⟩
  · exact .inr ⟨hdrift, rfl⟩

/-- The command of a cell is the same turn in every encoding, and its outcomes exist.  The shares
are found without the encoding, and it only puts them into assignments. -/
theorem exists_fixedOutcomes (hmap : map.Accepted)
    (hrow : (row.map (·.1)).Sublist Direction.all) :
    ∃ outcomes, CellOutcomes map row outcomes ∧ ∀ e cell, fixedCommand e map cell row =
      .ok (Turn.command e ⟨none, cell, fixedGate map, outcomes⟩) := by
  choose share hshare hok using fun x : Direction × Step => exists_motionShares hmap x
  have hroom : exactSum ((cellShares map row share).map (·.1)) ≤ 7 := by
    refine (exactSum_cellShares_le hmap hshare hrow).trans ?_
    norm_num [unit, tenPow]
  have hlength : (cellShares map row share).length ≤ 10 ^ 27 :=
    (length_cellShares_le hrow).trans (by decide)
  obtain ⟨outcomes, hweighing, hbranches⟩ :=
    exists_weighing (cellShares_nonneg hmap hshare) hroom hlength
  refine ⟨outcomes, ⟨share, hshare, hweighing⟩, fun e cell => ?_⟩
  have hshares : row.mapM (fun x => motionShares e map x.1 x.2) =
      .ok (row.map fun x =>
        sharesOf e (x.2.motions.map fun motion => (share x, .attempt motion))) :=
    mapM_eq_ok_map fun x _ => hok x e
  have happend : sharesOf e (attempts row share) ++ sharesOf e (driftOutcome map) =
      sharesOf e (cellShares map row share) := (List.map_append ..).symm
  exact fixedCommand_eq hshares (by rw [flatten_sharesOf, happend]; exact hbranches e) cell

end Sokoban.Commands
