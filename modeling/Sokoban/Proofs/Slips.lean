import Mathlib.Algebra.BigOperators.Ring.List
import Sokoban.Proofs.Probability
import Sokoban.Proofs.Turn

/-! # Slips

With noise the intended direction succeeds with the probability `mu`.  What is left is spread over
other directions from the same cell: over all of them, or over those that have a weight
(`Noise.slipping`).  A part is an expression in `mu`, and its value a share of `1 - mu`.  The shares
are not below nought and sum to one (`Noise.Spreads`), so whatever `mu` is, the chances of a step do
too (`Noise.Spreads.exists_chances`).  The shares are computed when the model is made, and `mu` may
be left open then.

A player has at most three other directions, and that matters: only behind one or two others is a
last share sure not to be below nought.  If there is no other direction at all, the intended one is
certain.
-/

namespace Sokoban

open Decimal (exactSum)

namespace Noise

/-- Noise whose weights come from an accepted map, if it has weights. -/
def Accepted (noise : Noise) : Prop :=
  ∀ map, noise.residual = .weighted map → map.Accepted

/-- The directions that get a part of the failure probability: those with a weight, or all of them
if none has a weight or there are no weights. -/
def slipping (noise : Noise) (others : List Direction) : List Direction :=
  match noise.residual with
  | .uniform => others
  | .weighted map =>
    let weighted := others.filter fun dir => !(map.toward dir).isZero
    if weighted.isEmpty then others else weighted

/-- Without other directions there is nothing to slip to. -/
theorem slipping_nil (noise : Noise) : noise.slipping [] = [] := by
  unfold slipping
  split <;> rfl

/-- The directions that get a part are among the others, in their order. -/
theorem slipping_sublist (noise : Noise) (others : List Direction) :
    (noise.slipping others).Sublist others := by
  unfold slipping
  split
  next => exact .refl others
  next =>
    simp only
    split
    next => exact .refl others
    next => exact List.filter_sublist

/-- Parts for some directions, and the shares of the failure probability that they are.  The chances
are those shares times what is left, in every state in which `mu` has a value. -/
structure Spreads (parts : List (Direction × Expr)) (dirs : List Direction) (shares : List ℚ) :
    Prop where
  directions : parts.map (·.1) = dirs
  nonneg : ∀ x ∈ shares, 0 ≤ x
  sum_eq : shares.sum = 1
  chances : ∀ s mu, s muName = some (.num mu) →
    HaveChances s (parts.map fun part => some part.2) (shares.map ((1 - mu) * ·))

variable {noise : Noise} {others dirs : List Direction} {parts : List (Direction × Expr)}
  {shares : List ℚ} {s : Valuation} {mu : ℚ}

/-- **The chances of a step** that slips:  `mu`, and the parts of the rest.  They are not below
nought and sum to one because the shares do. -/
theorem Spreads.exists_chances (h : Spreads parts dirs shares) (hs : s muName = some (.num mu))
    (hmu : 0 ≤ mu) (hmu' : mu ≤ 1) :
    ∃ chances, HaveChances s (some (.var muName) :: parts.map fun part => some part.2) chances ∧
      (∀ x ∈ chances, 0 ≤ x) ∧ chances.sum = 1 := by
  have hfirst : chance? s (some (.var muName)) = some mu := by simp [chance?, Expr.eval, hs]
  refine ⟨mu :: shares.map ((1 - mu) * ·), .cons hfirst (h.chances s mu hs), fun x hx => ?_, ?_⟩
  · rcases List.mem_cons.mp hx with rfl | hx
    · exact hmu
    · obtain ⟨share, hshare, rfl⟩ := List.mem_map.mp hx
      exact mul_nonneg (sub_nonneg.mpr hmu') (h.nonneg share hshare)
  · rw [List.sum_cons, List.sum_map_mul_left, List.map_id', h.sum_eq, mul_one, add_sub_cancel]

/-! ## Parts -/

/-- What is left when the intended direction fails. -/
theorem eval_failure (hs : s muName = some (.num mu)) :
    failure.eval s = some (.num (1 - mu)) := by
  simp [failure, Expr.eval, Expr.nat, hs]

/-- A part is a share of what is left, also where the share is one and is left out. -/
theorem chance?_part (hs : s muName = some (.num mu)) (share : Decimal) :
    chance? s (some (part share)) = some ((1 - mu) * share.value) := by
  have hfailure := eval_failure hs
  unfold part
  split
  next hone =>
    rw [Decimal.same_iff.mp hone, Decimal.value_one, mul_one]
    simp [chance?, hfailure]
  next => simp [chance?, Expr.eval, hfailure]

/-- Even parts are equal shares.  A single part is all that is left, without a division. -/
theorem spreads_evenParts (h : others ≠ []) :
    Spreads (evenParts others) others (others.map fun _ => 1 / (others.length : ℚ)) := by
  have hlength : (others.length : ℚ) ≠ 0 := by
    exact_mod_cast (List.length_pos_iff.mpr h).ne'
  refine ⟨by simp [evenParts, Function.comp_def], fun x hx => ?_, ?_, fun s mu hs => ?_⟩
  · obtain ⟨-, -, rfl⟩ := List.mem_map.mp hx
    positivity
  · rw [List.map_const', List.sum_replicate, nsmul_eq_mul, mul_one_div_cancel hlength]
  · have hfailure := eval_failure hs
    rw [evenParts, List.map_map, List.map_map]
    refine haveChances_map fun _ _ => ?_
    simp only [Function.comp_apply]
    split
    next hone => simp [chance?, hfailure, hone]
    next => simp [chance?, Expr.eval, Expr.nat, hfailure, hlength, div_eq_mul_inv]

/-- Weighted parts are the shares of the weights, each times what is left.  The shares sum to
exactly one, since the last makes up for the others. -/
theorem spreads_weighted {init : List Direction} {dir : Direction} {weight : Direction → Decimal}
    {others : List Decimal} {last : Decimal}
    (h : AreShares (init.map weight) (weight dir) others last)
    (hnonneg : ∀ q ∈ others ++ [last], 0 ≤ q.value) :
    Spreads (((init ++ [dir]).zip (others ++ [last])).map fun x => (x.1, part x.2))
      (init ++ [dir]) ((others ++ [last]).map Decimal.value) := by
  have hlength : (others ++ [last]).length = (init ++ [dir]).length := by simp [h.length_eq]
  refine ⟨?_, fun x hx => ?_, h.sum_eq, fun s mu hs => ?_⟩
  · rw [List.map_map]
    exact List.map_fst_zip hlength.ge
  · obtain ⟨q, hq, rfl⟩ := List.mem_map.mp hx
    exact hnonneg q hq
  · have hparts : (((init ++ [dir]).zip (others ++ [last])).map fun x => (x.1, part x.2)).map
        (fun part => some part.2) = (others ++ [last]).map fun q => some (part q) := by
      conv_rhs => rw [← List.map_snd_zip hlength.le]
      rw [List.map_map, List.map_map]
      rfl
    rw [hparts, List.map_map]
    exact haveChances_map fun q _ => chance?_part hs q

/-- The weights of up to three directions have shares, none of them below nought.  Behind one or two
others the last share cannot be. -/
theorem exists_weightShares {map : ProbabilityMap} (hmap : map.Accepted) {init : List Direction}
    {dir : Direction} (hsome : ∀ other ∈ init ++ [dir], (map.toward other).isZero = false)
    (hfew : init.length ≤ 2) :
    ∃ others last, exactShares ((init ++ [dir]).map map.toward) = .ok (some (others ++ [last])) ∧
      AreShares (init.map map.toward) (map.toward dir) others last ∧
      ∀ q ∈ others ++ [last], 0 ≤ q.value := by
  have hpos : ∀ d ∈ (init ++ [dir]).map map.toward, 0 < d.value := by
    intro d hd
    obtain ⟨other, hother, rfl⟩ := List.mem_map.mp hd
    exact (hmap.pos_iff (.toward other)).mpr (hsome other hother)
  have hroom : exactSum ((init ++ [dir]).map map.toward) ≤ 7 := by
    refine (Decimal.exactSum_le_length fun d hd => ?_).trans ?_
    · obtain ⟨other, -, rfl⟩ := List.mem_map.mp hd
      exact hmap.within (.toward other)
    · rw [List.length_map, List.length_append, List.length_singleton]
      norm_cast
      omega
  have hlength : (init.map map.toward).length ≤ 2 := by rwa [List.length_map]
  rw [List.map_append, List.map_singleton] at hpos hroom ⊢
  obtain ⟨others, last, hshares, hare⟩ := exists_shares hpos hroom (hlength.trans (by decide))
  exact ⟨others, last, hshares, hare, hare.nonneg hpos hlength⟩

/-- **The failure probability** can be spread over up to three other directions.  Weights of nought
do not count, and where no weight is left the parts are even. -/
theorem exists_distribute (hnoise : noise.Accepted) (hsome : others ≠ [])
    (hfew : others.length ≤ 3) :
    ∃ parts shares, noise.distribute others = .ok (some (.var muName), parts) ∧
      Spreads parts (noise.slipping others) shares := by
  unfold distribute slipping
  rw [if_neg (by simpa using hsome)]
  cases hresidual : noise.residual with
  | uniform => exact ⟨_, _, rfl, spreads_evenParts hsome⟩
  | weighted map =>
      simp only
      rcases List.eq_nil_or_concat' (others.filter fun dir => !(map.toward dir).isZero) with
        hnone | ⟨init, dir, hweighted⟩
      · rw [hnone]
        exact ⟨_, _, rfl, spreads_evenParts hsome⟩
      · have hkept : ∀ other ∈ init ++ [dir], (map.toward other).isZero = false := by
          intro other hother
          rw [← hweighted] at hother
          exact (Bool.not_eq_true' _).mp (List.mem_filter.mp hother).2
        have hlength := List.length_filter_le (fun dir => !(map.toward dir).isZero) others
        rw [hweighted, List.length_append, List.length_singleton] at hlength
        obtain ⟨scaled, last, hshares, hare, hnonneg⟩ :=
          exists_weightShares (hnoise map hresidual) hkept (by omega)
        rw [hweighted, hshares, if_neg (by simp)]
        exact ⟨_, _, rfl, spreads_weighted hare hnonneg⟩

end Noise

/-! ## Outcomes -/

namespace Commands

variable {noise : Noise} {row : Level.StepRow} {dir : Direction} {step : Step}

/-- The other directions of a row of steps. -/
def otherDirections (row : Level.StepRow) (dir : Direction) : List Direction :=
  (row.map (·.1)).filter (· ≠ dir)

/-- No direction comes up twice among the others. -/
theorem nodup_otherDirections (hrow : (row.map (·.1)).Sublist Direction.all) (dir : Direction) :
    (otherDirections row dir).Nodup :=
  (hrow.nodup (by decide)).filter _

/-- There are at most three others. -/
theorem length_otherDirections_le (hrow : (row.map (·.1)).Sublist Direction.all) (dir : Direction) :
    (otherDirections row dir).length ≤ 3 := by
  have hall : (Direction.all.filter (· ≠ dir)).length = 3 := by cases dir <;> rfl
  exact (hrow.filter _).length_le.trans hall.le

/-- The outcomes of a step with noise: the step itself, and then a slip for each other direction
that gets a part of the failure probability. -/
structure StepOutcomes (noise : Noise) (row : Level.StepRow) (dir : Direction) (step : Step)
    (outcomes : List (Option Expr × Outcome)) : Prop where
  exists_slips : ∃ intended? slips, outcomes = (intended?, .take step) :: slips ∧
    List.Forall₂ (fun other o => ∃ slip, (other, slip) ∈ row ∧ o.2 = .slip slip)
      (noise.slipping (otherDirections row dir)) slips
  exists_chances : ∀ s mu, s muName = some (.num mu) → 0 ≤ mu → mu ≤ 1 →
    ∃ chances, HaveChances s (outcomes.map (·.1)) chances ∧ (∀ x ∈ chances, 0 ≤ x) ∧
      chances.sum = 1

/-- The slips that parts of the failure probability make. -/
def slipsOf (row : Level.StepRow) (parts : List (Direction × Expr)) :
    List (Option Expr × Outcome) :=
  parts.filterMap fun part =>
    (row.find? (·.1 == part.1)).map fun x => (some part.2, Outcome.slip x.2)

/-- Every part for a direction of the row makes a slip.  So no part is lost when the slips are
looked up, and the chances of slips are those of the parts. -/
theorem slipsOf_forall₂ {parts : List (Direction × Expr)}
    (h : ∀ part ∈ parts, part.1 ∈ row.map (·.1)) :
    List.Forall₂ (fun part o => o.1 = some part.2 ∧
      ∃ slip, (part.1, slip) ∈ row ∧ o.2 = .slip slip) parts (slipsOf row parts) := by
  refine forall₂_filterMap fun part hpart => ?_
  obtain ⟨x, hx, hdir⟩ := List.mem_map.mp (h part hpart)
  obtain ⟨y, hy⟩ := Option.isSome_iff_exists.mp
    (List.find?_isSome.mpr ⟨x, hx, by simpa using hdir⟩ : (row.find? (·.1 == part.1)).isSome)
  have hname : y.1 = part.1 := by simpa using List.find?_some hy
  exact ⟨_, by rw [hy]; rfl, rfl, y.2, hname ▸ List.mem_of_find?_eq_some hy, rfl⟩

/-- The branches of a step, from the parts of the failure probability: the step, and a slip for each
part. -/
theorem noisyBranches_of_distribute {intended? : Option Expr} {parts : List (Direction × Expr)}
    (h : noise.distribute (otherDirections row dir) = .ok (intended?, parts)) (e : Encoding) :
    noisyBranches noise (row.map fun x => (x.1, e.stepEffect x.2)) dir (e.stepEffect step) =
      .ok (((intended?, .take step) :: slipsOf row parts).map (branchOf e)) := by
  have hothers : ((row.map fun x => (x.1, e.stepEffect x.2)).map (·.1)).filter (· ≠ dir) =
      otherDirections row dir := by
    rw [List.map_map]
    rfl
  unfold noisyBranches
  rw [hothers]
  refine bind_eq_ok_iff.mpr ⟨_, h, ?_⟩
  refine congrArg Except.ok (congrArg (List.cons _) ?_)
  simp only [slipsOf, List.map_filterMap, Option.map_map, List.find?_map]
  rfl

/-- **A step with noise** has outcomes, the same in every encoding.  Whether there are other
directions decides whether the step itself has a probability. -/
theorem exists_noisyOutcomes (hnoise : noise.Accepted)
    (hrow : (row.map (·.1)).Sublist Direction.all) (dir : Direction) (step : Step) :
    ∃ outcomes, StepOutcomes noise row dir step outcomes ∧ ∀ e : Encoding,
      noisyBranches noise (row.map fun x => (x.1, e.stepEffect x.2)) dir (e.stepEffect step) =
        .ok (outcomes.map (branchOf e)) := by
  by_cases hsome : otherDirections row dir = []
  · refine ⟨[(none, .take step)], ⟨⟨none, [], rfl, ?_⟩, fun s mu _ _ _ => ?_⟩,
      noisyBranches_of_distribute (by rw [hsome]; rfl)⟩
    · rw [hsome, Noise.slipping_nil]
      exact .nil
    · exact ⟨[1], haveChances_certain s, by simp, List.sum_singleton⟩
  · obtain ⟨parts, shares, hparts, hspreads⟩ :=
      noise.exists_distribute hnoise hsome (length_otherDirections_le hrow dir)
    have hmem : ∀ part ∈ parts, part.1 ∈ row.map (·.1) := by
      intro part hpart
      have hdir : part.1 ∈ noise.slipping (otherDirections row dir) :=
        hspreads.directions ▸ List.mem_map_of_mem hpart
      exact List.mem_of_mem_filter ((noise.slipping_sublist _).subset hdir)
    have hslips := slipsOf_forall₂ hmem
    refine ⟨_, ⟨⟨_, _, rfl, ?_⟩, fun s mu hs hmu hmu' => ?_⟩, noisyBranches_of_distribute hparts⟩
    · rw [← hspreads.directions, List.forall₂_map_left_iff]
      exact hslips.imp fun _ _ h => h.2
    · rw [List.map_cons, map_eq_of_forall₂ hslips fun _ _ h => h.1]
      exact hspreads.exists_chances hs hmu hmu'

end Commands

end Sokoban
