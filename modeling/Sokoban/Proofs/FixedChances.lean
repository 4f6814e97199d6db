import Sokoban.Proofs.FixedMode

/-! # The chances where weights choose

In the fixed mode the chances of every command sum to exactly one, whatever the weights are
(`fixed_chances_sum`).  The shares of a cell are rounded quotients but for the last, and that one is
the difference of one and the others.

That they are above nought, and that nothing that has a weight is left out, takes weights that are
not too small beside the others: of at least ten units, if they are not nought
(`ProbabilityMap.Coarse`, `fixed_chances_pos`).  Half of such a weight, rounded, is more than what
the last share can lose to eight others.

A weight of one unit is lost when two motions share it: its half is rounded to nought, which is
even, and shares of nought are dropped.  And a few units may be less than the last share has to make
up for, which then is below nought.  Both happen in one cell of `Level.cross`
(`fixed_chances_cross`).
-/

namespace Sokoban

open Commands
open Decimal (unit exactSum)

variable {l : Level} {map : ProbabilityMap} {row : Level.StepRow}
  {share : Direction × Step → Decimal} {outcomes : List (Option Expr × Outcome)}

/-! ## The sum of chances -/

/-- **The chances of every command of the fixed mode** sum to exactly one: those of a cell because the
last share makes up for the rounding of the others, those of the adversary because its commands have
one branch each. -/
theorem fixed_chances_sum (l : Level) (c : Configuration) (map : ProbabilityMap)
    (hmap : map.Accepted) :
    ∃ m, Model.ofEncoding l (.ofKind c.encoding l) { c with mode := .fixed map } = .ok m ∧
      ((∀ goal ∈ l.goals, goal < l.size) → Model.ofLevel l { c with mode := .fixed map } = .ok m) ∧
      ∀ command ∈ m.commands, ∃ chances, (∀ s, command.HasChances s chances) ∧ chances.sum = 1 := by
  obtain ⟨m, outcomes, hm, hmade, hweighed⟩ := Model.exists_fixed l (.ofKind c.encoding l) c hmap
  refine ⟨m, hm, fun hgoals => Model.ofLevel_eq hgoals hm, fun command hcommand => ?_⟩
  rw [hmade.commands, List.mem_append] at hcommand
  rcases hcommand with hturn | hdrift
  · obtain ⟨t, ht, rfl⟩ := List.mem_map.mp hturn
    obtain ⟨cell, -, rfl⟩ := List.mem_map.mp ht
    obtain ⟨share, -, hweighing⟩ := hweighed cell
    obtain ⟨chances, hchances, hsum⟩ := hweighing.exists_chances
    exact ⟨chances, fun s => Turn.hasChances_iff.mpr (hchances s), hsum⟩
  · -- The commands of the adversary leave nothing to chance.
    refine ⟨[1], fun s => ?_, List.sum_singleton⟩
    split at hdrift
    next =>
      rcases mem_driftCommands.mp hdrift with
        ⟨source, dir, target, -, -, way, -, rfl⟩ | rfl <;> exact haveChances_certain s
    next => cases hdrift

/-- Weights in a corridor whose quotients by their total are rounded. -/
theorem fixed_chances_sum_corridor :
    ∃ map m, ProbabilityMap.ofText "u=1,d=2,l=3,r=7".toList = .ok map ∧
      Model.ofLevel .corridor { encoding := .box, mode := .fixed map } = .ok m ∧
      ∀ command ∈ m.commands, ∃ chances, (∀ s, command.HasChances s chances) ∧ chances.sum = 1 := by
  obtain ⟨map, hmap, -⟩ := exists_ok_of_any (x := ProbabilityMap.ofText "u=1,d=2,l=3,r=7".toList)
    (p := fun _ => true) (by decide +kernel)
  obtain ⟨m, -, hm, hsum⟩ := fixed_chances_sum .corridor { encoding := .box } map
    (ProbabilityMap.accepted_of_ofText hmap)
  exact ⟨map, m, hmap, hm (by decide), hsum⟩

/-! ## Weights of some size -/

/-- No weight is smaller than ten units, unless it is nought. -/
def ProbabilityMap.Coarse (map : ProbabilityMap) : Prop :=
  ∀ label, (map.weight label).isZero ∨ 10 * unit ≤ (map.weight label).value

namespace Commands

/-- The steps whose directions have a weight. -/
def weightedSteps (map : ProbabilityMap) (row : Level.StepRow) : Level.StepRow :=
  row.filter fun x => !(map.toward x.1).isZero

/-- What the weights of a map ask of a cell: every motion of a step whose direction has a weight,
and drift if it has one. -/
def weightedOutcomes (map : ProbabilityMap) (row : Level.StepRow) : List Outcome :=
  (weightedSteps map row).flatMap (fun x => x.2.motions.map .attempt) ++
    if map.drift.isZero then [] else [.drift]

/-- A step counts if its direction has a weight. -/
theorem weightedSteps_cons (map : ProbabilityMap) (x : Direction × Step) (row : Level.StepRow) :
    weightedSteps map (x :: row) =
      if (map.toward x.1).isZero then weightedSteps map row else x :: weightedSteps map row := by
  rw [weightedSteps, List.filter_cons]
  cases (map.toward x.1).isZero <;> rfl

/-- Dropping steps keeps the order of directions. -/
theorem sublist_weightedSteps (map : ProbabilityMap)
    (hrow : (row.map (·.1)).Sublist Direction.all) :
    ((weightedSteps map row).map (·.1)).Sublist Direction.all :=
  (List.filter_sublist.map _).trans hrow

/-- The motions of a step without weight get no share. -/
theorem IsMotionShare.eq_zero {x : Direction × Step} {d : Decimal} (h : IsMotionShare map x d)
    (hzero : (map.toward x.1).isZero) : d.value = 0 := by
  rw [IsMotionShare, Decimal.isZero_iff.mp hzero, zero_div] at h
  have hle := h.le_natCast (n := 0) (by simp)
  exact le_antisymm (by simpa using hle) h.nonneg

/-- **Half of ten units**, rounded, is large enough for a share.  A step has at most two motions,
and rounding takes away at most half a unit. -/
theorem IsMotionShare.le_value {x : Direction × Step} {d : Decimal} (h : IsMotionShare map x d)
    (hcoarse : map.Coarse) (hsome : ¬ (map.toward x.1).isZero) : 9 / 2 * unit ≤ d.value := by
  obtain ⟨hpos, hfew⟩ := length_motions x.2
  have hpart : 10 * unit / 2 ≤ (map.toward x.1).value / x.2.motions.length := by
    have hlarge := (hcoarse (.toward x.1)).resolve_left hsome
    have hcast : (x.2.motions.length : ℚ) ≤ 2 := by exact_mod_cast hfew
    have hunit := Decimal.unit_pos
    have hlength : (0 : ℚ) < x.2.motions.length := by exact_mod_cast hpos
    exact div_le_div₀ ((mul_pos (by norm_num) hunit).le.trans hlarge) hlarge hlength hcast
  linarith [Decimal.Approximates.ge h]

/-- What is kept of the motions are those of steps whose directions have a weight.  The others have
shares of nought, and these have shares above it. -/
theorem kept_attempts (hcoarse : map.Coarse) (hshare : ∀ x, IsMotionShare map x (share x))
    (row : Level.StepRow) :
    kept (attempts row share) = attempts (weightedSteps map row) share := by
  induction row with
  | nil => rfl
  | cons x row ih =>
      rw [attempts_cons, kept_append, ih, weightedSteps_cons]
      have hmotions : ∀ o ∈ x.2.motions.map fun motion => (share x, Outcome.attempt motion),
          o.1 = share x := by
        intro o ho
        obtain ⟨motion, -, rfl⟩ := List.mem_map.mp ho
        rfl
      by_cases hzero : (map.toward x.1).isZero
      · have hnone := (hshare x).eq_zero hzero
        rw [if_pos hzero, kept_eq_nil fun o ho => hmotions o ho ▸ hnone, List.nil_append]
      · have hpos := (mul_pos (by norm_num) Decimal.unit_pos).trans_le
          ((hshare x).le_value hcoarse hzero)
        rw [if_neg hzero, kept_eq_self fun o ho => hmotions o ho ▸ hpos, attempts_cons]

/-- The share of drift is kept if there is one, since a weight that is not nought is above nought.
-/
theorem kept_driftOutcome (hmap : map.Accepted) : kept (driftOutcome map) = driftOutcome map := by
  refine kept_eq_self fun o ho => ?_
  obtain ⟨hdrift, rfl⟩ := mem_driftOutcome.mp ho
  exact (hmap.pos_iff .drift).mpr hdrift

/-- **What is kept of a cell** is what the weights ask of it.  With no weight too small for its
parts, a share is nought only if its weight is. -/
theorem kept_cellShares (hmap : map.Accepted) (hcoarse : map.Coarse)
    (hshare : ∀ x, IsMotionShare map x (share x)) (row : Level.StepRow) :
    kept (cellShares map row share) = cellShares map (weightedSteps map row) share := by
  rw [cellShares, kept_append, kept_attempts hcoarse hshare, kept_driftOutcome hmap, cellShares]

/-- Without their shares the outcomes of a cell are those that the weights ask for. -/
theorem map_snd_cellShares (map : ProbabilityMap) (row : Level.StepRow)
    (share : Direction × Step → Decimal) :
    (cellShares map (weightedSteps map row) share).map (·.2) = weightedOutcomes map row := by
  rw [cellShares, List.map_append, attempts, List.map_flatMap, weightedOutcomes, driftOutcome]
  simp only [List.map_map]
  congr 1
  split <;> rfl

/-- The shares of a cell are large enough for chances above nought. -/
theorem le_cellShares (hcoarse : map.Coarse) (hshare : ∀ x, IsMotionShare map x (share x))
    (row : Level.StepRow) :
    ∀ o ∈ cellShares map (weightedSteps map row) share, 9 / 2 * unit ≤ o.1.value := by
  intro o ho
  rcases mem_cellShares.mp ho with ⟨x, hx, motion, -, rfl⟩ | ⟨hdrift, rfl⟩
  · exact (hshare x).le_value hcoarse (by simpa using (List.mem_filter.mp hx).2)
  · have hlarge : 10 * unit ≤ map.drift.value :=
      (hcoarse .drift).resolve_left ((Bool.not_eq_true _).mpr hdrift)
    linarith [Decimal.unit_pos]

/-- **The outcomes of a cell** are what the weights ask of it, each with a chance above nought.
Nothing that has a weight is dropped, and the last share stays above nought. -/
theorem CellOutcomes.of_coarse (h : CellOutcomes map row outcomes) (hmap : map.Accepted)
    (hcoarse : map.Coarse) (hrow : (row.map (·.1)).Sublist Direction.all) :
    outcomes.map (·.2) = orStay (weightedOutcomes map row) ∧
      ∃ chances, (∀ s, HaveChances s (outcomes.map (·.1)) chances) ∧ ∀ x ∈ chances, 0 < x := by
  obtain ⟨share, hshare, hweighing⟩ := h
  rw [kept_cellShares hmap hcoarse hshare] at hweighing
  have hweighted := sublist_weightedSteps map hrow
  refine ⟨?_, ?_⟩
  · rw [hweighing.outcomes_eq, map_snd_cellShares]
  · obtain ⟨chances, hchances, -⟩ := hweighing.exists_chances
    refine ⟨chances, hchances, ?_⟩
    exact hweighing.pos (exactSum_cellShares_le hmap hshare hweighted)
      (le_cellShares hcoarse hshare row) (length_cellShares_le hweighted) (hchances fun _ => none)

/-- The commands without an action are those of the cells.  The adversary's have one, and this tells
them apart in the model itself. -/
theorem filter_isNone {m : Model} {e : Encoding} {gate : Gate}
    {outcomes : Nat → List (Option Expr × Outcome)}
    (h : m.IsMade l e (.fixed map) (l.cellTurns gate outcomes)) :
    m.commands.filter (·.action?.isNone) = (l.cellTurns gate outcomes).map (Turn.command e) := by
  have hturns : ((l.cellTurns gate outcomes).map (Turn.command e)).filter (·.action?.isNone) =
      (l.cellTurns gate outcomes).map (Turn.command e) := by
    rw [List.filter_eq_self]
    intro command hcommand
    obtain ⟨t, ht, rfl⟩ := List.mem_map.mp hcommand
    obtain ⟨cell, -, rfl⟩ := List.mem_map.mp ht
    rfl
  have hdrift : (driftCommands l e).filter (·.action?.isNone) = [] := by
    rw [List.filter_eq_nil_iff]
    intro command hcommand
    rcases mem_driftCommands.mp hcommand with ⟨source, dir, target, -, -, way, -, rfl⟩ | rfl <;>
      exact Bool.false_ne_true
  rw [h.commands, List.filter_append, hturns]
  split
  next => rw [hdrift, List.append_nil]
  next => exact List.append_nil _

end Commands

/-- **Where no weight is too small**, the commands without an action are one for each reachable
cell: its branches are what the weights ask of the cell, and all chances are above nought.  Only
where the weights ask for nothing, the state stays. -/
theorem fixed_chances_pos (l : Level) (c : Configuration) (map : ProbabilityMap)
    (hmap : map.Accepted) (hcoarse : map.Coarse) :
    ∃ m, Model.ofEncoding l (.ofKind c.encoding l) { c with mode := .fixed map } = .ok m ∧
      ((∀ goal ∈ l.goals, goal < l.size) → Model.ofLevel l { c with mode := .fixed map } = .ok m) ∧
      List.Forall₂ (fun cell command =>
          command.guard = (fixedGate map).guard (.ofKind c.encoding l) cell ∧
          command.branches.map (·.assignments) =
            (orStay (weightedOutcomes map (l.stepsFrom cell))).map
              (·.assignments (.ofKind c.encoding l)) ∧
          ∃ chances, (∀ s, command.HasChances s chances) ∧ ∀ x ∈ chances, 0 < x)
        l.reachable.toList (m.commands.filter (·.action?.isNone)) := by
  obtain ⟨m, outcomes, hm, hmade, hweighed⟩ := Model.exists_fixed l (.ofKind c.encoding l) c hmap
  refine ⟨m, hm, fun hgoals => Model.ofLevel_eq hgoals hm, ?_⟩
  rw [filter_isNone hmade, Level.cellTurns, List.map_map, List.forall₂_map_right_iff]
  refine List.forall₂_same.mpr fun cell _ => ?_
  obtain ⟨houtcomes, chances, hchances, hpos⟩ :=
    (hweighed cell).of_coarse hmap hcoarse (l.sublist_stepsFrom cell)
  refine ⟨rfl, ?_, chances, fun s => Turn.hasChances_iff.mpr (hchances s), hpos⟩
  rw [← houtcomes, List.map_map]
  exact List.map_map ..

/-- One half is far more than ten units. -/
theorem ProbabilityMap.coarse_rightOrDrift : rightOrDrift.Coarse := by
  have hnought : Decimal.nought.isZero := by decide
  have hhalf : 10 * unit ≤ Decimal.half.value := by
    norm_num [unit, Decimal.value, Decimal.half, tenPow]
  intro label
  rcases label with (_ | _ | _ | _) | _
  · exact .inl hnought
  · exact .inl hnought
  · exact .inl hnought
  · exact .inr hhalf
  · exact .inr hhalf

/-- The cells of a corridor in which the box drifts. -/
theorem fixed_chances_pos_corridor :
    ∃ m, Model.ofLevel .corridor { mode := .fixed .rightOrDrift } = .ok m ∧
      (m.commands.filter (·.action?.isNone)).length = 4 ∧
      ∀ command ∈ m.commands.filter (·.action?.isNone),
        ∃ chances, (∀ s, command.HasChances s chances) ∧ ∀ x ∈ chances, 0 < x := by
  obtain ⟨m, -, hm, hcells⟩ := fixed_chances_pos .corridor {} .rightOrDrift
    ProbabilityMap.accepted_rightOrDrift ProbabilityMap.coarse_rightOrDrift
  have hfour : Level.corridor.reachable.toList.length = 4 := by decide
  refine ⟨m, hm (by decide), hcells.length_eq.symm.trans hfour, fun command hcommand => ?_⟩
  obtain ⟨cell, -, -, -, hpos⟩ := exists_of_forall₂ hcells hcommand
  exact hpos

/-- Two corridors that cross. -/
def Board.cross : Board :=
  ⟨5, 5, #[
    .wall, .wall, .floor, .wall, .wall,
    .wall, .wall, .floor, .wall, .wall,
    .floor, .floor, .floor, .floor, .floor,
    .wall, .wall, .floor, .wall, .wall,
    .wall, .wall, .floor, .wall, .wall]⟩

/-- The player stands where two corridors cross. -/
def Level.cross : Level where
  board := .cross
  player := 12
  goals := []
  reachable := Board.cross.region 12
  tiles_size := rfl
  player_floor := rfl
  goals_ascending := by decide
  reachable_eq := rfl

/-- Weights that sum to one and need all places. -/
def ProbabilityMap.steepText : String :=
  "u=0.4999999999999999999999999999,d=0.4999999999999999999999999999," ++
    "l=0.0000000000000000000000000001,r=0.0000000000000000000000000002"

/-- Whether the probability of a branch is a decimal below nought. -/
def Branch.isBelowNought (b : Branch) : Bool :=
  match b.probability? with
  | some (.real d) => d.isNegative
  | _ => false

/-- A decimal below nought is a chance below nought, in every state. -/
theorem Branch.chance?_neg {b : Branch} (h : b.isBelowNought) :
    ∃ x, (∀ s, chance? s b.probability? = some x) ∧ x < 0 := by
  unfold isBelowNought at h
  split at h
  next d hd => exact ⟨d.value, fun s => by rw [hd]; rfl, Decimal.isNegative_iff.mp h⟩
  next => cases h

/-- **Small weights are lost** where the corridors cross: of the eight motions that have a weight
the command keeps six, and one of them has a chance below nought. -/
theorem fixed_chances_cross :
    ∃ map m command, ProbabilityMap.ofText ProbabilityMap.steepText.toList = .ok map ∧
      Model.ofLevel .cross { mode := .fixed map } = .ok m ∧
      Level.cross.reachable.toList[4]? = some 12 ∧ m.commands[4]? = some command ∧
      (weightedOutcomes map (Level.cross.stepsFrom 12)).length = 8 ∧
      command.branches.length = 6 ∧
      ∃ b ∈ command.branches, ∃ x, (∀ s, chance? s b.probability? = some x) ∧ x < 0 := by
  obtain ⟨map, hmap, h⟩ := exists_ok_of_any
    (x := ProbabilityMap.ofText ProbabilityMap.steepText.toList)
    (p := fun map => (weightedOutcomes map (Level.cross.stepsFrom 12)).length == 8 &&
      (Model.ofLevel .cross { mode := .fixed map }).toOption.any fun m =>
        m.commands[4]?.any fun command =>
          command.branches.length == 6 && command.branches.any Branch.isBelowNought)
    (by decide +kernel)
  rw [Bool.and_eq_true, beq_iff_eq] at h
  obtain ⟨hweighted, hmodel⟩ := h
  obtain ⟨m, hm, hcommands⟩ := exists_ok_of_any hmodel
  obtain ⟨command, hcommand, hbranches⟩ := (Option.any_eq_true _ _).mp hcommands
  rw [Bool.and_eq_true, beq_iff_eq] at hbranches
  obtain ⟨hlength, hneg⟩ := hbranches
  obtain ⟨b, hb, hbelow⟩ := List.any_eq_true.mp hneg
  exact ⟨map, m, command, hmap, hm, by decide, hcommand, hweighted, hlength, b, hb,
    Branch.chance?_neg hbelow⟩

end Sokoban
