import Sokoban.Generation
import Sokoban.Proofs.CellShares
import Sokoban.Proofs.Drift
import Sokoban.Proofs.Slips

/-! # The commands of a mode

In every mode the commands of the player are turns, the same ones in every encoding, and they are
followed by those of the adversary where drift has a weight.  `exists_fixedTurns`,
`exists_noisyTurns` and `nondeterministic_eq` give the turns of the three modes, one by one;
`Mode.exists_turns` is what they have in common: all turns are sound.

The first two say that the commands exist.  This is where decimals come in: the chances of outcomes
are computed, and the computation could fail for weights that are not those of an accepted map.
They also say where the outcomes of a turn come from (`Commands.CellOutcomes`,
`Commands.StepOutcomes`), which settles its chances.

That the turns do not depend on the encoding is in the order of the quantifiers: the outcomes are
found first, and every encoding has commands for them.
-/

namespace Sokoban

namespace Mode

/-- Modes whose weights come from accepted maps. -/
def Accepted (mode : Mode) : Prop :=
  match mode with
  | .fixed map => map.Accepted
  | .noise n => n.Accepted
  | .nondeterministic => True

/-- Whether a mode declares drift. -/
def drifts (mode : Mode) : Bool :=
  match mode with
  | .fixed map => !map.drift.isZero
  | .noise _ | .nondeterministic => false

end Mode

/-- The turns of a cell for its steps, one for each, with the name of the direction for an action.
-/
def Level.stepTurns (l : Level) (outcomes : Nat → Direction × Step → List (Option Expr × Outcome)) :
    List Turn :=
  l.reachable.toList.flatMap fun cell => (l.stepsFrom cell).map fun x =>
    ⟨some x.1.name, cell, .possible x.2, outcomes cell x⟩

/-- The turns of all cells where nobody asks for a step, one for each cell and without an action. -/
def Level.cellTurns (l : Level) (gate : Gate) (outcomes : Nat → List (Option Expr × Outcome)) :
    List Turn :=
  l.reachable.toList.map fun cell => ⟨none, cell, gate, outcomes cell⟩

namespace Commands

variable {map : ProbabilityMap} {noise : Noise}

/-! ## Weights, noise and choice -/

/-- **Where weights choose**, there is one turn for every reachable cell, and the adversary's
commands are added if drift has a weight. -/
theorem exists_fixedTurns (l : Level) (hmap : map.Accepted) :
    ∃ outcomes : Nat → List (Option Expr × Outcome),
      (∀ cell, CellOutcomes map (l.stepsFrom cell) (outcomes cell)) ∧
      ∀ e, fixed l e map = .ok ((l.cellTurns (fixedGate map) outcomes).map (Turn.command e) ++
        if (Mode.fixed map).drifts then driftCommands l e else []) := by
  choose outcomes hweighed hok using fun cell =>
    exists_fixedOutcomes hmap (l.sublist_stepsFrom cell)
  refine ⟨outcomes, hweighed, fun e => ?_⟩
  have hcommands : l.stepTable.mapM (fun x => fixedCommand e map x.1 x.2) =
      .ok ((l.cellTurns (fixedGate map) outcomes).map (Turn.command e)) := by
    rw [Level.stepTable_eq, Level.cellTurns, mapM_eq_ok_iff, List.forall₂_map_left_iff,
      List.forall₂_map_right_iff, List.forall₂_map_right_iff]
    exact List.forall₂_same.mpr fun cell _ => hok cell e cell
  refine bind_eq_ok_iff.mpr ⟨_, hcommands, ?_⟩
  cases hdrift : map.drift.isZero with
  | true => simp [Mode.drifts, hdrift, pure, Except.pure]
  | false => simp [Mode.drifts, hdrift, pure, Except.pure]

/-- **With noise**, there is one turn for every step, whose outcomes are the step itself and the
slips. -/
theorem exists_noisyTurns (l : Level) (hnoise : noise.Accepted) :
    ∃ outcomes : Nat → Direction × Step → List (Option Expr × Outcome),
      (∀ cell x, StepOutcomes noise (l.stepsFrom cell) x.1 x.2 (outcomes cell x)) ∧
      ∀ e, noisy l e noise = .ok ((l.stepTurns outcomes).map (Turn.command e)) := by
  choose outcomes hnoisy hok using fun cell (x : Direction × Step) =>
    exists_noisyOutcomes hnoise (l.sublist_stepsFrom cell) x.1 x.2
  refine ⟨outcomes, hnoisy, fun e => ?_⟩
  refine bind_eq_ok_iff.mpr ⟨l.reachable.toList.map fun cell => (l.stepsFrom cell).map fun x =>
    Turn.command e ⟨some x.1.name, cell, .possible x.2, outcomes cell x⟩, ?_, ?_⟩
  · rw [Level.stepTable_eq, mapM_eq_ok_iff, List.forall₂_map_left_iff, List.forall₂_map_right_iff]
    refine List.forall₂_same.mpr fun cell _ => ?_
    rw [mapM_eq_ok_iff, List.forall₂_map_left_iff, List.forall₂_map_right_iff]
    refine List.forall₂_same.mpr fun x _ => ?_
    exact bind_eq_ok_iff.mpr ⟨_, hok cell x e, rfl⟩
  · rw [Level.stepTurns, List.map_flatMap, List.flatMap_def]
    simp only [List.map_map]
    rfl

/-- **Where the player chooses**, there is one turn for every step, with the step for its one
outcome. -/
theorem nondeterministic_eq (l : Level) (e : Encoding) :
    nondeterministic l e =
      (l.stepTurns fun _ x => [(none, .take x.2)]).map (Turn.command e) := by
  rw [nondeterministic, Level.stepTable_eq, List.flatMap_map, Level.stepTurns, List.map_flatMap]
  simp only [List.map_map]
  rfl

end Commands

/-! ## All modes -/

/-- The turns of cells are sound if they try motions of their steps.  Their gate asks for drift just
where drift is declared. -/
theorem sound_of_mem_cellTurns {l : Level} {map : ProbabilityMap}
    {outcomes : Nat → List (Option Expr × Outcome)}
    (h : ∀ cell, Commands.AreWeighted map (l.stepsFrom cell) (outcomes cell))
    {t : Turn} (ht : t ∈ l.cellTurns (Commands.fixedGate map) outcomes) :
    t.Sound l (!map.drift.isZero) := by
  obtain ⟨cell, hcell, rfl⟩ := List.mem_map.mp ht
  refine ⟨CellSet.mem_toList.mp hcell, ?_, fun o ho => ?_⟩
  · unfold Commands.fixedGate
    split <;> simp_all [Gate.Sound]
  · rcases (h cell).2 with hstay | hweighted
    · rw [hstay, List.mem_singleton] at ho
      rw [ho]
      exact trivial
    · rcases hweighted o ho with ⟨dir, step, hstep, motion, hmotion, heq⟩ | ⟨hdrift, heq⟩
      · rw [heq]
        exact ⟨dir, step, Level.mem_stepsFrom.mp hstep, hmotion⟩
      · rw [heq]
        simp [Outcome.Sound, hdrift]

/-- The turns of steps are sound if they take their step or try another one of the same cell.  Their
gate asks whether the step can be taken, so it is taken without asking again. -/
theorem sound_of_mem_stepTurns {l : Level}
    {outcomes : Nat → Direction × Step → List (Option Expr × Outcome)}
    (h : ∀ cell x, ∀ o ∈ outcomes cell x, o.2 = .take x.2 ∨
      ∃ other slip, (other, slip) ∈ l.stepsFrom cell ∧ o.2 = .slip slip)
    {t : Turn} (ht : t ∈ l.stepTurns outcomes) : t.Sound l false := by
  obtain ⟨cell, hcell, ht⟩ := List.mem_flatMap.mp ht
  obtain ⟨⟨dir, step⟩, hx, rfl⟩ := List.mem_map.mp ht
  have hstep : ∃ dir, l.step? cell dir = some step := ⟨dir, Level.mem_stepsFrom.mp hx⟩
  refine ⟨CellSet.mem_toList.mp hcell, hstep, fun o ho => ?_⟩
  rcases h cell (dir, step) o ho with htake | ⟨other, slip, hslip, heq⟩
  · rw [htake]
    exact ⟨rfl, hstep⟩
  · rw [heq]
    exact ⟨other, Level.mem_stepsFrom.mp hslip⟩

/-- With noise, all turns are sound: slips are steps of the same cell. -/
theorem sound_of_mem_noisyTurns {l : Level} {noise : Noise}
    {outcomes : Nat → Direction × Step → List (Option Expr × Outcome)}
    (h : ∀ cell x, Commands.StepOutcomes noise (l.stepsFrom cell) x.1 x.2 (outcomes cell x))
    {t : Turn} (ht : t ∈ l.stepTurns outcomes) : t.Sound l false := by
  refine sound_of_mem_stepTurns (fun cell x o ho => ?_) ht
  obtain ⟨intended?, slips, heq, hslips⟩ := (h cell x).exists_slips
  rw [heq] at ho
  rcases List.mem_cons.mp ho with rfl | ho
  · exact .inl rfl
  · obtain ⟨other, -, slip, hslip, heq⟩ := exists_of_forall₂ hslips ho
    exact .inr ⟨other, slip, hslip, heq⟩

/-- Where the player chooses, all turns are sound. -/
theorem sound_of_mem_takeTurns {l : Level} {t : Turn}
    (ht : t ∈ l.stepTurns fun _ x => [(none, .take x.2)]) : t.Sound l false :=
  sound_of_mem_stepTurns
    (fun _ _ _ ho => .inl (congrArg Prod.snd (List.mem_singleton.mp ho))) ht

/-- **In every mode** the player's commands are sound turns that do not depend on the encoding.  One
case for each mode, from its own turns; all that follows from this is said of every mode at once. -/
theorem Mode.exists_turns (l : Level) {mode : Mode} (h : mode.Accepted) :
    ∃ turns : List Turn, (∀ t ∈ turns, t.Sound l mode.drifts) ∧
      ∀ e, Model.commandsOf l e mode = .ok
        (turns.map (Turn.command e) ++ if mode.drifts then Commands.driftCommands l e else []) := by
  cases mode with
  | fixed map =>
      obtain ⟨outcomes, hweighed, hok⟩ := Commands.exists_fixedTurns l h
      have hweighted := fun cell => (hweighed cell).areWeighted
      exact ⟨_, fun t ht => sound_of_mem_cellTurns hweighted ht, hok⟩
  | noise n =>
      obtain ⟨outcomes, hnoisy, hok⟩ := Commands.exists_noisyTurns l h
      refine ⟨_, fun t ht => sound_of_mem_noisyTurns hnoisy ht, fun e => ?_⟩
      rw [Model.commandsOf, hok e, Mode.drifts]
      simp
  | nondeterministic =>
      refine ⟨_, fun t ht => sound_of_mem_takeTurns ht, fun e => ?_⟩
      rw [Model.commandsOf, Commands.nondeterministic_eq, Mode.drifts]
      simp

end Sokoban
