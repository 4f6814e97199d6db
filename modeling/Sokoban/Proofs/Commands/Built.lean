import Sokoban.Proofs.Commands
import Sokoban.Proofs.Encoding.Built

/-! # What commands are built of

The guards and values of commands are built over the variables of the model.  Turns keep to the
steps of their cell, so they assign reachable cells only; what an encoding builds over its variables
is then put together (`InScope.turn`, `InScope.driftCommand`).  No encoding and no mode is looked
at: what is asked of an encoding is `Encoding.Builds`, and of a turn that it is sound.

Probabilities are of a few forms (`Probability`), and which of them come up depends on the mode,
just as actions do.  `suits_of_mem_commandsOf` reads this off the commands, for any decimals that
the arithmetic has found: the hypothesis is that it has found some, not which.
-/

namespace Sokoban

open Sokoban.Expr (Built)

/-- Guard and assignments of a command are built over variables. -/
structure Command.Builds (vars : List Variable) (c : Command) : Prop where
  guard : Built vars .bool c.guard
  branches : ∀ b ∈ c.branches, Assigns vars b.assignments

/-- The variables of a model comprise what its commands are built over: those of the encoding, the
position, and drift where it has a turn. -/
structure InScope (l : Level) (e : Encoding) (drifts : Bool) (vars : List Variable) : Prop where
  builds : e.Builds l vars
  position : Model.positionOf l ∈ vars
  drift : drifts → Variable.bool driftName false ∈ vars

variable {l : Level} {e : Encoding} {drifts : Bool} {vars : List Variable} {cell : Nat}
  {motion : Motion} {step : Step}

namespace InScope

variable (h : InScope l e drifts vars)

include h

/-- Where the player is can be asked of the position. -/
theorem built_playerAt (cell : Nat) : Built vars .bool (Commands.playerAt cell) :=
  .here h.position rfl cell

/-- Whose turn it is can be asked where drift is declared. -/
theorem built_drift (hdrifts : drifts) : Built vars .bool (.var driftName) :=
  .var (h.drift hdrifts)

/-- The player goes to a cell within reach while boxes are moved.  The position is no variable of a
box, so nothing is assigned twice. -/
theorem assigns_goTo {as : List Assignment} (has : Assigns vars as)
    (hboxes : ∀ a ∈ as, ∃ n, a.target = boxName n) (hcell : l.reachable.contains cell) :
    Assigns vars (Encoding.goTo cell :: as) := by
  refine has.cons h.position (.cell (Level.firstCell_le hcell) (Level.le_lastCell hcell)) ?_
  intro a ha
  obtain ⟨n, hn⟩ := hboxes a ha
  exact hn ▸ boxName_ne_positionName n

/-! ## Motions and steps -/

/-- The guard and the updates of a motion within reach are built over the variables: the guard asks
for occupied cells, and what is assigned are a cell within reach and boxes. -/
theorem motionEffect (hreach : motion.InReach l) :
    Built vars .bool (e.motionEffect motion).guard ∧
      Assigns vars (e.motionEffect motion).updates := by
  cases motion with
  | walk target =>
      exact ⟨.not (h.builds.occupied target), h.assigns_goTo (.nil vars) nofun hreach⟩
  | shove target beyond =>
      obtain ⟨htarget, hbeyond, hne⟩ := hreach
      exact ⟨.all_pair (h.builds.occupied target) (.not (h.builds.occupied beyond)),
        h.assigns_goTo (h.builds.shove htarget hbeyond hne) h.builds.shove_targets htarget⟩

/-- So are those of a step, which may be either motion.  Its cells are those of its motions. -/
theorem stepEffect (hstep : ∃ dir, l.step? cell dir = some step) :
    Built vars .bool (e.stepEffect step).guard ∧ Assigns vars (e.stepEffect step).updates := by
  have hmotions := inReach_motions hstep
  cases step with
  | move start target => exact h.motionEffect (hmotions (.walk target) List.mem_cons_self)
  | push start target beyond =>
      have hshove := h.motionEffect (hmotions (.shove target beyond) (by simp [Step.motions]))
      exact ⟨.not (.all_pair (h.builds.occupied target) (h.builds.occupied beyond)), hshove.2⟩

/-! ## Turns -/

/-- What a sound outcome assigns is built over the variables: a motion of a step of the cell,
nothing, or drift with it. -/
theorem outcome {gate : Gate} {o : Outcome} (hsound : o.Sound l drifts cell gate) :
    Assigns vars (o.assignments e) := by
  cases o with
  | stay => exact .nil vars
  | attempt motion =>
      obtain ⟨dir, step, hstep, hmotion⟩ := hsound
      obtain ⟨hguard, hupdates⟩ := h.motionEffect (inReach_of_step? hstep hmotion)
      exact hupdates.conditional hguard
  | take step => exact (h.stepEffect hsound.2).2
  | slip step =>
      obtain ⟨hguard, hupdates⟩ := h.stepEffect hsound
      exact hupdates.conditional hguard
  | drift => exact (Assigns.nil vars).cons (h.drift hsound) (.bool true) nofun

/-- What a turn waits for is built over the variables. -/
theorem gate {gate : Gate} (hsound : gate.Sound l drifts cell) :
    Built vars .bool (gate.guard e cell) := by
  cases gate with
  | always => exact h.built_playerAt cell
  | possible step => exact .all_pair (h.built_playerAt cell) (h.stepEffect hsound).1
  | settled => exact .all_pair (h.built_playerAt cell) (.not (h.built_drift hsound))

/-- **A sound turn** is built over the variables, in any encoding.  The turn itself knows no
variables, so this is where those of the encoding come in. -/
theorem turn {t : Turn} (hsound : t.Sound l drifts) : (t.command e).Builds vars := by
  refine ⟨h.gate hsound.gate, fun b hb => ?_⟩
  obtain ⟨o, ho, rfl⟩ := List.mem_map.mp hb
  exact h.outcome (hsound.outcomes o ho)

/-- **A command of the adversary** is built over the variables: it slides a box between reachable
cells and hands the turn back. -/
theorem driftCommand (hnames : ∀ {source target}, ∀ way ∈ e.slides source target,
      ∀ a ∈ way.2, ∃ n, a.target = boxName n) (hdrifts : drifts) {c : Command}
    (hc : c ∈ Commands.driftCommands l e) : c.Builds vars := by
  have hrest : Assigns vars [⟨driftName, .bool false⟩] :=
    (Assigns.nil vars).cons (h.drift hdrifts) (.bool false) nofun
  rcases Commands.mem_driftCommands.mp hc with
    ⟨source, dir, target, hsource, htarget, way, hway, rfl⟩ | rfl
  · obtain ⟨hpick, hupdates⟩ := h.builds.slides hsource (Level.ahead?_eq_some_iff.mp htarget).2
      (Level.ahead?_ne htarget).symm way hway
    refine ⟨.all fun f hf => ?_, fun b hb => ?_⟩
    · simp only [List.mem_cons, List.not_mem_nil, or_false] at hf
      rcases hf with rfl | rfl | rfl | rfl
      · exact h.built_drift hdrifts
      · exact hpick
      · exact .not (h.builds.occupied target)
      · exact .elsewhere h.position rfl target
    · obtain rfl := List.mem_singleton.mp hb
      refine hupdates.concat (h.drift hdrifts) (.bool false) fun a ha => ?_
      obtain ⟨n, hn⟩ := hnames way hway a ha
      exact hn ▸ boxName_ne_driftName n
  · refine ⟨h.built_drift hdrifts, fun b hb => ?_⟩
    obtain rfl := List.mem_singleton.mp hb
    exact hrest

end InScope

/-! ## Probabilities and actions -/

/-- The probabilities of a mode: shares where weights choose; with noise, the constant for success,
or failure, or a part of failure. -/
inductive Probability : Mode → Expr → Prop
  | share (map : ProbabilityMap) (d : Decimal) : Probability (.fixed map) (.real d)
  | success (noise : Noise) : Probability (.noise noise) (.var muName)
  | failure (noise : Noise) : Probability (.noise noise) Noise.failure
  | even (noise : Noise) (n : Nat) : Probability (.noise noise) (.div Noise.failure (.nat n))
  | part (noise : Noise) (d : Decimal) : Probability (.noise noise) (.mul Noise.failure (.real d))

/-- A command has an outcome, and its action and probabilities are those of a mode. -/
structure Command.Suits (mode : Mode) (c : Command) : Prop where
  ne_nil : c.branches ≠ []
  action : ∀ action ∈ c.action?, action ∈ Model.actionsOf mode
  probability : ∀ b ∈ c.branches, ∀ p ∈ b.probability?, Probability mode p

variable {noise : Noise} {map : ProbabilityMap} {others : List Direction} {b : Branch}
  {branches : List Branch} {commands : List Command} {c : Command} {dir : Direction}

/-- Equal parts of the failure probability are failure itself or a quotient of it. -/
theorem probability_evenParts {part : Direction × Expr} (h : part ∈ Noise.evenParts others) :
    Probability (.noise noise) part.2 := by
  obtain ⟨other, -, rfl⟩ := List.mem_map.mp h
  simp only
  split
  next => exact .failure noise
  next => exact .even noise others.length

/-- A weighted part of the failure probability is a product, or failure itself. -/
theorem probability_part (noise : Noise) (share : Decimal) :
    Probability (.noise noise) (Noise.part share) := by
  unfold Noise.part
  split
  next => exact .failure noise
  next => exact .part noise share

/-- What distributing the failure probability gives are probabilities with noise, in either
residual. -/
theorem probability_distribute {intended? : Option Expr} {parts : List (Direction × Expr)}
    (h : noise.distribute others = .ok (intended?, parts)) :
    (∀ p ∈ intended?, Probability (.noise noise) p) ∧
      ∀ part ∈ parts, Probability (.noise noise) part.2 := by
  have hsuccess : ∀ p ∈ some (Expr.var muName), Probability (.noise noise) p := by
    intro p hp
    obtain rfl := Option.some.inj hp
    exact .success noise
  unfold Noise.distribute at h
  split at h
  next =>
    obtain ⟨rfl, rfl⟩ := Prod.mk.inj (Except.ok.inj h)
    exact ⟨nofun, nofun⟩
  next =>
    split at h
    next =>
      obtain ⟨rfl, rfl⟩ := Prod.mk.inj (Except.ok.inj h)
      exact ⟨hsuccess, fun part hpart => probability_evenParts hpart⟩
    next map _ =>
      obtain ⟨shares?, -, h⟩ := bind_eq_ok_iff.mp h
      cases shares? with
      | none =>
          obtain ⟨rfl, rfl⟩ := Prod.mk.inj (pure_eq_ok_iff.mp h)
          exact ⟨hsuccess, fun part hpart => probability_evenParts hpart⟩
      | some shares =>
          obtain ⟨rfl, rfl⟩ := Prod.mk.inj (pure_eq_ok_iff.mp h)
          refine ⟨hsuccess, fun part hpart => ?_⟩
          obtain ⟨x, -, rfl⟩ := List.mem_map.mp hpart
          exact probability_part noise x.2

/-- The branches of a step with noise have such probabilities, and there is one at least, of the
intended direction. -/
theorem probability_noisyBranches {effects : List (Direction × Effect)} {effect : Effect}
    (h : Commands.noisyBranches noise effects dir effect = .ok branches) :
    branches ≠ [] ∧ ∀ b ∈ branches, ∀ p ∈ b.probability?, Probability (.noise noise) p := by
  obtain ⟨⟨intended?, parts⟩, hparts, heq⟩ := bind_eq_ok_iff.mp h
  obtain rfl := pure_eq_ok_iff.mp heq
  obtain ⟨hintended, hothers⟩ := probability_distribute hparts
  refine ⟨List.cons_ne_nil _ _, fun b hb => ?_⟩
  rcases List.mem_cons.mp hb with rfl | hslip
  · exact hintended
  · obtain ⟨part, hpart, hslip⟩ := List.mem_filterMap.mp hslip
    obtain ⟨x, -, rfl⟩ := Option.map_eq_some_iff.mp hslip
    intro p hp
    obtain rfl := Option.some.inj hp
    exact hothers part hpart

/-- Weighted branches have shares for probabilities, and there is one at least.  Where nothing is
kept the state stays, and that is a branch too. -/
theorem probability_weightedBranches {shares : List (Decimal × List Assignment)}
    (h : Commands.weightedBranches shares = .ok branches) :
    branches ≠ [] ∧ ∀ b ∈ branches, ∀ p ∈ b.probability?, Probability (.fixed map) p := by
  unfold Commands.weightedBranches at h
  split at h
  next =>
    obtain rfl := Except.ok.inj h
    refine ⟨List.cons_ne_nil _ _, fun b hb => ?_⟩
    obtain rfl := List.mem_singleton.mp hb
    exact nofun
  next =>
    obtain ⟨scaled?, hscaled, h⟩ := bind_eq_ok_iff.mp h
    cases scaled? with
    | none =>
        obtain rfl := pure_eq_ok_iff.mp h
        refine ⟨List.cons_ne_nil _ _, fun b hb => ?_⟩
        obtain rfl := List.mem_singleton.mp hb
        exact nofun
    | some scaled =>
        obtain rfl := pure_eq_ok_iff.mp h
        obtain ⟨hshares, hne⟩ := ne_nil_of_exactShares hscaled
        rw [ne_eq, List.map_eq_nil_iff] at hshares
        refine ⟨by simp [List.zip_eq_nil_iff, hshares, hne], fun b hb => ?_⟩
        obtain ⟨x, -, rfl⟩ := List.mem_map.mp hb
        intro p hp
        obtain rfl := Option.some.inj hp
        exact .share map x.2

/-- Every direction is an action. -/
theorem name_mem_actionsOf (dir : Direction) : dir.name ∈ Direction.all.map Direction.name :=
  List.mem_map_of_mem dir.mem_all

/-- Where the player chooses, commands have actions and no probabilities. -/
theorem suits_of_mem_nondeterministic (hc : c ∈ Commands.nondeterministic l e) :
    c.Suits .nondeterministic := by
  obtain ⟨⟨cell, row⟩, -, hc⟩ := List.mem_flatMap.mp hc
  obtain ⟨⟨dir, step⟩, -, rfl⟩ := List.mem_map.mp hc
  refine ⟨List.cons_ne_nil _ _, fun action haction => ?_, fun b hb => ?_⟩
  · obtain rfl := Option.some.inj haction
    exact name_mem_actionsOf dir
  · obtain rfl := List.mem_singleton.mp hb
    exact nofun

/-- With noise, commands have actions and probabilities with noise.  A cell with one step only has a
command without a probability. -/
theorem suits_of_mem_noisy (h : Commands.noisy l e noise = .ok commands) (hc : c ∈ commands) :
    c.Suits (.noise noise) := by
  obtain ⟨rows, hrows, heq⟩ := bind_eq_ok_iff.mp h
  obtain rfl := pure_eq_ok_iff.mp heq
  obtain ⟨row, hrow, hc⟩ := List.mem_flatten.mp hc
  obtain ⟨x, -, hcommands⟩ := exists_of_mem_mapM hrows hrow
  obtain ⟨⟨dir, effect⟩, -, hcommand⟩ := exists_of_mem_mapM hcommands hc
  obtain ⟨branches, hbranches, heq⟩ := bind_eq_ok_iff.mp hcommand
  obtain rfl := pure_eq_ok_iff.mp heq
  obtain ⟨hne, hprobability⟩ := probability_noisyBranches hbranches
  refine ⟨hne, fun action haction => ?_, hprobability⟩
  obtain rfl := Option.some.inj haction
  exact name_mem_actionsOf dir

/-- Where weights choose, commands have no actions and probabilities that are shares. -/
theorem suits_fixedCommand {row : Level.StepRow}
    (h : Commands.fixedCommand e map cell row = .ok c) : c.Suits (.fixed map) := by
  obtain ⟨shares, -, h⟩ := bind_eq_ok_iff.mp h
  split at h
  all_goals
    obtain ⟨branches, hbranches, heq⟩ := bind_eq_ok_iff.mp h
    obtain rfl := pure_eq_ok_iff.mp heq
    obtain ⟨hne, hprobability⟩ := probability_weightedBranches hbranches
    exact ⟨hne, nofun, hprobability⟩

/-- The adversary's commands have an action of their own, which is one of the mode if drift has a
weight. -/
theorem suits_driftCommand (hdrift : map.drift.isZero = false)
    (hc : c ∈ Commands.driftCommands l e) : c.Suits (.fixed map) := by
  have haction : driftName ∈ Model.actionsOf (.fixed map) := by
    simp [Model.actionsOf, hdrift]
  rcases Commands.mem_driftCommands.mp hc with ⟨source, dir, target, -, -, way, -, rfl⟩ | rfl
  all_goals
    refine ⟨List.cons_ne_nil _ _, fun action h => Option.some.inj h ▸ haction, fun b hb => ?_⟩
    obtain rfl := List.mem_singleton.mp hb
    exact nofun

/-- So all commands are those of the mode where weights choose.  The adversary's come behind the
player's, and only if drift has a weight. -/
theorem suits_of_mem_fixed (h : Commands.fixed l e map = .ok commands) (hc : c ∈ commands) :
    c.Suits (.fixed map) := by
  obtain ⟨turns, hturns, heq⟩ := bind_eq_ok_iff.mp h
  have hturn : ∀ c ∈ turns, c.Suits (.fixed map) := by
    intro c hc
    obtain ⟨x, -, hcommand⟩ := exists_of_mem_mapM hturns hc
    exact suits_fixedCommand hcommand
  obtain rfl := pure_eq_ok_iff.mp heq
  split at hc
  next => exact hturn c hc
  next hdrift =>
    rcases List.mem_append.mp hc with hc | hc
    · exact hturn c hc
    · exact suits_driftCommand (Bool.eq_false_iff.mpr hdrift) hc

/-- **Actions and probabilities** are those of the mode.  One case for each mode; the commands of
the adversary belong to the first. -/
theorem suits_of_mem_commandsOf {mode : Mode} (h : Model.commandsOf l e mode = .ok commands)
    (hc : c ∈ commands) : c.Suits mode := by
  cases mode with
  | fixed map => exact suits_of_mem_fixed h hc
  | noise noise => exact suits_of_mem_noisy h hc
  | nondeterministic =>
      obtain rfl := Except.ok.inj h
      exact suits_of_mem_nondeterministic hc

end Sokoban
