import Sokoban.Proofs.Scene

/-! # Turns

A command of the player can be told without its encoding: the cell that it is for, the gate that
opens it, and what each of its branches does.  Such a `Turn` becomes a command in any encoding
(`Turn.command`), and what it does to a scene is the same in all of them:  `Turn.eval_guard` says
when it is enabled, `Outcome.exists_next` where its branches lead.

A sound turn keeps to the steps that its level has from its cell.  This is needed for the cells of
its motions to be reachable, without which an encoding would have no variables to assign to; and a
step is taken without asking only if the gate has asked whether it can be.

The two facts are all that the modes need.  What remains of a mode is which turns it has and what
the probabilities of their outcomes are.
-/

namespace Sokoban

/-- What a branch does. -/
inductive Outcome where
  /-- Nothing happens. -/
  | stay
  /-- A motion is made if it is legal. -/
  | attempt (motion : Motion)
  /-- A step is taken. -/
  | take (step : Step)
  /-- A step is taken if it can be. -/
  | slip (step : Step)
  /-- The next turn is the adversary's. -/
  | drift

/-- What opens a turn besides the player's cell. -/
inductive Gate where
  | always
  /-- A step can be taken. -/
  | possible (step : Step)
  /-- No box may slide. -/
  | settled

/-- A command for the player on one cell. -/
structure Turn where
  action? : Option String
  cell : Nat
  gate : Gate
  outcomes : List (Option Expr × Outcome)

namespace Outcome

/-- The assignments of a branch. -/
def assignments (e : Encoding) : Outcome → List Assignment
  | stay => []
  | attempt motion => (e.motionEffect motion).conditional
  | take step => (e.stepEffect step).updates
  | slip step => (e.stepEffect step).conditional
  | drift => [⟨driftName, .bool true⟩]

end Outcome

/-- The guard of a turn. -/
def Gate.guard (e : Encoding) (cell : Nat) : Gate → Expr
  | always => Commands.playerAt cell
  | possible step => .all [Commands.playerAt cell, (e.stepEffect step).guard]
  | settled => .all [Commands.playerAt cell, .not (.var driftName)]

/-- The branch with a probability and an outcome. -/
def branchOf (e : Encoding) (outcome : Option Expr × Outcome) : Branch :=
  ⟨outcome.1, outcome.2.assignments e⟩

/-- The command of a turn in an encoding. -/
def Turn.command (e : Encoding) (t : Turn) : Command :=
  ⟨t.action?, t.gate.guard e t.cell, t.outcomes.map (branchOf e)⟩

/-- The chances of a command do not depend on the encoding, as probabilities name no variables of
boxes. -/
theorem Turn.hasChances_iff {e : Encoding} {t : Turn} {s : Valuation} {chances : List ℚ} :
    (t.command e).HasChances s chances ↔ HaveChances s (t.outcomes.map (·.1)) chances := by
  rw [Command.HasChances, Turn.command, List.map_map]
  rfl

/-! ## Turns and scenes -/

/-- The scene after the first of some motions that is legal, if one is.  If none is, the scene
stays. -/
def Scene.attempt (sc : Scene) (motions : List Motion) : Scene :=
  match motions.find? (·.isLegal sc.boxes) with
  | some motion => sc.after motion
  | none => sc

/-- The scene after an outcome. -/
def Outcome.scene (sc : Scene) : Outcome → Scene
  | stay => sc
  | attempt motion => sc.attempt [motion]
  | take step | slip step => sc.attempt step.motions
  | drift => { sc with drifting := true }

/-- Whether a gate is open. -/
def Gate.isOpen (sc : Scene) : Gate → Bool
  | always => true
  | possible step => step.motions.any (·.isLegal sc.boxes)
  | settled => !sc.drifting

/-- Whether a turn can be taken. -/
def Turn.isOpen (sc : Scene) (t : Turn) : Bool :=
  decide (sc.player = t.cell) && t.gate.isOpen sc

/-- A gate asks for a step from its cell, and for drift just where drift is declared. -/
def Gate.Sound (l : Level) (drifts : Bool) (cell : Nat) : Gate → Prop
  | always => drifts = false
  | possible step => ∃ dir, l.step? cell dir = some step
  | settled => drifts = true

/-- Outcomes keep to the steps from a cell.  Steps are taken without asking only if the gate has
asked for them. -/
def Outcome.Sound (l : Level) (drifts : Bool) (cell : Nat) (gate : Gate) : Outcome → Prop
  | stay => True
  | attempt motion => ∃ dir step, l.step? cell dir = some step ∧ motion ∈ step.motions
  | take step => gate = .possible step ∧ ∃ dir, l.step? cell dir = some step
  | slip step => ∃ dir, l.step? cell dir = some step
  | drift => drifts = true

/-- A turn from a reachable cell that keeps to the steps from there. -/
structure Turn.Sound (l : Level) (drifts : Bool) (t : Turn) : Prop where
  cell : l.reachable.contains t.cell
  gate : t.gate.Sound l drifts t.cell
  outcomes : ∀ outcome ∈ t.outcomes, outcome.2.Sound l drifts t.cell t.gate

variable {l : Level} {e : Encoding} {Shows : Valuation → Finset Nat → Prop} {drifts : Bool}
  {s : Valuation} {sc : Scene}

/-- Whether the player is on a cell can be told from the position. -/
theorem eval_playerAt (h : Depicts Shows drifts s sc) (cell : Nat) :
    (Commands.playerAt cell).eval s = some (.bool (decide (sc.player = cell))) :=
  Expr.eval_eq_nat h.position cell

/-- The motions of a step that a level has are within reach. -/
theorem inReach_motions {cell : Nat} {step : Step} (h : ∃ dir, l.step? cell dir = some step) :
    ∀ motion ∈ step.motions, motion.InReach l := by
  obtain ⟨dir, hstep⟩ := h
  exact fun motion hmotion => inReach_of_step? hstep hmotion

/-- **The guard of a turn** tells whether it can be taken, in every state that depicts a scene.
There is one case for each gate, and the player's cell is asked for in all of them. -/
theorem Turn.eval_guard {t : Turn} (hf : e.Faithful l Shows) (h : Depicts Shows drifts s sc)
    (ht : t.gate.Sound l drifts t.cell) :
    (t.gate.guard e t.cell).eval s = some (.bool (t.isOpen sc)) := by
  have hplayer := eval_playerAt h t.cell
  unfold Turn.isOpen
  cases hgate : t.gate with
  | always => rw [Gate.guard, hplayer, Gate.isOpen, Bool.and_true]
  | possible step =>
      rw [hgate] at ht
      exact Expr.eval_all_pair hplayer (hf.eval_stepEffect h.boxes (inReach_motions ht))
  | settled =>
      rw [hgate] at ht
      have hdrift : (Expr.var driftName).eval s = some (.bool sc.drifting) := by
        rw [Expr.eval, h.drift ht]
      exact Expr.eval_all_pair hplayer (Expr.eval_not hdrift)

/-- The motion that is made when some motions of a level are tried. -/
theorem Scene.attempt_of_legal {motions : List Motion} {motion : Motion}
    (hfind : motions.find? (·.isLegal sc.boxes) = some motion) :
    sc.attempt motions = sc.after motion := by
  rw [attempt, hfind]

/-- Where none of some motions is legal, trying them changes nothing. -/
theorem Scene.attempt_of_not_any {motions : List Motion}
    (hnone : motions.any (·.isLegal sc.boxes) = false) : sc.attempt motions = sc := by
  have hfind : motions.find? (·.isLegal sc.boxes) = none := by
    rw [List.find?_eq_none]
    intro motion hmotion hlegal
    exact List.any_eq_false.mp hnone motion hmotion hlegal
  rw [attempt, hfind]

/-- If one of some motions is legal, a first one is found. -/
theorem exists_find_legal {motions : List Motion} {boxes : Finset Nat}
    (hany : motions.any (·.isLegal boxes)) :
    ∃ motion ∈ motions, motion.isLegal boxes ∧ motions.find? (·.isLegal boxes) = some motion := by
  obtain ⟨motion, hfind⟩ := Option.isSome_iff_exists.mp
    (List.find?_isSome.mpr (List.any_eq_true.mp hany))
  exact ⟨motion, List.mem_of_find?_eq_some hfind, List.find?_some hfind, hfind⟩

/-- Only what a scene says about drift depends on the variable for it. -/
theorem Encoding.Faithful.depicts_update (hf : e.Faithful l Shows) (h : Depicts Shows drifts s sc)
    (b : Bool) : Depicts Shows drifts (Function.update s driftName (some (.bool b)))
      { sc with drifting := b } where
  position := by
    rw [Function.update_of_ne positionName_ne_driftName]
    exact h.position
  boxes := hf.congr h.boxes fun n => Function.update_of_ne (boxName_ne_driftName n) ..
  drift := fun _ => Function.update_self ..

/-- The branch of a motion leads to the scene after trying it.  Its assignments are conditional, so
they do all or nothing. -/
theorem exists_next_motion {motion : Motion} (hf : e.Faithful l Shows)
    (h : Depicts Shows drifts s sc) (hreach : motion.InReach l) :
    ∃ after, carryOut s (e.motionEffect motion).conditional = some after ∧
      Depicts Shows drifts after (sc.attempt [motion]) := by
  rw [hf.carryOut_conditional_motion h hreach]
  by_cases hlegal : motion.isLegal sc.boxes
  · obtain ⟨after, hcarry, hdepicts, -⟩ := hf.carryOut_motionEffect h hreach hlegal
    rw [if_pos hlegal, Scene.attempt_of_legal (List.find?_cons_of_pos hlegal)]
    exact ⟨after, hcarry, hdepicts⟩
  · rw [if_neg hlegal, Scene.attempt_of_not_any (by simpa using hlegal)]
    exact ⟨s, rfl, h⟩

/-- The branch of a step that can be taken leads to the scene after the motion that it turns out to
be. -/
theorem exists_next_step {step : Step} (hf : e.Faithful l Shows) (h : Depicts Shows drifts s sc)
    (hreach : ∀ motion ∈ step.motions, motion.InReach l)
    (hlegal : step.motions.any (·.isLegal sc.boxes)) :
    ∃ after, carryOut s (e.stepEffect step).updates = some after ∧
      Depicts Shows drifts after (sc.attempt step.motions) := by
  obtain ⟨motion, hmotion, hone, hfind⟩ := exists_find_legal hlegal
  obtain ⟨after, hcarry, hdepicts, -⟩ := hf.carryOut_stepEffect h hreach hmotion hone
  rw [Scene.attempt_of_legal hfind]
  exact ⟨after, hcarry, hdepicts⟩

/-- **The branches of a turn** that can be taken lead to scenes that do not depend on the encoding.
There is one case for each kind of outcome. -/
theorem Outcome.exists_next {o : Outcome} {cell : Nat} {gate : Gate} (hf : e.Faithful l Shows)
    (h : Depicts Shows drifts s sc) (ho : o.Sound l drifts cell gate) (hopen : gate.isOpen sc) :
    ∃ after, carryOut s (o.assignments e) = some after ∧
      Depicts Shows drifts after (o.scene sc) := by
  cases o with
  | stay => exact ⟨s, rfl, h⟩
  | attempt motion =>
      obtain ⟨dir, step, hstep, hmotion⟩ := ho
      exact exists_next_motion hf h (inReach_of_step? hstep hmotion)
  | take step =>
      obtain ⟨rfl, hstep⟩ := ho
      exact exists_next_step hf h (inReach_motions hstep) hopen
  | slip step =>
      have hreach := inReach_motions ho
      change ∃ after, carryOut s (e.stepEffect step).conditional = some after ∧ _
      rw [hf.carryOut_conditional_step h hreach]
      by_cases hlegal : step.motions.any (·.isLegal sc.boxes)
      · rw [if_pos hlegal]
        exact exists_next_step hf h hreach hlegal
      · rw [if_neg hlegal, Outcome.scene, Scene.attempt_of_not_any (by simpa using hlegal)]
        exact ⟨s, rfl, h⟩
  | drift =>
      have hcarry : carryOut s [⟨driftName, .bool true⟩] =
          some (Function.update s driftName (some (.bool true))) := carryOut_cons rfl rfl
      exact ⟨_, hcarry, hf.depicts_update h true⟩

end Sokoban
