import Mathlib.Data.Finset.Card
import Sokoban.Proofs.Encoding
import Sokoban.Proofs.Steps

/-! # Scenes

A scene is what the variables of a model are about: where the player is, where the movable boxes
are, and whether a box may slide.  `Depicts` says that a state shows a scene, in some encoding; what
a scene says about sliding counts only where drift is declared.  Many states may depict one scene,
since the box encoding does not care which box is where, but a state depicts one scene only.

In a scene a motion is legal or not, and a legal one leads to another scene.  The effects of
commands do just that to the states that depict scenes: the guard of an effect says whether the
motion is legal (`eval_motionEffect`), its updates carry it out (`carryOut_motionEffect`), and its
conditional form carries it out or does nothing (`carryOut_conditional_motion`).  For a step, which
may turn out to be one motion or another, there are the same three facts.  All of this is proved for
any faithful encoding.
-/

namespace Sokoban

/-- The player, the movable boxes, and whether one of them may slide. -/
structure Scene where
  player : Nat
  boxes : Finset Nat
  drifting : Bool
deriving DecidableEq

/-! ## Motions -/

namespace Motion

/-- Whether a motion is possible where the boxes are. -/
def isLegal (boxes : Finset Nat) : Motion → Bool
  | walk target => target ∉ boxes
  | shove target beyond => target ∈ boxes ∧ beyond ∉ boxes

/-- The cells of a motion are reachable, and they are different. -/
def InReach (l : Level) : Motion → Prop
  | walk target => l.reachable.contains target
  | shove target beyond =>
    l.reachable.contains target ∧ l.reachable.contains beyond ∧ target ≠ beyond

end Motion

/-- The scene after a legal motion. -/
def Scene.after (sc : Scene) : Motion → Scene
  | .walk target => { sc with player := target }
  | .shove target beyond =>
    { sc with player := target, boxes := insert beyond (sc.boxes.erase target) }

variable {l : Level} {cell : Nat} {dir : Direction} {step : Step} {motion other : Motion}
  {boxes : Finset Nat}

/-- The steps of a level stay within reach: a move is listed for a reachable cell ahead, and a push
only if the cell behind that one is reachable too. -/
theorem inReach_of_step? (h : l.step? cell dir = some step) (hmotion : motion ∈ step.motions) :
    motion.InReach l := by
  obtain ⟨target, htarget, rfl⟩ := Option.map_eq_some_iff.mp h
  have hreach := (Level.ahead?_eq_some_iff.mp htarget).2
  cases hbeyond : l.ahead? target dir with
  | none =>
      rw [hbeyond] at hmotion
      obtain rfl := List.mem_singleton.mp hmotion
      exact hreach
  | some beyond =>
      rw [hbeyond] at hmotion
      rcases List.mem_pair.mp hmotion with rfl | rfl
      · exact hreach
      · exact ⟨hreach, (Level.ahead?_eq_some_iff.mp hbeyond).2, (Level.ahead?_ne hbeyond).symm⟩

/-- The motions of a step exclude each other: one needs a free cell ahead, the other a box. -/
theorem not_both_legal (step : Step) :
    step.motions.Pairwise fun a b => ¬ (a.isLegal boxes ∧ b.isLegal boxes) := by
  cases step with
  | move => simp [Step.motions]
  | push start target beyond =>
      simp only [Step.motions, List.pairwise_pair, Motion.isLegal, decide_eq_true_eq]
      exact fun h => h.1 h.2.1

/-! ## States that depict scenes -/

/-- A state shows where the player and the boxes of a scene are, and whether a box may slide. -/
structure Depicts (Shows : Valuation → Finset Nat → Prop) (drifts : Bool) (s : Valuation)
    (sc : Scene) : Prop where
  position : s positionName = some (.num sc.player)
  boxes : Shows s sc.boxes
  drift : drifts → s driftName = some (.bool sc.drifting)

/-- Two states differ at most in the player's cell and in variables of boxes. -/
def DiffersInScene (s after : Valuation) : Prop :=
  ∀ name, name ≠ positionName → (∀ n, name ≠ boxName n) → after name = s name

/-- Where states differ in the scene only, drift is as before. -/
theorem DiffersInScene.drift {s after : Valuation} (h : DiffersInScene s after) :
    after driftName = s driftName :=
  h _ positionName_ne_driftName.symm fun n => (boxName_ne_driftName n).symm

namespace Encoding.Faithful

variable {e : Encoding} {Shows : Valuation → Finset Nat → Prop} {drifts : Bool} {s : Valuation}
  {sc : Scene}

/-- On reachable cells an encoding tells where the movable boxes are. -/
theorem occupied_reachable (hf : Faithful l e Shows) (h : Shows s boxes)
    (hcell : l.reachable.contains cell) :
    (e.occupied cell).eval s = some (.bool (decide (cell ∈ boxes))) := by
  rw [hf.occupied h]
  simp only [mem_union_fixedBoxes hcell]

/-- The player goes to a cell while the boxes change. -/
theorem depicts_goTo (hf : Faithful l e Shows) (h : Depicts Shows drifts s sc) {after : Valuation}
    (target : Nat) (hboxes : Shows after boxes) (hkeep : DiffersInBoxes s after) :
    Depicts Shows drifts (Function.update after positionName (some (.num target)))
        ⟨target, boxes, sc.drifting⟩ ∧
      DiffersInScene s (Function.update after positionName (some (.num target))) := by
  have hframe : DiffersInScene s (Function.update after positionName (some (.num target))) := by
    intro name hname hbox
    rw [Function.update_of_ne hname, hkeep name hbox]
  refine ⟨⟨Function.update_self .., hf.congr hboxes fun n => ?_, fun hdrifts => ?_⟩, hframe⟩
  · exact Function.update_of_ne (boxName_ne_positionName n) ..
  · rw [hframe.drift, h.drift hdrifts]

/-- The guard of a motion tells whether it is legal.  It asks whether its cells are occupied, and on
reachable cells that is the same as having a movable box. -/
theorem eval_motionEffect (hf : Faithful l e Shows) (h : Shows s boxes)
    (hreach : motion.InReach l) :
    (e.motionEffect motion).guard.eval s = some (.bool (motion.isLegal boxes)) := by
  cases motion with
  | walk target =>
      rw [motionEffect, Expr.eval_not (hf.occupied_reachable h hreach)]
      simp [Motion.isLegal]
  | shove target beyond =>
      obtain ⟨htarget, hbeyond, -⟩ := hreach
      rw [motionEffect, Expr.eval_all_pair (hf.occupied_reachable h htarget)
        (Expr.eval_not (hf.occupied_reachable h hbeyond))]
      simp [Motion.isLegal]

/-- The updates of a legal motion carry it out, and change nothing but the player's cell and boxes.
-/
theorem carryOut_motionEffect (hf : Faithful l e Shows) (h : Depicts Shows drifts s sc)
    (hreach : motion.InReach l) (hlegal : motion.isLegal sc.boxes) :
    ∃ after, carryOut s (e.motionEffect motion).updates = some after ∧
      Depicts Shows drifts after (sc.after motion) ∧ DiffersInScene s after := by
  cases motion with
  | walk target =>
      exact ⟨_, carryOut_cons rfl rfl, hf.depicts_goTo h target h.boxes (DiffersInBoxes.refl s)⟩
  | shove target beyond =>
      obtain ⟨htarget, hbeyond, hne⟩ := hreach
      obtain ⟨hbox, hfree⟩ := of_decide_eq_true hlegal
      obtain ⟨after, hcarry, hshows, hkeep⟩ :=
        hf.shove h.boxes htarget hbeyond hne fun _ => hfree
      rw [pushed, if_pos hbox] at hshows
      exact ⟨_, carryOut_cons rfl hcarry, hf.depicts_goTo h target hshows hkeep⟩

/-- Whatever a motion assigns to has a value before, so conditional updates can keep it. -/
theorem motionEffect_targets (hf : Faithful l e Shows) (h : Depicts Shows drifts s sc)
    (hreach : motion.InReach l) :
    ∀ a ∈ (e.motionEffect motion).updates, ∃ v, s a.target = some v := by
  intro a ha
  cases motion with
  | walk target =>
      obtain rfl := List.mem_singleton.mp ha
      exact ⟨_, h.position⟩
  | shove target beyond =>
      rcases List.mem_cons.mp ha with rfl | ha
      · exact ⟨_, h.position⟩
      · exact hf.shove_targets h.boxes hreach.1 hreach.2.1 a ha

/-- The conditional updates of a motion carry it out if it is legal and change nothing if not. -/
theorem carryOut_conditional_motion (hf : Faithful l e Shows) (h : Depicts Shows drifts s sc)
    (hreach : motion.InReach l) :
    carryOut s (e.motionEffect motion).conditional =
      if motion.isLegal sc.boxes then carryOut s (e.motionEffect motion).updates else some s :=
  carryOut_conditional (hf.eval_motionEffect h.boxes hreach) (hf.motionEffect_targets h hreach)

/-- The guard of a step tells whether one of its motions is legal.  For a step that may push, this
is that not both cells ahead are occupied. -/
theorem eval_stepEffect (hf : Faithful l e Shows) (h : Shows s boxes)
    (hreach : ∀ motion ∈ step.motions, motion.InReach l) :
    (e.stepEffect step).guard.eval s = some (.bool (step.motions.any (·.isLegal boxes))) := by
  cases step with
  | move start target =>
      rw [stepEffect, hf.eval_motionEffect h (hreach _ (List.mem_singleton_self _))]
      simp [Step.motions]
  | push start target beyond =>
      obtain ⟨htarget, hbeyond, -⟩ := hreach (.shove target beyond) (by simp [Step.motions])
      rw [stepEffect, Expr.eval_not (Expr.eval_all_pair (hf.occupied_reachable h htarget)
        (hf.occupied_reachable h hbeyond))]
      by_cases ht : target ∈ boxes <;> by_cases hb : beyond ∈ boxes <;>
        simp [Step.motions, Motion.isLegal, ht, hb]

/-- The updates of a step carry out the motion that it turns out to be.  Shoving does nothing where
there is no box, so the same updates serve for walking. -/
theorem carryOut_stepEffect (hf : Faithful l e Shows) (h : Depicts Shows drifts s sc)
    (hreach : ∀ motion ∈ step.motions, motion.InReach l) (hmotion : motion ∈ step.motions)
    (hlegal : motion.isLegal sc.boxes) :
    ∃ after, carryOut s (e.stepEffect step).updates = some after ∧
      Depicts Shows drifts after (sc.after motion) ∧ DiffersInScene s after := by
  cases step with
  | move start target =>
      obtain rfl := List.mem_singleton.mp hmotion
      exact hf.carryOut_motionEffect h (hreach _ hmotion) hlegal
  | push start target beyond =>
      obtain ⟨htarget, hbeyond, hne⟩ := hreach (.shove target beyond) (by simp [Step.motions])
      rcases List.mem_pair.mp hmotion with rfl | rfl
      · -- A push also shoves when the player only walks: with no box ahead this changes nothing.
        have hfree : target ∉ sc.boxes := of_decide_eq_true hlegal
        obtain ⟨after, hcarry, hshows, hkeep⟩ :=
          hf.shove h.boxes htarget hbeyond hne fun hbox => absurd hbox hfree
        rw [pushed, if_neg hfree] at hshows
        exact ⟨_, carryOut_cons rfl hcarry, hf.depicts_goTo h target hshows hkeep⟩
      · exact hf.carryOut_motionEffect h (hreach _ hmotion) hlegal

/-- Whatever a step assigns to has a value before. -/
theorem stepEffect_targets (hf : Faithful l e Shows) (h : Depicts Shows drifts s sc)
    (hreach : ∀ motion ∈ step.motions, motion.InReach l) :
    ∀ a ∈ (e.stepEffect step).updates, ∃ v, s a.target = some v := by
  cases step with
  | move start target =>
      exact hf.motionEffect_targets h (hreach _ (List.mem_singleton_self _))
  | push start target beyond =>
      exact hf.motionEffect_targets h (hreach (.shove target beyond) (by simp [Step.motions]))

/-- The conditional updates of a step carry it out if it can be taken and change nothing if not. -/
theorem carryOut_conditional_step (hf : Faithful l e Shows) (h : Depicts Shows drifts s sc)
    (hreach : ∀ motion ∈ step.motions, motion.InReach l) :
    carryOut s (e.stepEffect step).conditional =
      if step.motions.any (·.isLegal sc.boxes) then carryOut s (e.stepEffect step).updates
      else some s :=
  carryOut_conditional (hf.eval_stepEffect h.boxes hreach) (hf.stepEffect_targets h hreach)

end Encoding.Faithful

end Sokoban
