import Mathlib.Data.List.Count
import Sokoban.Proofs.Invariant

/-! # Where weights choose

In the fixed mode the player and the adversary take turns.  While no box may slide, the one command
of the player's cell is enabled (`PlayersTurn`): each of its branches stands for a motion, which
happens if it is legal and changes nothing if it is not, or hands over to the adversary.  While a
box may slide, only commands of the adversary are enabled (`AdversarysTurn`): they hand back, after
one box has slid or none.

`fixed_mode_turns` says that every reachable state is of one of these two kinds, so there is always
something to do.  It is proved for one state (`IsFixed.turns`) from the scene that the state
depicts, and the invariant gives this scene in every reachable state.

What a branch stands for is said of its assignments (`StandsFor`), not of what it does in one state,
so a branch that does nothing is not taken for a motion that happens not to be legal.  Only where no
weight asks for anything there is a branch without assignments.
-/

namespace Sokoban

variable {l : Level} {e : Encoding} {Shows : Valuation → Finset Nat → Prop} {drifts : Bool}
  {m : Model} {s : Valuation} {sc : Scene} {map : ProbabilityMap}

/-- A branch stands for a motion: a step from the player's cell admits the motion, and the branch
assigns what the motion asks for, on condition that it is legal. -/
def StandsFor (l : Level) (e : Encoding) (sc : Scene) (b : Branch) (motion : Motion) : Prop :=
  ∃ dir step, l.step? sc.player dir = some step ∧ motion ∈ step.motions ∧
    b.assignments = (e.motionEffect motion).conditional

/-- A branch tries a motion.  It leads to the scene after the motion if the motion is legal, and
changes no variable at all if it is not. -/
structure TriesMotion (Shows : Valuation → Finset Nat → Prop) (drifts : Bool) (s : Valuation)
    (sc : Scene) (b : Branch) (motion : Motion) : Prop where
  of_legal : motion.isLegal sc.boxes → ∃ after, b.next? s = some after ∧
    Depicts Shows drifts after (sc.after motion) ∧ DiffersInScene s after
  of_not_legal : ¬ motion.isLegal sc.boxes → b.next? s = some s

/-- A branch hands over to the adversary and changes nothing else. -/
def HandsOver (s : Valuation) (b : Branch) : Prop :=
  b.assignments = [⟨driftName, .bool true⟩] ∧
    b.next? s = some (Function.update s driftName (some (.bool true)))

/-- One command is enabled, without an action.  Each of its branches stands for a motion or hands over
to the adversary; where there is neither, a single branch assigns nothing.  A branch that stands for
a motion tries it. -/
def PlayersTurn (l : Level) (e : Encoding) (Shows : Valuation → Finset Nat → Prop) (drifts : Bool)
    (m : Model) (s : Valuation) (sc : Scene) : Prop :=
  ∃ command, m.enabled s = [command] ∧ command.action? = none ∧ command.branches ≠ [] ∧
    (∀ b ∈ command.branches, (∃ motion, StandsFor l e sc b motion) ∨ (drifts ∧ HandsOver s b) ∨
      (command.branches = [b] ∧ b.assignments = [] ∧ b.next? s = some s)) ∧
    ∀ b ∈ command.branches, ∀ motion, StandsFor l e sc b motion →
      TriesMotion Shows drifts s sc b motion

/-- Commands are enabled, and all of them are the adversary's.  Each ends the turn, and otherwise
does nothing or makes one slide; every slide is made by one of them. -/
structure AdversarysTurn (l : Level) (Shows : Valuation → Finset Nat → Prop) (m : Model)
    (s : Valuation) (sc : Scene) : Prop where
  exists_enabled : m.enabled s ≠ []
  of_enabled : ∀ command ∈ m.enabled s, command.action? = some driftName ∧
    ∃ after, command.LeadsTo s after ∧ after driftName = some (.bool false) ∧
      (after = Function.update s driftName (some (.bool false)) ∨
        ∃ source target, sc.Slides l source target ∧
          Depicts Shows true after (sc.slide source target) ∧ DiffersInDrift s after)
  of_slides : ∀ source target, sc.Slides l source target → ∃ command ∈ m.enabled s,
    ∃ after, command.LeadsTo s after ∧ Depicts Shows true after (sc.slide source target) ∧
      DiffersInDrift s after

/-- **A branch that stands for a motion** tries it.  In a faithful encoding the conditional
assignments of a motion within reach do all of it or nothing, as its legality says. -/
theorem StandsFor.tries (hf : e.Faithful l Shows) (hs : Depicts Shows drifts s sc) {b : Branch}
    {motion : Motion} (h : StandsFor l e sc b motion) : TriesMotion Shows drifts s sc b motion := by
  obtain ⟨dir, step, hstep, hmotion, hb⟩ := h
  have hreach := inReach_of_step? hstep hmotion
  have hcarry := hf.carryOut_conditional_motion hs hreach
  refine ⟨fun hlegal => ?_, fun hlegal => ?_⟩
  · obtain ⟨after, hafter, hdepicts, hkeep⟩ := hf.carryOut_motionEffect hs hreach hlegal
    refine ⟨after, ?_, hdepicts, hkeep⟩
    rw [Branch.next?, hb, hcarry, if_pos hlegal, hafter]
  · rw [Branch.next?, hb, hcarry, if_neg hlegal]

/-- Trying a motion always leads somewhere. -/
theorem TriesMotion.exists_next {b : Branch} {motion : Motion}
    (h : TriesMotion Shows drifts s sc b motion) : ∃ after, b.next? s = some after := by
  by_cases hlegal : motion.isLegal sc.boxes
  · obtain ⟨after, hafter, -⟩ := h.of_legal hlegal
    exact ⟨after, hafter⟩
  · exact ⟨s, h.of_not_legal hlegal⟩

/-- Of the turns of all cells only the one of the player's cell can be open.  Each reachable cell
has one turn, and the player's cell is reachable. -/
theorem filter_cellTurns (hplayer : l.reachable.contains sc.player) (gate : Gate)
    (outcomes : Nat → List (Option Expr × Outcome)) :
    (l.cellTurns gate outcomes).filter (·.isOpen sc) =
      if gate.isOpen sc then [⟨none, sc.player, gate, outcomes sc.player⟩] else [] := by
  rw [Level.cellTurns, List.filter_map]
  cases hgate : gate.isOpen sc with
  | false => simp [Function.comp_def, Turn.isOpen, hgate]
  | true =>
      have hcount : l.reachable.toList.count sc.player = 1 :=
        List.count_eq_one_of_mem (CellSet.nodup_toList _) (CellSet.mem_toList.mpr hplayer)
      simp only [Function.comp_def, Turn.isOpen, hgate, Bool.and_true, if_true]
      simp only [eq_comm (a := sc.player)]
      rw [List.filter_eq, hcount]
      rfl

/-- The turn of a cell is open unless drift is declared and a box may slide. -/
theorem fixedGate_isOpen (map : ProbabilityMap) (sc : Scene) :
    (Commands.fixedGate map).isOpen sc = (map.drift.isZero || !sc.drifting) := by
  unfold Commands.fixedGate
  cases map.drift.isZero <;> rfl

/-- While a box may slide, the commands of the adversary are enabled.  Ending the turn is one of
them, so there always is one; what the others do is known from each of them. -/
theorem adversarysTurn (hf : e.Faithful l Shows) (hs : Depicts Shows true s sc)
    (hdrifting : sc.drifting)
    (henabled : m.enabled s = (Commands.driftCommands l e).filter (·.isEnabled s)) :
    AdversarysTurn l Shows m s sc := by
  have hmem : ∀ command, command ∈ m.enabled s ↔
      command ∈ Commands.driftCommands l e ∧ command.guard.eval s = some (.bool true) := by
    intro command
    rw [henabled, List.mem_filter, Command.isEnabled, beq_iff_eq]
  have hrest : Commands.restCommand ∈ m.enabled s := by
    refine (hmem _).mpr ⟨Commands.mem_driftCommands.mpr (.inr rfl), ?_⟩
    exact (Commands.eval_drift hs).trans (by rw [hdrifting])
  refine ⟨List.ne_nil_of_mem hrest, fun command hcommand => ?_, fun source target hslides => ?_⟩
  · obtain ⟨hdrift, hguard⟩ := (hmem command).mp hcommand
    obtain ⟨-, haction, rfl | ⟨source, target, after, hslides, hleads, hdepicts, hkeep⟩⟩ :=
      Commands.cases_of_enabled hf hs hdrift hguard
    · exact ⟨haction, _, Commands.restCommand_leadsTo s, Function.update_self .., .inl rfl⟩
    · exact ⟨haction, after, hleads, hdepicts.drift rfl,
        .inr ⟨source, target, hslides, hdepicts, hkeep⟩⟩
  · obtain ⟨command, hdrift, hguard, -, hafter⟩ := Commands.exists_slideCommand hf hs hdrifting hslides
    exact ⟨command, (hmem command).mpr ⟨hdrift, hguard⟩, hafter⟩

/-- While no box may slide, no command of the adversary is enabled. -/
theorem filter_driftCommands (hf : e.Faithful l Shows) (hs : Depicts Shows true s sc)
    (hsettled : sc.drifting = false) :
    (Commands.driftCommands l e).filter (·.isEnabled s) = [] := by
  rw [List.filter_eq_nil_iff]
  intro command hcommand henabled
  have hdrifting := (Commands.cases_of_enabled hf hs hcommand (beq_iff_eq.mp henabled)).1
  simp [hsettled] at hdrifting

/-- The player can always go on: the command has a branch, and a branch of each kind leads
somewhere. -/
theorem PlayersTurn.exists_next (h : PlayersTurn l e Shows drifts m s sc) :
    ∃ command ∈ m.enabled s, ∃ b ∈ command.branches, ∃ after, b.next? s = some after := by
  obtain ⟨command, henabled, -, hnil, hkinds, htries⟩ := h
  obtain ⟨b, hb⟩ := List.exists_mem_of_ne_nil _ hnil
  refine ⟨command, henabled ▸ List.mem_singleton_self _, b, hb, ?_⟩
  rcases hkinds b hb with ⟨motion, hmotion⟩ | ⟨-, hhands⟩ | ⟨-, -, hstay⟩
  · exact (htries b hb motion hmotion).exists_next
  · exact ⟨_, hhands.2⟩
  · exact ⟨s, hstay⟩

/-- The adversary can always go on: ending the turn is one of the enabled commands at least. -/
theorem AdversarysTurn.exists_next (h : AdversarysTurn l Shows m s sc) :
    ∃ command ∈ m.enabled s, ∃ b ∈ command.branches, ∃ after, b.next? s = some after := by
  obtain ⟨command, hcommand⟩ := List.exists_mem_of_ne_nil _ h.exists_enabled
  obtain ⟨-, after, ⟨assignments, hbranches, hafter⟩, -⟩ := h.of_enabled command hcommand
  exact ⟨command, hcommand, ⟨none, assignments⟩, hbranches ▸ List.mem_singleton_self _, after, hafter⟩

/-- The branches of the player's cell stand for motions, hand over, or stay.  Which of them it is can
be told from the outcome that each of them was made from. -/
theorem playersTurn (hf : e.Faithful l Shows) (hs : Depicts Shows (!map.drift.isZero) s sc)
    {gate : Gate} {outcomes : List (Option Expr × Outcome)}
    (henabled : m.enabled s = [Turn.command e ⟨none, sc.player, gate, outcomes⟩])
    (hweighted : Commands.AreWeighted map (l.stepsFrom sc.player) outcomes) :
    PlayersTurn l e Shows (!map.drift.isZero) m s sc := by
  obtain ⟨hnil, hweighted⟩ := hweighted
  refine ⟨_, henabled, rfl, by simpa [Turn.command] using hnil, fun b hb => ?_,
    fun b _ motion hmotion => hmotion.tries hf hs⟩
  rcases hweighted with rfl | hweighted
  · -- No motion and no drift has a weight.
    obtain rfl := List.mem_singleton.mp hb
    exact .inr (.inr ⟨rfl, rfl, rfl⟩)
  · obtain ⟨o, ho, rfl⟩ := List.mem_map.mp hb
    rcases hweighted o ho with ⟨dir, step, hstep, motion, hmotion, heq⟩ | ⟨hdrift, heq⟩
    · left
      exact ⟨motion, dir, step, Level.mem_stepsFrom.mp hstep, hmotion, by rw [branchOf, heq]; rfl⟩
    · right; left
      refine ⟨by rw [hdrift]; rfl, by rw [branchOf, heq]; rfl, ?_⟩
      rw [Branch.next?, branchOf, heq]
      exact carryOut_cons rfl rfl

namespace Model

variable {outcomes : Nat → List (Option Expr × Outcome)}

/-- A model in which weights choose, with what the branches of its cells do. -/
structure IsFixed (m : Model) (l : Level) (e : Encoding) (map : ProbabilityMap)
    (outcomes : Nat → List (Option Expr × Outcome)) : Prop where
  made : m.IsMade l e (.fixed map) (l.cellTurns (Commands.fixedGate map) outcomes)
  weighted : ∀ cell, Commands.AreWeighted map (l.stepsFrom cell) (outcomes cell)

/-- There is a model in which weights choose, with outcomes for every cell that have the
probabilities of its shares. -/
theorem exists_fixed (l : Level) (e : Encoding) (c : Configuration) (hmap : map.Accepted) :
    ∃ m outcomes, ofEncoding l e { c with mode := .fixed map } = .ok m ∧
      m.IsMade l e (.fixed map) (l.cellTurns (Commands.fixedGate map) outcomes) ∧
      ∀ cell, Commands.CellOutcomes map (l.stepsFrom cell) (outcomes cell) := by
  obtain ⟨outcomes, hweighed, hok⟩ := Commands.exists_fixedTurns l hmap
  obtain ⟨m, hm, hmade⟩ := isMade_of_commandsOf (c := { c with mode := .fixed map }) (hok e)
  exact ⟨m, outcomes, hm, hmade, hweighed⟩

/-- There is a model in which weights choose, and what the branches of its cells do is known. -/
theorem exists_isFixed (l : Level) (e : Encoding) (c : Configuration) (hmap : map.Accepted) :
    ∃ m outcomes, ofEncoding l e { c with mode := .fixed map } = .ok m ∧
      m.IsFixed l e map outcomes := by
  obtain ⟨m, outcomes, hm, hmade, hweighed⟩ := exists_fixed l e c hmap
  exact ⟨m, outcomes, hm, hmade, fun cell => (hweighed cell).areWeighted⟩

/-- All its turns are sound. -/
theorem IsFixed.sound (h : m.IsFixed l e map outcomes) :
    ∀ t ∈ l.cellTurns (Commands.fixedGate map) outcomes, t.Sound l (!map.drift.isZero) :=
  fun _ ht => sound_of_mem_cellTurns h.weighted ht

/-- **The enabled commands**: the one of the player's cell, or those of the adversary that drift
enables. -/
theorem IsFixed.enabled_eq (h : m.IsFixed l e map outcomes) (hf : e.Faithful l Shows)
    (hs : Depicts Shows (!map.drift.isZero) s sc) (hplayer : l.reachable.contains sc.player) :
    m.enabled s =
      if map.drift.isZero || !sc.drifting then
        [Turn.command e ⟨none, sc.player, Commands.fixedGate map, outcomes sc.player⟩]
      else (Commands.driftCommands l e).filter (·.isEnabled s) := by
  rw [h.made.enabled_eq hf h.sound hs, filter_cellTurns hplayer, fixedGate_isOpen]
  cases hdrift : map.drift.isZero with
  | true => simp [Mode.drifts, hdrift]
  | false =>
      rw [hdrift] at hs
      cases hdrifting : sc.drifting with
      | true => simp [Mode.drifts, hdrift]
      | false => simp [Mode.drifts, hdrift, filter_driftCommands hf hs hdrifting]

/-- **One state** is the player's turn or the adversary's, as its drift says.  Without drift only
the turns of cells are left, and one of them is open; with drift none of them is. -/
theorem IsFixed.turns (h : m.IsFixed l e map outcomes) (hf : e.Faithful l Shows)
    (hs : Depicts Shows (!map.drift.isZero) s sc) (hplayer : l.reachable.contains sc.player) :
    (map.drift.isZero ∨ s driftName = some (.bool false) →
        PlayersTurn l e Shows (!map.drift.isZero) m s sc) ∧
      (map.drift.isZero = false ∧ s driftName = some (.bool true) →
        AdversarysTurn l Shows m s sc) := by
  have henabled := h.enabled_eq hf hs hplayer
  have hflag : map.drift.isZero = false → s driftName = some (.bool sc.drifting) := by
    intro hdrift
    exact hs.drift (by rw [hdrift]; rfl)
  constructor
  · intro hsettled
    have hgate : (map.drift.isZero || !sc.drifting) = true := by
      cases hdrift : map.drift.isZero with
      | true => rfl
      | false => simpa [hdrift, hflag hdrift] using hsettled
    rw [if_pos hgate] at henabled
    exact playersTurn hf hs henabled (h.weighted sc.player)
  · intro hopen
    obtain ⟨hdrift, hdrifts⟩ := hopen
    have hdrifting : sc.drifting = true := by simpa [hflag hdrift] using hdrifts
    rw [hdrift] at hs
    exact adversarysTurn hf hs hdrifting (by simpa [hdrift, hdrifting] using henabled)

end Model

/-- **Every reachable state of the fixed mode** is the player's turn, if drift is not declared or
does not hold, or else the adversary's.  Two motions of one step are never both legal, and no state
is without a next one.  Where the goals lie on the board, the model is the one of the level. -/
theorem fixed_mode_turns (l : Level) (c : Configuration) (map : ProbabilityMap)
    (hmap : map.Accepted) :
    ∃ m, Model.ofEncoding l (.ofKind c.encoding l) { c with mode := .fixed map } = .ok m ∧
      ((∀ goal ∈ l.goals, goal < l.size) → Model.ofLevel l { c with mode := .fixed map } = .ok m) ∧
      ∀ s, m.Reachable s → ∃ sc, Depicts (c.encoding.Shows l) (!map.drift.isZero) s sc ∧
        (map.drift.isZero ∨ s driftName = some (.bool false) →
          PlayersTurn l (.ofKind c.encoding l) (c.encoding.Shows l) (!map.drift.isZero) m s sc) ∧
        (map.drift.isZero = false ∧ s driftName = some (.bool true) →
          AdversarysTurn l (c.encoding.Shows l) m s sc) ∧
        (∀ dir step, l.step? sc.player dir = some step → step.motions.Pairwise fun a b =>
          ¬ (a.isLegal sc.boxes ∧ b.isLegal sc.boxes)) ∧
        ∃ command ∈ m.enabled s, ∃ b ∈ command.branches, ∃ after, b.next? s = some after := by
  obtain ⟨m, outcomes, hm, hfixed⟩ := Model.exists_isFixed l (.ofKind c.encoding l) c hmap
  have hf := Encoding.faithful_ofKind c.encoding l
  refine ⟨m, hm, fun hgoals => Model.ofLevel_eq hgoals hm, fun s hs => ?_⟩
  obtain ⟨sc, hdepicts, hsound⟩ := hfixed.made.exists_scene hf hfixed.sound hs
  obtain ⟨hplayer, hadversary⟩ := hfixed.turns hf hdepicts hsound.player_reachable
  refine ⟨sc, hdepicts, hplayer, hadversary, fun _ step _ => not_both_legal step, ?_⟩
  cases hdrift : map.drift.isZero with
  | true => exact (hplayer (.inl hdrift)).exists_next
  | false =>
      have hflag : s driftName = some (.bool sc.drifting) :=
        hdepicts.drift (by simp [Mode.drifts, hdrift])
      cases hdrifting : sc.drifting with
      | false => exact (hplayer (.inr (hdrifting ▸ hflag))).exists_next
      | true => exact (hadversary ⟨hdrift, hdrifting ▸ hflag⟩).exists_next

/-- The turns of a corridor in which the box drifts. -/
theorem fixed_mode_turns_corridor :
    ∃ m, Model.ofLevel .corridor { mode := .fixed .rightOrDrift } = .ok m ∧
      ∀ s, m.Reachable s → ∃ sc, Depicts (Encoding.Kind.tile.Shows .corridor) true s sc ∧
        (s driftName = some (.bool false) →
          PlayersTurn .corridor (.tile .corridor) (Encoding.Kind.tile.Shows .corridor) true m s sc) ∧
        (s driftName = some (.bool true) →
          AdversarysTurn .corridor (Encoding.Kind.tile.Shows .corridor) m s sc) := by
  obtain ⟨m, -, hm, hturns⟩ := fixed_mode_turns .corridor {} .rightOrDrift
    ProbabilityMap.accepted_rightOrDrift
  refine ⟨m, hm (by decide), fun s hs => ?_⟩
  obtain ⟨sc, hdepicts, hplayer, hadversary, -⟩ := hturns s hs
  exact ⟨sc, hdepicts, fun h => hplayer (.inr h), fun h => hadversary ⟨rfl, h⟩⟩

end Sokoban
