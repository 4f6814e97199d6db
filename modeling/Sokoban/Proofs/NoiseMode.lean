import Sokoban.Proofs.Game

/-! # Where moves are noisy

With noise the player chooses a direction and may slip.  The model offers a direction just if the
move is possible, by one command, and its guard is the one that it has where the player always
succeeds.  The first branch makes the move.  The others are slips, one for every other direction
that gets a part of the failure probability (`Noise.SlipsTo`); each of them makes the move in its
direction if that is possible and otherwise changes nothing (`TriesMove`).

`noise_mode_moves` says so of every reachable state.  It is about the moves of the game, with the
rule of `Game.move?` that looks at the board, so it does not mention steps or scenes.  For one state
it is `IsNoise.playsNoisily`, whose state depicts a sound scene.

`noise_mode_chances` is about the probabilities: whatever the success probability is, the chances of
every command are not below nought and sum to one.
-/

namespace Sokoban

open Commands (otherDirections StepOutcomes)

variable {l : Level} {kind : Encoding.Kind} {noise : Noise} {m choice : Model} {s : Valuation}
  {sc : Scene} {g next : Game} {cell : Nat} {dir other : Direction}
  {outcomes : Nat → Direction × Step → List (Option Expr × Outcome)}

/-! ## Slips -/

/-- Another direction in which a cell has a step. -/
def Level.StepsElsewhere (l : Level) (cell : Nat) (dir other : Direction) : Prop :=
  other ≠ dir ∧ ∃ step, l.step? cell other = some step

/-- Another direction from a cell that gets a part of the failure probability: with weights, one
that has a weight, or any if none of them has. -/
def Noise.SlipsTo (noise : Noise) (l : Level) (cell : Nat) (dir other : Direction) : Prop :=
  l.StepsElsewhere cell dir other ∧
    match noise.residual with
    | .uniform => True
    | .weighted map => 0 < (map.toward other).value ∨
        ∀ third, l.StepsElsewhere cell dir third → ¬ 0 < (map.toward third).value

/-- The other directions of a cell are those in which it has a step.  They are listed from the row
of the cell, in the order of directions. -/
theorem mem_otherDirections :
    other ∈ otherDirections (l.stepsFrom cell) dir ↔ l.StepsElsewhere cell dir other := by
  simp only [otherDirections, List.mem_filter, List.mem_map, decide_eq_true_eq]
  constructor
  · intro h
    obtain ⟨⟨⟨_, step⟩, hstep, rfl⟩, hne⟩ := h
    exact ⟨hne, step, Level.mem_stepsFrom.mp hstep⟩
  · intro h
    obtain ⟨hne, step, hstep⟩ := h
    exact ⟨⟨(other, step), Level.mem_stepsFrom.mpr hstep, rfl⟩, hne⟩

/-- The directions that get a part are those of the slips.  With weights these are the ones with a
weight; and where none of the others has one, all of them, as if there were no weights. -/
theorem Noise.mem_slipping (hnoise : noise.Accepted) :
    other ∈ noise.slipping (otherDirections (l.stepsFrom cell) dir) ↔
      noise.SlipsTo l cell dir other := by
  unfold slipping SlipsTo
  cases hresidual : noise.residual with
  | uniform => simp [mem_otherDirections]
  | weighted map =>
      have hpos : ∀ dir, (map.toward dir).isZero = false ↔ 0 < (map.toward dir).value := fun dir =>
        ((hnoise map hresidual).pos_iff (.toward dir)).symm
      simp only
      split
      next hnone =>
        -- No other direction has a weight, so all of them get a part.
        have hnot : ∀ third, l.StepsElsewhere cell dir third → ¬ 0 < (map.toward third).value := by
          intro third hthird hweight
          rw [List.isEmpty_iff, List.filter_eq_nil_iff] at hnone
          refine hnone third (mem_otherDirections.mpr hthird) ?_
          rw [(hpos third).mpr hweight]
          rfl
        rw [mem_otherDirections]
        exact ⟨fun h => ⟨h, .inr hnot⟩, fun h => h.1⟩
      next hsome =>
        -- Some other direction has a weight, and then only those with one get a part.
        have hthird : ∃ third, l.StepsElsewhere cell dir third ∧ 0 < (map.toward third).value := by
          rw [List.isEmpty_iff] at hsome
          obtain ⟨third, hthird⟩ := List.exists_mem_of_ne_nil _ hsome
          obtain ⟨hmem, hweight⟩ := List.mem_filter.mp hthird
          exact ⟨third, mem_otherDirections.mp hmem, (hpos third).mp (by simpa using hweight)⟩
        obtain ⟨third, hthird, hweight⟩ := hthird
        rw [List.mem_filter, mem_otherDirections, Bool.not_eq_true', hpos]
        refine and_congr_right fun _ => ⟨.inl, fun h => h.resolve_right fun hnone => ?_⟩
        exact hnone third hthird hweight

/-- A branch makes the move in a direction if it is possible, and otherwise changes nothing. -/
structure TriesMove (l : Level) (kind : Encoding.Kind) (s : Valuation) (g : Game) (dir : Direction)
    (b : Branch) : Prop where
  possible : ∀ next, g.move? l dir = some next →
    ∃ after, b.next? s = some after ∧ Encodes l kind after next
  impossible : g.move? l dir = none → b.next? s = some s

/-- The branches of a noisy move: the first one makes the move, and there is one more for each
direction that it can slip to. -/
def MakesNoisyMove (l : Level) (kind : Encoding.Kind) (noise : Noise) (s : Valuation) (g : Game)
    (dir : Direction) (next : Game) (branches : List Branch) : Prop :=
  ∃ first slips dirs, branches = first :: slips ∧
    (∃ after, first.next? s = some after ∧ Encodes l kind after next) ∧
    dirs.Nodup ∧ (∀ other, other ∈ dirs ↔ noise.SlipsTo l g.player dir other) ∧
    List.Forall₂ (TriesMove l kind s g) dirs slips

/-- The updates of a step make the move in its direction, if it is possible.  The move is a legal
motion of the step, and the updates carry it out. -/
theorem exists_updates (hs : Depicts (kind.Shows l) false s sc) (hsound : sc.Sound l)
    (hmove : (sc.game l).move? l dir = some next) :
    ∃ step after, l.step? sc.player dir = some step ∧ step.motions.any (·.isLegal sc.boxes) ∧
      carryOut s ((Encoding.ofKind kind l).stepEffect step).updates = some after ∧
      Encodes l kind after next := by
  obtain ⟨step, motion, hstep, hfind, rfl⟩ := Scene.exists_motion hsound.player_reachable hmove
  have hany : step.motions.any (·.isLegal sc.boxes) :=
    List.any_eq_true.mpr ⟨motion, List.mem_of_find?_eq_some hfind, List.find?_some hfind⟩
  obtain ⟨after, hafter, hdepicts⟩ := exists_next_step (Encoding.faithful_ofKind kind l) hs
    (inReach_motions ⟨dir, hstep⟩) hany
  rw [Scene.attempt_of_legal hfind] at hdepicts
  exact ⟨step, after, hstep, hany, hafter, encodes_game hdepicts⟩

/-- A slip tries a move: its assignments are conditional, so they make the move if it is possible
and change nothing if it is not. -/
theorem triesMove (hs : Depicts (kind.Shows l) false s sc) (hsound : sc.Sound l) {slip : Step}
    (hslip : l.step? sc.player other = some slip) (p : Option Expr) :
    TriesMove l kind s (sc.game l) other (branchOf (.ofKind kind l) (p, .slip slip)) := by
  have hcarry := (Encoding.faithful_ofKind kind l).carryOut_conditional_step hs
    (inReach_motions ⟨other, hslip⟩)
  refine ⟨fun next hmove => ?_, fun hmove => ?_⟩
  · obtain ⟨step, after, hstep, hany, hafter, hencodes⟩ := exists_updates hs hsound hmove
    obtain rfl : slip = step := Option.some.inj (hslip.symm.trans hstep)
    exact ⟨after, (hcarry.trans (if_pos hany)).trans hafter, hencodes⟩
  · have hnone := Scene.any_legal_eq_false hsound.player_reachable hmove hslip
    exact hcarry.trans (if_neg (by simp [hnone]))

/-! ## The model with noise -/

/-- A model in a state offers what can be done in a game, and each move may slip.  The guards are
those of the model in which the player chooses. -/
structure PlaysNoisily (l : Level) (kind : Encoding.Kind) (noise : Noise) (m choice : Model)
    (s : Valuation) (g : Game) : Prop where
  encodes : Encodes l kind s g
  /-- A possible move has one enabled command, which makes this move or slips. -/
  possible : ∀ dir next, g.move? l dir = some next →
    ∃ command chosen, (m.enabled s).filter (·.action? == some dir.name) = [command] ∧
      (choice.enabled s).filter (·.action? == some dir.name) = [chosen] ∧
      command.guard = chosen.guard ∧
      MakesNoisyMove l kind noise s g dir next command.branches
  /-- Any other has none. -/
  impossible : ∀ dir, g.move? l dir = none →
    (m.enabled s).filter (·.action? == some dir.name) = []
  /-- Nothing but moves can be done. -/
  directions : ∀ command ∈ m.enabled s, ∃ dir : Direction, command.action? = some dir.name

/-- The model with noise, with what its turns do. -/
structure IsNoise (m : Model) (l : Level) (kind : Encoding.Kind) (noise : Noise)
    (outcomes : Nat → Direction × Step → List (Option Expr × Outcome)) : Prop where
  made : m.IsMade l (.ofKind kind l) (.noise noise) (l.stepTurns outcomes)
  noisy : ∀ cell x, StepOutcomes noise (l.stepsFrom cell) x.1 x.2 (outcomes cell x)

namespace IsNoise

/-- All turns with noise are sound. -/
theorem sound (h : IsNoise m l kind noise outcomes) : ∀ t ∈ l.stepTurns outcomes, t.Sound l false :=
  fun _ ht => sound_of_mem_noisyTurns h.noisy ht

/-- The branches of a noisy move, in a state where it is possible.  The first takes the step of the
direction, and each of the others tries that of a direction that gets a part. -/
theorem makesNoisyMove (h : IsNoise m l kind noise outcomes) (hnoise : noise.Accepted)
    (hs : Depicts (kind.Shows l) false s sc) (hsound : sc.Sound l) {step : Step} {after : Valuation}
    (hafter : carryOut s ((Encoding.ofKind kind l).stepEffect step).updates = some after)
    (hencodes : Encodes l kind after next) :
    MakesNoisyMove l kind noise s (sc.game l) dir next
      ((outcomes sc.player (dir, step)).map (branchOf (.ofKind kind l))) := by
  obtain ⟨intended?, slips, heq, hslips⟩ := (h.noisy sc.player (dir, step)).exists_slips
  refine ⟨_, slips.map (branchOf (.ofKind kind l)),
    noise.slipping (otherDirections (l.stepsFrom sc.player) dir), by rw [heq, List.map_cons],
    ?_, ?_, fun other => noise.mem_slipping hnoise, ?_⟩
  · exact ⟨after, hafter, hencodes⟩
  · exact (noise.slipping_sublist _).nodup
      (Commands.nodup_otherDirections (l.sublist_stepsFrom sc.player) dir)
  · rw [List.forall₂_map_right_iff]
    refine hslips.imp fun other o ho => ?_
    obtain ⟨slip, hslip, hout⟩ := ho
    obtain ⟨p, o⟩ := o
    obtain rfl : o = .slip slip := hout
    exact triesMove hs hsound (Level.mem_stepsFrom.mp hslip) p

/-- **One state.** The model offers what can be done in the game that its state encodes.  The
enabled commands are the open turns, with the guards that they have in the other model; only their
branches differ. -/
theorem playsNoisily (h : IsNoise m l kind noise outcomes) (hchoice : IsChoice choice l kind)
    (hnoise : noise.Accepted) (hs : Depicts (kind.Shows l) false s sc) (hsound : sc.Sound l) :
    PlaysNoisily l kind noise m choice s (sc.game l) where
  encodes := encodes_game hs
  possible := by
    intro dir next hmove
    have hf := Encoding.faithful_ofKind kind l
    obtain ⟨step, after, hstep, hany, hafter, hencodes⟩ := exists_updates hs hsound hmove
    have hcommand := h.made.filter_enabled hf rfl h.sound hs hsound dir
    have hchosen :=
      hchoice.filter_enabled hf rfl (fun t ht => sound_of_mem_takeTurns ht) hs hsound dir
    rw [hstep] at hcommand hchosen
    simp only [if_pos hany] at hcommand hchosen
    exact ⟨_, _, hcommand, hchosen, rfl, h.makesNoisyMove hnoise hs hsound hafter hencodes⟩
  impossible dir hmove := h.made.filter_enabled_eq_nil (Encoding.faithful_ofKind kind l) rfl h.sound
    hs hsound hmove
  directions command hcommand := h.made.exists_direction (Encoding.faithful_ofKind kind l) rfl h.sound
    hs hcommand

end IsNoise

/-- There is a model with noise, and what its turns do is known.  The shares of the directions can
always be computed, since accepted weights are at most one. -/
theorem exists_isNoise (l : Level) (c : Configuration) (hnoise : noise.Accepted) :
    ∃ m outcomes,
      Model.ofEncoding l (.ofKind c.encoding l) { c with mode := .noise noise } = .ok m ∧
      IsNoise m l c.encoding noise outcomes := by
  obtain ⟨outcomes, hnoisy, hok⟩ := Commands.exists_noisyTurns l hnoise
  obtain ⟨m, hm, hmade⟩ : ∃ m,
      Model.ofEncoding l (.ofKind c.encoding l) { c with mode := .noise noise } = .ok m ∧
        m.IsMade l (.ofKind c.encoding l) (.noise noise) (l.stepTurns outcomes) := by
    apply Model.isMade_of_commandsOf
    rw [Model.commandsOf, hok, Mode.drifts]
    simp
  exact ⟨m, outcomes, hm, hmade, hnoisy⟩

/-- **Every reachable state of the model with noise** offers the moves that are possible in the
game, each by one command with the guard that it has where the player chooses.  The command makes
the move or slips to one of the directions that get a part of the failure probability.  Where the
goals lie on the board, both models are those of the level. -/
theorem noise_mode_moves (l : Level) (c : Configuration) (noise : Noise)
    (hnoise : noise.Accepted) :
    ∃ m choice,
      Model.ofEncoding l (.ofKind c.encoding l) { c with mode := .noise noise } = .ok m ∧
      Model.ofEncoding l (.ofKind c.encoding l) { c with mode := .nondeterministic } = .ok choice ∧
      ((∀ goal ∈ l.goals, goal < l.size) →
        Model.ofLevel l { c with mode := .noise noise } = .ok m ∧
          Model.ofLevel l { c with mode := .nondeterministic } = .ok choice) ∧
      ∀ s, m.Reachable s → ∃ g, PlaysNoisily l c.encoding noise m choice s g := by
  obtain ⟨m, outcomes, hm, hisnoise⟩ := exists_isNoise l c hnoise
  obtain ⟨choice, hchoice, hischoice⟩ := exists_isChoice l c
  refine ⟨m, choice, hm, hchoice, fun hgoals => ?_, fun s hs => ?_⟩
  · exact ⟨Model.ofLevel_eq hgoals hm, Model.ofLevel_eq hgoals hchoice⟩
  · obtain ⟨sc, hdepicts, hsound⟩ := hisnoise.made.exists_scene
      (Encoding.faithful_ofKind c.encoding l) hisnoise.sound hs
    exact ⟨sc.game l, hisnoise.playsNoisily hischoice hnoise hdepicts hsound⟩

/-- Noise that slips to the right, where there is a step to the right. -/
def Noise.rightward : Noise :=
  ⟨none, .weighted .rightOrDrift⟩

/-- The weights of this noise are those of an accepted map. -/
theorem Noise.accepted_rightward : rightward.Accepted := by
  intro map h
  obtain rfl := Residual.weighted.inj h
  exact ProbabilityMap.accepted_rightOrDrift

/-- Noisy moves in a corridor. -/
theorem noise_mode_moves_corridor :
    ∃ m choice, Model.ofLevel .corridor { mode := .noise .rightward } = .ok m ∧
      Model.ofLevel .corridor { mode := .nondeterministic } = .ok choice ∧
      ∀ s, m.Reachable s → ∃ g, PlaysNoisily .corridor .tile .rightward m choice s g := by
  obtain ⟨m, choice, -, -, hmodels, hmoves⟩ :=
    noise_mode_moves .corridor {} .rightward Noise.accepted_rightward
  obtain ⟨hm, hchoice⟩ := hmodels (by decide)
  exact ⟨m, choice, hm, hchoice, hmoves⟩

/-- **The chances with noise** are not below nought and sum to one, whatever the success probability
is.  This holds of every command of the model, also where no run takes it: the failure probability
is divided into equal parts, or by shares that sum to exactly one. -/
theorem noise_mode_chances (l : Level) (c : Configuration) (noise : Noise)
    (hnoise : noise.Accepted) :
    ∃ m, Model.ofEncoding l (.ofKind c.encoding l) { c with mode := .noise noise } = .ok m ∧
      ((∀ goal ∈ l.goals, goal < l.size) → Model.ofLevel l { c with mode := .noise noise } = .ok m) ∧
      ∀ command ∈ m.commands, ∀ s mu, s muName = some (.num mu) → 0 ≤ mu → mu ≤ 1 →
        ∃ chances, command.HasChances s chances ∧ (∀ x ∈ chances, 0 ≤ x) ∧ chances.sum = 1 := by
  obtain ⟨m, outcomes, hm, hisnoise⟩ := exists_isNoise l c hnoise
  refine ⟨m, hm, fun hgoals => Model.ofLevel_eq hgoals hm, fun command hcommand s mu hs hmu hmu' => ?_⟩
  rw [hisnoise.made.commands, Mode.drifts, if_neg Bool.false_ne_true, List.append_nil] at hcommand
  obtain ⟨t, ht, rfl⟩ := List.mem_map.mp hcommand
  obtain ⟨cell, -, ht⟩ := List.mem_flatMap.mp ht
  obtain ⟨x, -, rfl⟩ := List.mem_map.mp ht
  obtain ⟨chances, hchances, hnonneg, hsum⟩ :=
    (hisnoise.noisy cell x).exists_chances s mu hs hmu hmu'
  exact ⟨chances, Turn.hasChances_iff.mpr hchances, hnonneg, hsum⟩

/-- The chances in a corridor where three of four moves succeed. -/
theorem noise_mode_chances_corridor :
    ∃ m, Model.ofLevel .corridor { mode := .noise .rightward } = .ok m ∧
      ∀ command ∈ m.commands, ∃ chances,
        command.HasChances (fun _ => some (.num (3 / 4))) chances ∧ (∀ x ∈ chances, 0 ≤ x) ∧
          chances.sum = 1 := by
  obtain ⟨m, -, hm, hchances⟩ := noise_mode_chances .corridor {} .rightward Noise.accepted_rightward
  refine ⟨m, hm (by decide), fun command hcommand => ?_⟩
  exact hchances command hcommand _ (3 / 4) rfl (by norm_num) (by norm_num)

end Sokoban
