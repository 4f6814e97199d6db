import Sokoban.Proofs.Invariant

/-! # The game

Sokoban itself is played on the board, with the player's cell and the cells of all boxes, whether
the player can come to them or not.  `Game.move?` is its rule.

`nondeterministic_game` says that the model in which the player chooses is this game: reachable
states encode the games that can come up, and all of them; a direction has an enabled command just
if the move is possible, and then a single one, which leads to a state that encodes the game after
the move; and the goal holds where all goal cells hold boxes.

The bridge is `Scene.move?_game`: what the rule finds on the board is what the step of the player's
cell and its legal motion say.  It goes through `Game.move?_eq`, where the walls are gone: from a
reachable cell, a neighbour is reachable just if it is no wall.
-/

namespace Sokoban

/-- The player and all boxes. -/
structure Game where
  player : Nat
  boxes : Finset Nat
deriving DecidableEq

namespace Game

/-- The game before anything has moved. -/
def start (l : Level) : Game :=
  ⟨l.player, l.boxes.toFinset⟩

/-- The game after going in a direction.  The player walks to a free neighbour that is no wall, or
pushes the box there to the cell behind, if that is free and no wall. -/
def move? (l : Level) (g : Game) (dir : Direction) : Option Game :=
  match l.neighbor? g.player dir with
  | none => none
  | some target =>
    if l.board.isOpen target then
      if target ∈ g.boxes then
        match l.neighbor? target dir with
        | none => none
        | some beyond =>
          if l.board.isOpen beyond ∧ beyond ∉ g.boxes then
            some ⟨target, insert beyond (g.boxes.erase target)⟩
          else none
      else some ⟨target, g.boxes⟩
    else none

/-- The games that can come up. -/
inductive Reachable (l : Level) : Game → Prop
  | start : Reachable l (start l)
  | move {g next : Game} {dir : Direction} (run : Reachable l g)
      (hmove : g.move? l dir = some next) : Reachable l next

end Game

/-- The game that a scene is about. -/
def Scene.game (l : Level) (sc : Scene) : Game :=
  ⟨sc.player, sc.boxes ∪ l.fixedBoxes⟩

variable {l : Level} {sc : Scene} {dir : Direction} {g next : Game}

/-- The scene in which a level begins is about the game before anything has moved. -/
theorem Scene.game_start (l : Level) : (start l).game l = .start l := by
  rw [Game.start, game, start]
  congr 1
  ext cell
  cases hreach : l.reachable.contains cell <;>
    simp [Level.mem_boxes, Level.mem_fixedBoxes, Encoding.mem_movable, hreach]

/-- A box that is pushed is none of the fixed ones. -/
theorem insert_erase_union {boxes : Finset Nat} {target beyond : Nat}
    (htarget : l.reachable.contains target) :
    insert beyond (boxes.erase target) ∪ l.fixedBoxes =
      insert beyond ((boxes ∪ l.fixedBoxes).erase target) := by
  rw [Finset.erase_union_distrib, Finset.erase_eq_of_notMem (Level.not_mem_fixedBoxes htarget),
    Finset.insert_union]

/-- From a reachable cell, the rule of the game looks at the cells ahead only.  A neighbour that is
no wall is reachable, and so is the cell behind it if that is no wall either. -/
theorem Game.move?_eq (hplayer : l.reachable.contains g.player) :
    g.move? l dir = (l.ahead? g.player dir).bind fun target =>
      if target ∈ g.boxes then
        ((l.ahead? target dir).filter (· ∉ g.boxes)).map fun beyond =>
          ⟨target, insert beyond (g.boxes.erase target)⟩
      else some ⟨target, g.boxes⟩ := by
  unfold move?
  rw [Level.ahead?_eq_filter hplayer]
  cases hneighbor : l.neighbor? g.player dir with
  | none => rfl
  | some target =>
      cases htarget : l.board.isOpen target with
      | false => simp [Option.filter, htarget]
      | true =>
          have hreach := (Level.reachable_neighbor_iff hplayer hneighbor).mpr htarget
          simp only [Option.filter, htarget, if_true, Option.bind_some, Level.ahead?_eq_filter hreach]
          cases hbehind : l.neighbor? target dir with
          | none => rfl
          | some beyond =>
              by_cases hbeyond : l.board.isOpen beyond <;> by_cases hfree : beyond ∈ g.boxes <;>
                simp [hbeyond, hfree]

/-- **The rule of the game** in terms of steps: a move is possible if a motion of the step from the
player's cell is legal, and then it makes this motion. -/
theorem Scene.move?_game (hplayer : l.reachable.contains sc.player) :
    (sc.game l).move? l dir = (l.step? sc.player dir).bind fun step =>
      (step.motions.find? (·.isLegal sc.boxes)).map fun motion => (sc.after motion).game l := by
  have hmem : ∀ {cell n}, l.ahead? cell dir = some n → (n ∈ (sc.game l).boxes ↔ n ∈ sc.boxes) :=
    fun h => Encoding.mem_union_fixedBoxes (Level.ahead?_eq_some_iff.mp h).2
  rw [Game.move?_eq (g := sc.game l) hplayer]
  cases htarget : l.ahead? sc.player dir with
  | none => simp [game, htarget, Level.step?]
  | some target =>
      have hstep : (sc.game l).player = sc.player := rfl
      simp only [hstep, htarget, Option.bind_some, hmem htarget, Level.step?, Option.map_some]
      have hreach := (Level.ahead?_eq_some_iff.mp htarget).2
      by_cases hbox : target ∈ sc.boxes
      · cases hbeyond : l.ahead? target dir with
        | none => simp [hbox, Step.motions, Motion.isLegal]
        | some beyond =>
            simp only [Option.filter, hmem hbeyond]
            by_cases hfree : beyond ∈ sc.boxes
            · simp [hbox, hfree, Step.motions, Motion.isLegal]
            · simp [hbox, hfree, Step.motions, Motion.isLegal, after, game,
                insert_erase_union hreach]
      · cases hbeyond : l.ahead? target dir <;>
          simp [hbox, Step.motions, Motion.isLegal, after, game]

/-- A possible move makes a legal motion of the step from the player's cell. -/
theorem Scene.exists_motion (hplayer : l.reachable.contains sc.player)
    (hmove : (sc.game l).move? l dir = some next) :
    ∃ step motion, l.step? sc.player dir = some step ∧
      step.motions.find? (·.isLegal sc.boxes) = some motion ∧ (sc.after motion).game l = next := by
  rw [move?_game hplayer] at hmove
  obtain ⟨step, hstep, hmotion⟩ := Option.bind_eq_some_iff.mp hmove
  obtain ⟨motion, hfind, hnext⟩ := Option.map_eq_some_iff.mp hmotion
  exact ⟨step, motion, hstep, hfind, hnext⟩

/-- Where no move is possible, no motion of the step from the player's cell is legal. -/
theorem Scene.any_legal_eq_false (hplayer : l.reachable.contains sc.player)
    (hmove : (sc.game l).move? l dir = none) {step : Step}
    (hstep : l.step? sc.player dir = some step) :
    step.motions.any (·.isLegal sc.boxes) = false := by
  rw [move?_game hplayer, hstep, Option.bind_some, Option.map_eq_none_iff,
    List.find?_eq_none] at hmove
  rw [List.any_eq_false]
  exact hmove

/-! ## Enabled steps -/

/-- Different directions have different names, so an action tells its direction. -/
theorem Direction.name_inj {dir other : Direction} : dir.name = other.name ↔ dir = other := by
  cases dir <;> cases other <;> simp [name]

/-- Only one item of a list contributes.  The turns of a model are listed cell by cell and step by
step, and in a given scene and direction all but one of them are closed. -/
theorem flatMap_eq_of_unique {α β : Type} {f : α → List β} {xs : List α} {x : α}
    (hnodup : xs.Nodup) (hx : x ∈ xs) (hother : ∀ y ∈ xs, y ≠ x → f y = []) :
    xs.flatMap f = f x := by
  induction xs with
  | nil => cases hx
  | cons y xs ih =>
      obtain ⟨hy, hxs⟩ := List.nodup_cons.mp hnodup
      rw [List.flatMap_cons]
      by_cases hyx : y = x
      · have hnone : xs.flatMap f = [] := by
          rw [List.flatMap_eq_nil_iff]
          intro z hz
          exact hother z (List.mem_cons_of_mem y hz) fun hzx => hy (hyx ▸ hzx ▸ hz)
        rw [hnone, List.append_nil, hyx]
      · have hmem : x ∈ xs := (List.mem_cons.mp hx).resolve_left fun h => hyx h.symm
        rw [hother y List.mem_cons_self hyx, List.nil_append]
        exact ih hxs hmem fun z hz => hother z (List.mem_cons_of_mem y hz)

/-- In one direction a cell has its step, if it has one. -/
theorem Level.filter_stepsFrom (l : Level) (cell : Nat) (dir : Direction) :
    (l.stepsFrom cell).filter (·.1 == dir) = ((l.step? cell dir).map (dir, ·)).toList := by
  have hall : Direction.all.Nodup := by decide
  rw [stepsFrom, List.filterMap_eq_flatMap_toList, List.filter_flatMap,
    flatMap_eq_of_unique hall (Direction.mem_all dir)]
  · cases l.step? cell dir <;> simp
  · intro other _ hne
    cases l.step? cell other <;> simp [hne]

/-- **The open turns in a direction**: the one of the player's cell, if it has a step in this
direction and a motion of that step is legal. -/
theorem filter_stepTurns (hplayer : l.reachable.contains sc.player)
    (outcomes : Nat → Direction × Step → List (Option Expr × Outcome)) (dir : Direction) :
    (l.stepTurns outcomes).filter (fun t => t.isOpen sc && t.action? == some dir.name) =
      match l.step? sc.player dir with
      | none => []
      | some step =>
        if step.motions.any (·.isLegal sc.boxes) then
          [⟨some dir.name, sc.player, .possible step, outcomes sc.player (dir, step)⟩]
        else [] := by
  rw [Level.stepTurns, List.filter_flatMap, flatMap_eq_of_unique (CellSet.nodup_toList _)
    (CellSet.mem_toList.mpr hplayer)]
  · have hrow : (l.stepsFrom sc.player).filter (fun x =>
        x.2.motions.any (·.isLegal sc.boxes) && x.1 == dir) =
          ((l.step? sc.player dir).map (dir, ·)).toList.filter fun x =>
            x.2.motions.any (·.isLegal sc.boxes) := by
      rw [← List.filter_filter, Level.filter_stepsFrom]
    have htest : ∀ x : Direction × Step,
        (Turn.isOpen sc ⟨some x.1.name, sc.player, .possible x.2, outcomes sc.player x⟩ &&
          some x.1.name == some dir.name) = (x.2.motions.any (·.isLegal sc.boxes) && x.1 == dir) := by
      intro x
      have hname : (some x.1.name == some dir.name) = (x.1 == dir) := by
        rw [Bool.eq_iff_iff, beq_iff_eq, beq_iff_eq, Option.some_inj, Direction.name_inj]
      simp [Turn.isOpen, Gate.isOpen, hname]
    rw [List.filter_map]
    simp only [Function.comp_def, htest, hrow]
    cases l.step? sc.player dir with
    | none => rfl
    | some step => cases hlegal : step.motions.any (·.isLegal sc.boxes) <;> simp [hlegal]
  · intro cell _ hne
    simp [List.filter_map, Turn.isOpen, hne.symm, Function.comp_def]

section StepTurns

variable {m : Model} {e : Encoding} {mode : Mode} {s : Valuation}
  {Shows : Valuation → Finset Nat → Prop}
  {outcomes : Nat → Direction × Step → List (Option Expr × Outcome)}
  (h : m.IsMade l e mode (l.stepTurns outcomes)) (hf : e.Faithful l Shows)
  (hdrifts : mode.drifts = false) (hturns : ∀ t ∈ l.stepTurns outcomes, t.Sound l mode.drifts)
  (hs : Depicts Shows mode.drifts s sc)

include h hf hdrifts hturns hs

/-- **The enabled commands of a direction**: the one of the player's cell, if its step can be taken.
It is the open turn of that direction, in any encoding and in any mode with such turns. -/
theorem Model.IsMade.filter_enabled (hsound : sc.Sound l) (dir : Direction) :
    (m.enabled s).filter (·.action? == some dir.name) =
      match l.step? sc.player dir with
      | none => []
      | some step =>
        if step.motions.any (·.isLegal sc.boxes) then
          [Turn.command e
            ⟨some dir.name, sc.player, .possible step, outcomes sc.player (dir, step)⟩]
        else [] := by
  have haction : ∀ t : Turn, (t.command e).action? = t.action? := fun _ => rfl
  rw [h.enabled_eq hf hturns hs, hdrifts, if_neg Bool.false_ne_true, List.append_nil,
    List.filter_map, List.filter_filter]
  simp only [Function.comp_def, haction, Bool.and_comm (_ == _),
    filter_stepTurns hsound.player_reachable]
  cases l.step? sc.player dir with
  | none => rfl
  | some step => cases hlegal : step.motions.any (·.isLegal sc.boxes) <;> simp [hlegal]

/-- A direction in which no move is possible has no enabled command: there is no step in it, or no
motion of the step is legal. -/
theorem Model.IsMade.filter_enabled_eq_nil (hsound : sc.Sound l)
    (hmove : (sc.game l).move? l dir = none) :
    (m.enabled s).filter (·.action? == some dir.name) = [] := by
  rw [h.filter_enabled hf hdrifts hturns hs hsound dir]
  cases hstep : l.step? sc.player dir with
  | none => rfl
  | some step => simp [Scene.any_legal_eq_false hsound.player_reachable hmove hstep]

/-- Every enabled command has a direction for its action, as there is no adversary. -/
theorem Model.IsMade.exists_direction {c : Command} (hc : c ∈ m.enabled s) :
    ∃ dir : Direction, c.action? = some dir.name := by
  rcases (h.mem_enabled hf hturns hs).mp hc with ⟨t, ht, -, rfl⟩ | ⟨hdrifting, -⟩
  · obtain ⟨cell, -, ht⟩ := List.mem_flatMap.mp ht
    obtain ⟨x, -, rfl⟩ := List.mem_map.mp ht
    exact ⟨x.1, rfl⟩
  · rw [hdrifts] at hdrifting
    cases hdrifting

end StepTurns

/-! ## The model is the game -/

/-- A state encodes a game: it shows the player, and the boxes besides the fixed ones. -/
structure Encodes (l : Level) (kind : Encoding.Kind) (s : Valuation) (g : Game) : Prop where
  position : s positionName = some (.num g.player)
  boxes : ∃ movable, kind.Shows l s movable ∧ g.boxes = movable ∪ l.fixedBoxes

/-- A model in a state does what can be done in a game. -/
structure Plays (l : Level) (kind : Encoding.Kind) (m : Model) (s : Valuation) (g : Game) :
    Prop where
  encodes : Encodes l kind s g
  /-- A possible move has one enabled command, which makes this move. -/
  possible : ∀ dir next, g.move? l dir = some next →
    ∃ command, (m.enabled s).filter (·.action? == some dir.name) = [command] ∧
      ∃ after, command.LeadsTo s after ∧ Encodes l kind after next
  /-- Any other has none. -/
  impossible : ∀ dir, g.move? l dir = none →
    (m.enabled s).filter (·.action? == some dir.name) = []
  /-- Nothing but moves can be done. -/
  directions : ∀ command ∈ m.enabled s, ∃ dir : Direction, command.action? = some dir.name
  goal : m.goal.eval s = some (.bool (decide (∀ goal ∈ l.goals, goal ∈ g.boxes)))

section Plays

variable {kind : Encoding.Kind} {m : Model} {s : Valuation}

/-- A state that depicts a scene encodes the game that the scene is about. -/
theorem encodes_game (hs : Depicts (kind.Shows l) false s sc) : Encodes l kind s (sc.game l) :=
  ⟨hs.position, sc.boxes, hs.boxes, rfl⟩

/-- The model of the player's choice, with its turns. -/
def IsChoice (m : Model) (l : Level) (kind : Encoding.Kind) : Prop :=
  m.IsMade l (.ofKind kind l) .nondeterministic (l.stepTurns fun _ x => [(none, .take x.2)])

/-- What a move of the game does in the model: there is one enabled command for it, and it leads to
a state that depicts the scene after the motion. -/
theorem IsChoice.exists_command (hm : IsChoice m l kind) (hs : Depicts (kind.Shows l) false s sc)
    (hsound : sc.Sound l) (hmove : (sc.game l).move? l dir = some next) :
    ∃ command, (m.enabled s).filter (·.action? == some dir.name) = [command] ∧
      ∃ after sc', command.LeadsTo s after ∧ Depicts (kind.Shows l) false after sc' ∧
        sc'.Sound l ∧ sc'.game l = next := by
  have hf := Encoding.faithful_ofKind kind l
  obtain ⟨step, motion, hstep, hfind, rfl⟩ :=
    Scene.exists_motion hsound.player_reachable hmove
  have hmem := List.mem_of_find?_eq_some hfind
  have hlegal := List.find?_some hfind
  have hany : step.motions.any (·.isLegal sc.boxes) := List.any_eq_true.mpr ⟨motion, hmem, hlegal⟩
  have hreach := inReach_motions ⟨dir, hstep⟩
  have hfilter := hm.filter_enabled hf rfl (fun t ht => sound_of_mem_takeTurns ht) hs hsound dir
  rw [hstep] at hfilter
  simp only [if_pos hany] at hfilter
  obtain ⟨after, hcarry, hdepicts⟩ := exists_next_step hf hs hreach hany
  rw [Scene.attempt_of_legal hfind] at hdepicts
  exact ⟨_, hfilter, after, sc.after motion, ⟨_, rfl, hcarry⟩, hdepicts,
    hsound.after (hreach motion hmem) hlegal, rfl⟩

/-- **One state.** The model does what can be done in the game that its state encodes.  A possible
move is a legal motion of the step in its direction, and that is what the command's guard asks for.
-/
theorem IsChoice.plays (hm : IsChoice m l kind) (hs : Depicts (kind.Shows l) false s sc)
    (hsound : sc.Sound l) : Plays l kind m s (sc.game l) where
  encodes := encodes_game hs
  possible := by
    intro dir next hmove
    obtain ⟨command, hfilter, after, sc', hleads, hdepicts, -, rfl⟩ :=
      hm.exists_command hs hsound hmove
    exact ⟨command, hfilter, after, hleads, encodes_game hdepicts⟩
  impossible dir hmove := hm.filter_enabled_eq_nil (Encoding.faithful_ofKind kind l) rfl
    (fun t ht => sound_of_mem_takeTurns ht) hs hsound hmove
  directions command hcommand := hm.exists_direction (Encoding.faithful_ofKind kind l) rfl
    (fun t ht => sound_of_mem_takeTurns ht) hs hcommand
  goal := by
    rw [hm.goal]
    exact (Encoding.faithful_ofKind kind l).goal hs.boxes

/-- **Every run of the model** is one of the game.  By induction over runs; an enabled command makes
a legal motion, which is a possible move. -/
theorem IsChoice.exists_game (hm : IsChoice m l kind) (hs : m.Reachable s) :
    ∃ sc, Depicts (kind.Shows l) false s sc ∧ sc.Sound l ∧ (sc.game l).Reachable l := by
  refine hs.invariant
    (fun s => ∃ sc, Depicts (kind.Shows l) false s sc ∧ sc.Sound l ∧ (sc.game l).Reachable l) ?_ ?_
  · refine ⟨.start l, hm.depicts_initial (Encoding.faithful_ofKind kind l), Scene.sound_start l, ?_⟩
    rw [Scene.game_start]
    exact .start
  · intro s hinv command hcommand b hb
    obtain ⟨sc, hdepicts, hsound, hgame⟩ := hinv
    have hplays := hm.plays hdepicts hsound
    obtain ⟨dir, hdir⟩ := hplays.directions command hcommand
    have hmem : command ∈ (m.enabled s).filter (·.action? == some dir.name) :=
      List.mem_filter.mpr ⟨hcommand, by rw [hdir, beq_self_eq_true]⟩
    cases hmove : (sc.game l).move? l dir with
    | none =>
        rw [hplays.impossible dir hmove] at hmem
        cases hmem
    | some next =>
        obtain ⟨only, hfilter, after, sc', ⟨assignments, hbranches, hcarry⟩, hafter, hsound', rfl⟩ :=
          hm.exists_command hdepicts hsound hmove
        rw [hfilter, List.mem_singleton] at hmem
        subst hmem
        rw [hbranches] at hb
        obtain rfl := List.mem_singleton.mp hb
        exact ⟨after, hcarry, sc', hafter, hsound', .move hgame hmove⟩

/-- **Every run of the game** is one of the model.  By induction over games that can come up, with
the command of each move. -/
theorem IsChoice.exists_state (hm : IsChoice m l kind) (hg : g.Reachable l) :
    ∃ s sc, m.Reachable s ∧ Depicts (kind.Shows l) false s sc ∧ sc.Sound l ∧ sc.game l = g := by
  induction hg with
  | start =>
      exact ⟨m.initial, .start l, .initial,
        hm.depicts_initial (Encoding.faithful_ofKind kind l), Scene.sound_start l,
        Scene.game_start l⟩
  | move _ hmove ih =>
      obtain ⟨s, sc, hs, hdepicts, hsound, rfl⟩ := ih
      obtain ⟨command, hfilter, after, sc', ⟨assignments, hbranches, hcarry⟩, hafter, hsound',
        rfl⟩ := hm.exists_command hdepicts hsound hmove
      have hmem : command ∈ m.enabled s :=
        List.mem_of_mem_filter (hfilter ▸ List.mem_singleton_self command)
      have hbranch : (⟨none, assignments⟩ : Branch) ∈ command.branches := by
        rw [hbranches]
        exact List.mem_singleton_self _
      exact ⟨after, sc', .step hs hmem hbranch hcarry, hafter, hsound', rfl⟩

end Plays

/-- There is a model in which the player chooses: no arithmetic is done for it, so none can fail. -/
theorem exists_isChoice (l : Level) (c : Configuration) :
    ∃ m, Model.ofEncoding l (.ofKind c.encoding l) { c with mode := .nondeterministic } = .ok m ∧
      IsChoice m l c.encoding := by
  apply Model.isMade_of_commandsOf
  rw [Model.commandsOf, Commands.nondeterministic_eq, Mode.drifts]
  simp

/-- **The model in which the player chooses is the game**, for every level whose goals lie on the
board and in either encoding.  Its reachable states play the games that can come up, and every game
that can come up is played by one of them. -/
theorem nondeterministic_game (l : Level) (hgoals : ∀ goal ∈ l.goals, goal < l.size)
    (c : Configuration) :
    ∃ m, Model.ofLevel l { c with mode := .nondeterministic } = .ok m ∧
      Encodes l c.encoding m.initial (.start l) ∧
      (∀ s, m.Reachable s → ∃ g, g.Reachable l ∧ Plays l c.encoding m s g) ∧
      ∀ g, g.Reachable l → ∃ s, m.Reachable s ∧ Plays l c.encoding m s g := by
  obtain ⟨m, hm, hmade⟩ := exists_isChoice l c
  refine ⟨m, Model.ofLevel_eq hgoals hm, ?_, fun s hs => ?_, fun g hg => ?_⟩
  · have hinitial := hmade.depicts_initial (Encoding.faithful_ofKind c.encoding l)
    exact Scene.game_start l ▸ encodes_game hinitial
  · obtain ⟨sc, hdepicts, hsound, hgame⟩ := hmade.exists_game hs
    exact ⟨sc.game l, hgame, hmade.plays hdepicts hsound⟩
  · obtain ⟨s, sc, hs, hdepicts, hsound, rfl⟩ := hmade.exists_state hg
    exact ⟨s, hs, hmade.plays hdepicts hsound⟩

/-- The game of a corridor. -/
theorem nondeterministic_game_corridor :
    ∃ m, Model.ofLevel .corridor { mode := .nondeterministic } = .ok m ∧
      Encodes .corridor .tile m.initial (.start .corridor) ∧
      (∀ s, m.Reachable s → ∃ g, g.Reachable .corridor ∧ Plays .corridor .tile m s g) ∧
      ∀ g, g.Reachable .corridor → ∃ s, m.Reachable s ∧ Plays .corridor .tile m s g :=
  nondeterministic_game .corridor (by decide) {}

end Sokoban
