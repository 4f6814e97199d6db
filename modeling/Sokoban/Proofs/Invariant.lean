import Sokoban.Proofs.Model

/-! # What holds in every reachable state

A scene is sound if the player and all boxes stand on reachable cells, no box has been gained or
lost, and the player does not stand on one.  Motions, slides and every outcome of a sound turn lead
from sound scenes to sound ones (`Sound.after`, `Sound.slide`, `Outcome.sound_scene`).  So every
branch of every enabled command does (`IsMade.exists_next`), and by induction over runs every
reachable state of a model depicts a sound scene (`IsMade.exists_scene`).  `boxes_invariant` says
what this means for the variables.

The boxes of a scene are a set: two boxes on one cell would be one box fewer, which `card_eq` rules
out.  For the box encoding this is the statement that positions are different, and no other
invariant is needed for it.
-/

namespace Sokoban

/-- A scene that can come up when a level is played. -/
structure Scene.Sound (l : Level) (sc : Scene) : Prop where
  player_reachable : l.reachable.contains sc.player
  boxes_reachable : ∀ cell ∈ sc.boxes, l.reachable.contains cell
  card_eq : sc.boxes.card = (Encoding.movable l).length
  player_free : sc.player ∉ sc.boxes

namespace Scene

variable {l : Level} {sc : Scene} {source target : Nat}

/-- The scene in which a level begins is sound: the player stands on floor, and all boxes that can
be moved are counted. -/
theorem sound_start (l : Level) : (start l).Sound l where
  player_reachable := Level.player_reachable
  boxes_reachable := fun cell hcell => (Encoding.mem_movable.mp (List.mem_toFinset.mp hcell)).2
  card_eq := List.toFinset_card_of_nodup (Encoding.nodup_movable l)
  player_free := by
    intro hplayer
    have hbox := (Encoding.mem_movable.mp (List.mem_toFinset.mp hplayer)).1
    simp [Level.hasBox, start, l.player_floor] at hbox

/-- Moving a box to a free cell keeps the number of boxes. -/
theorem card_insert_erase {boxes : Finset Nat} (hsource : source ∈ boxes) (htarget : target ∉ boxes) :
    (insert target (boxes.erase source)).card = boxes.card := by
  have hnot : target ∉ boxes.erase source := fun h => htarget (Finset.mem_of_mem_erase h)
  rw [Finset.card_insert_of_notMem hnot, Finset.card_erase_add_one hsource]

/-- A box that moves to a reachable cell leaves all boxes on reachable cells. -/
theorem Sound.reachable_insert (h : sc.Sound l) (htarget : l.reachable.contains target) :
    ∀ cell ∈ insert target (sc.boxes.erase source), l.reachable.contains cell := by
  intro cell hcell
  rcases Finset.mem_insert.mp hcell with rfl | hmem
  · exact htarget
  · exact h.boxes_reachable cell (Finset.mem_of_mem_erase hmem)

/-- **Legal motions** lead from sound scenes to sound ones.  The player goes to a cell that is free,
or from which the box has just been pushed. -/
theorem Sound.after (h : sc.Sound l) {motion : Motion} (hreach : motion.InReach l)
    (hlegal : motion.isLegal sc.boxes) : (sc.after motion).Sound l := by
  cases motion with
  | walk target =>
      exact ⟨hreach, h.boxes_reachable, h.card_eq, of_decide_eq_true hlegal⟩
  | shove target beyond =>
      obtain ⟨htarget, hbeyond, hne⟩ := hreach
      obtain ⟨hbox, hfree⟩ := of_decide_eq_true hlegal
      refine ⟨htarget, h.reachable_insert hbeyond, ?_, ?_⟩
      · exact (card_insert_erase hbox hfree).trans h.card_eq
      · simp [Scene.after, hne]

/-- Trying motions leads from a sound scene to a sound one: one of them is legal and made, or none
is. -/
theorem Sound.attempt (h : sc.Sound l) {motions : List Motion}
    (hreach : ∀ motion ∈ motions, motion.InReach l) : (sc.attempt motions).Sound l := by
  unfold Scene.attempt
  split
  next motion hfind =>
    exact h.after (hreach motion (List.mem_of_find?_eq_some hfind)) (List.find?_some hfind)
  next => exact h

/-- **Slides** lead from sound scenes to sound ones.  A box does not slide to the player's cell, nor
to one that has a box, so none is lost under another. -/
theorem Sound.slide (h : sc.Sound l) (hslides : sc.Slides l source target) :
    (sc.slide source target).Sound l where
  player_reachable := h.player_reachable
  boxes_reachable := h.reachable_insert hslides.reachable
  card_eq := (card_insert_erase hslides.box hslides.free).trans h.card_eq
  player_free := by
    simp [Scene.slide, hslides.player.symm, h.player_free]

/-- Whether a box may slide has nothing to do with soundness. -/
theorem Sound.withDrift (h : sc.Sound l) (b : Bool) : ({ sc with drifting := b } : Scene).Sound l :=
  ⟨h.player_reachable, h.boxes_reachable, h.card_eq, h.player_free⟩

end Scene

/-- **Outcomes** of sound turns lead from sound scenes to sound ones.  There is one case for each
kind of outcome. -/
theorem Outcome.sound_scene {l : Level} {drifts : Bool} {cell : Nat} {gate : Gate} {sc : Scene}
    {o : Outcome} (ho : o.Sound l drifts cell gate) (h : sc.Sound l) : (o.scene sc).Sound l := by
  cases o with
  | stay => exact h
  | attempt motion =>
      obtain ⟨dir, step, hstep, hmotion⟩ := ho
      refine h.attempt fun other hother => ?_
      rw [List.mem_singleton.mp hother]
      exact inReach_of_step? hstep hmotion
  | take step => exact h.attempt (inReach_motions ho.2)
  | slip step => exact h.attempt (inReach_motions ho)
  | drift => exact h.withDrift true

namespace Model

variable {l : Level} {m : Model} {e : Encoding} {Shows : Valuation → Finset Nat → Prop}
  {mode : Mode} {turns : List Turn} {s : Valuation} {sc : Scene} {c : Command}

/-- The enabled commands are the open turns, and those of the adversary that drift enables.  So
which commands a state enables can be told from its scene. -/
theorem IsMade.enabled_eq (h : m.IsMade l e mode turns) (hf : e.Faithful l Shows)
    (hturns : ∀ t ∈ turns, t.Sound l mode.drifts) (hs : Depicts Shows mode.drifts s sc) :
    m.enabled s = (turns.filter (·.isOpen sc)).map (Turn.command e) ++
      if mode.drifts then (Commands.driftCommands l e).filter (·.isEnabled s) else [] := by
  have hopen : ∀ t ∈ turns, (t.command e).isEnabled s = t.isOpen sc := by
    intro t ht
    rw [Command.isEnabled, Turn.command, Turn.eval_guard hf hs (hturns t ht).gate]
    cases t.isOpen sc <;> rfl
  rw [enabled, h.commands, List.filter_append, List.filter_map]
  congr 1
  · exact congrArg _ (List.filter_congr hopen)
  · split <;> rfl

/-- An enabled command is an open turn, or one of the adversary whose guard holds. -/
theorem IsMade.mem_enabled (h : m.IsMade l e mode turns) (hf : e.Faithful l Shows)
    (hturns : ∀ t ∈ turns, t.Sound l mode.drifts) (hs : Depicts Shows mode.drifts s sc) :
    c ∈ m.enabled s ↔ (∃ t ∈ turns, t.isOpen sc ∧ c = t.command e) ∨
      (mode.drifts ∧ c ∈ Commands.driftCommands l e ∧ c.guard.eval s = some (.bool true)) := by
  rw [h.enabled_eq hf hturns hs, List.mem_append]
  refine or_congr ?_ ?_
  · simp only [List.mem_map, List.mem_filter, and_assoc, eq_comm]
  · cases mode.drifts <;> simp [Command.isEnabled]

/-- **One step.** Every branch of every enabled command leads from a state that depicts a sound
scene to such a state. -/
theorem IsMade.exists_next (h : m.IsMade l e mode turns) (hf : e.Faithful l Shows)
    (hturns : ∀ t ∈ turns, t.Sound l mode.drifts) (hs : Depicts Shows mode.drifts s sc)
    (hsc : sc.Sound l) (hc : c ∈ m.enabled s) {b : Branch} (hb : b ∈ c.branches) :
    ∃ after next, b.next? s = some after ∧ Depicts Shows mode.drifts after next ∧ next.Sound l := by
  rcases (h.mem_enabled hf hturns hs).mp hc with ⟨t, ht, hopen, rfl⟩ | ⟨hdrifts, hmem, hguard⟩
  · obtain ⟨o, ho, rfl⟩ := List.mem_map.mp hb
    have hsound := (hturns t ht).outcomes o ho
    obtain ⟨after, hcarry, hdepicts⟩ :=
      Outcome.exists_next hf hs hsound (Bool.and_eq_true_iff.mp hopen).2
    exact ⟨after, _, hcarry, hdepicts, Outcome.sound_scene hsound hsc⟩
  · rw [hdrifts] at hs ⊢
    obtain ⟨-, -, rfl | ⟨source, target, after, hslides, hleads, hdepicts, -⟩⟩ :=
      Commands.cases_of_enabled hf hs hmem hguard
    · obtain rfl := List.mem_singleton.mp hb
      exact ⟨_, _, carryOut_cons rfl rfl, hf.depicts_update hs false, hsc.withDrift false⟩
    · obtain ⟨assignments, hbranches, hcarry⟩ := hleads
      rw [hbranches] at hb
      obtain rfl := List.mem_singleton.mp hb
      exact ⟨after, _, hcarry, hdepicts, hsc.slide hslides⟩

/-- **Every run.** Every reachable state depicts a sound scene.  By induction over runs, from the
initial scene and the step above. -/
theorem IsMade.exists_scene (h : m.IsMade l e mode turns) (hf : e.Faithful l Shows)
    (hturns : ∀ t ∈ turns, t.Sound l mode.drifts) (hs : m.Reachable s) :
    ∃ sc, Depicts Shows mode.drifts s sc ∧ sc.Sound l := by
  refine hs.invariant (fun s => ∃ sc, Depicts Shows mode.drifts s sc ∧ sc.Sound l) ?_ ?_
  · exact ⟨_, h.depicts_initial hf, Scene.sound_start l⟩
  · intro s hinv c hc b hb
    obtain ⟨sc, hdepicts, hsc⟩ := hinv
    obtain ⟨after, next, hnext, hafter, hsound⟩ := h.exists_next hf hturns hdepicts hsc hc hb
    exact ⟨after, hnext, next, hafter, hsound⟩

end Model

/-! ## In terms of the variables -/

/-- The cells that the variables for the boxes give: in the tile encoding the reachable cells whose
variables hold, in the box encoding the positions of the boxes, one by one. -/
def Encoding.Kind.BoxCells (l : Level) (s : Valuation) (cells : List Nat) : Kind → Prop
  | .tile =>
    (∀ cell, l.reachable.contains cell → ∃ b, s (boxName cell) = some (.bool b)) ∧
      cells = l.reachable.toList.filter fun cell => s (boxName cell) == some (.bool true)
  | .box =>
    cells.length = (movable l).length ∧
      ∀ index cell : Nat, cells[index]? = some cell → s (boxName index) = some (.num cell)

/-- What a state shows is a list of different cells, which the variables give.  In the tile encoding
they are listed in ascending order, in the box encoding in the order of the boxes. -/
theorem Encoding.Kind.exists_boxCells {l : Level} {kind : Kind} {s : Valuation} {boxes : Finset Nat}
    (h : kind.Shows l s boxes) :
    ∃ cells, kind.BoxCells l s cells ∧ cells.Nodup ∧ cells.toFinset = boxes := by
  cases kind with
  | tile =>
      obtain ⟨hreach, hvalue⟩ := h
      refine ⟨_, ⟨fun cell hcell => ⟨_, hvalue cell hcell⟩, rfl⟩,
        (CellSet.nodup_toList _).filter _, ?_⟩
      ext cell
      simp only [List.mem_toFinset, List.mem_filter, CellSet.mem_toList, beq_iff_eq]
      constructor
      · intro hmem
        obtain ⟨hcell, htrue⟩ := hmem
        simpa using (hvalue cell hcell).symm.trans htrue
      · intro hmem
        exact ⟨hreach cell hmem, (hvalue cell (hreach cell hmem)).trans (by simp [hmem])⟩
  | box =>
      obtain ⟨cells, hshows, rfl⟩ := h
      exact ⟨cells, ⟨hshows.length_eq, hshows.value⟩, hshows.nodup, rfl⟩

/-- **In every reachable state**, whatever the encoding and the mode, the player is within reach, no
box has been gained or lost, the boxes stand on different reachable cells, and none stands on the
player's cell.  No run gets stuck in a branch of an enabled command.  The model is the one of the
level if the goals lie on the board, and nothing here depends on where they lie. -/
theorem boxes_invariant (l : Level) (c : Configuration) (h : c.mode.Accepted) :
    ∃ m, Model.ofEncoding l (.ofKind c.encoding l) c = .ok m ∧
      ((∀ goal ∈ l.goals, goal < l.size) → Model.ofLevel l c = .ok m) ∧ ∀ s, m.Reachable s →
      (∀ command ∈ m.enabled s, ∀ b ∈ command.branches, ∃ after, b.next? s = some after) ∧
      ∃ (player : Nat) (cells : List Nat),
        s positionName = some (.num player) ∧ l.reachable.contains player ∧
        c.encoding.BoxCells l s cells ∧ cells.length = (Encoding.movable l).length ∧
        cells.Nodup ∧ (∀ cell ∈ cells, l.reachable.contains cell) ∧ player ∉ cells := by
  obtain ⟨turns, hturns, hmade⟩ := Model.exists_isMade l c h
  obtain ⟨m, hm, hmade⟩ := hmade (.ofKind c.encoding l)
  have hf := Encoding.faithful_ofKind c.encoding l
  refine ⟨m, hm, fun hgoals => Model.ofLevel_eq hgoals hm, fun s hs => ?_⟩
  obtain ⟨sc, hdepicts, hsound⟩ := hmade.exists_scene hf hturns hs
  obtain ⟨cells, hcells, hnodup, hboxes⟩ := Encoding.Kind.exists_boxCells hdepicts.boxes
  refine ⟨fun command hcommand b hb => ?_, sc.player, cells, hdepicts.position,
    hsound.player_reachable, hcells, ?_, hnodup, fun cell hcell => ?_, fun hplayer => ?_⟩
  · obtain ⟨after, -, hnext, -⟩ := hmade.exists_next hf hturns hdepicts hsound hcommand hb
    exact ⟨after, hnext⟩
  · rw [← hsound.card_eq, ← hboxes, List.toFinset_card_of_nodup hnodup]
  · exact hsound.boxes_reachable cell (hboxes ▸ List.mem_toFinset.mpr hcell)
  · exact hsound.player_free (hboxes ▸ List.mem_toFinset.mpr hplayer)

/-- The states of a corridor in which the box drifts. -/
theorem boxes_invariant_corridor :
    ∃ m, Model.ofLevel .corridor { encoding := .box, mode := .fixed .rightOrDrift } = .ok m ∧
      ∀ s, m.Reachable s → ∃ (player : Nat) (cells : List Nat),
        s positionName = some (.num player) ∧ Encoding.Kind.box.BoxCells .corridor s cells ∧
        player ∉ cells := by
  obtain ⟨m, -, hm, hinv⟩ := boxes_invariant .corridor { encoding := .box, mode := .fixed .rightOrDrift }
    ProbabilityMap.accepted_rightOrDrift
  refine ⟨m, hm (by decide), fun s hs => ?_⟩
  obtain ⟨-, player, cells, hposition, -, hcells, -, -, -, hfree⟩ := hinv s hs
  exact ⟨player, cells, hposition, hcells, hfree⟩

end Sokoban
