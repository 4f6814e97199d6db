import Sokoban.Proofs.Arrangements
import Sokoban.Proofs.Encoding

/-! # The box encoding is faithful

Shoving and sliding replace one cell by another in the list of positions (`HasPositions.move`).
`ShowsPositions.move` says that the state then shows this list; no position comes up twice, because
boxes move to free cells only.  The facts that do not need the positions to be different are stated
without it, as the goal and the occupied cells are asked for in other states too.

The goal asks for some choice of a box for each open goal.  Such a choice exists just if every open
goal has a box on it (`exists_arrangement_iff`), as a box cannot be on two goals: the boxes that are
found for different goals are different by themselves.
-/

namespace Sokoban.Encoding

variable {l : Level} {s : Valuation} {cells : List Nat} {source target beyond : Nat}

/-- Shoving assigns to every position.  Those at the first cell are set to the second, all others to
what they are. -/
theorem box_shove : (box l).shove target beyond =
    (List.range (movable l).length).map fun index =>
      ⟨boxName index, .ite (boxAt index target) (.nat beyond) (.var (boxName index))⟩ := rfl

/-! ### Positions -/

namespace HasPositions

variable (h : HasPositions l s cells)

include h

/-- The position of every box that is asked for is known. -/
theorem exists_cell {index : Nat} (hindex : index ∈ List.range (movable l).length) :
    ∃ cell, cells[index]? = some cell := by
  rw [List.mem_range, ← h.length_eq] at hindex
  exact ⟨_, List.getElem?_eq_getElem hindex⟩

/-- A box with a position is one that can be moved. -/
theorem mem_range {index cell : Nat} (hcell : cells[index]? = some cell) :
    index ∈ List.range (movable l).length := by
  rw [List.mem_range, ← h.length_eq]
  exact (List.getElem?_eq_some_iff.mp hcell).1

/-- Whether a box is at a cell can be told, and is what its position says. -/
theorem boxAt {index : Nat} (hindex : index ∈ List.range (movable l).length) (cell : Nat) :
    (boxAt index cell).eval s = some (.bool (decide (cells[index]? = some cell))) := by
  obtain ⟨place, hplace⟩ := h.exists_cell hindex
  rw [Encoding.boxAt, Expr.eval_eq_nat (h.value index place hplace)]
  simp [hplace]

end HasPositions

/-! ### Boxes that are seen and moved -/

/-- **A cell is occupied** just if it is covered, wherever the boxes are.  On a reachable cell some
position has to be there; a cell out of reach is settled by the drawing, and no position counts. -/
theorem HasPositions.occupied (h : HasPositions l s cells) (cell : Nat) :
    ((box l).occupied cell).eval s = some (.bool (decide (l.Covered cells cell))) := by
  by_cases hcell : l.reachable.contains cell
  · have hfixed := Level.not_mem_fixedBoxes hcell
    have hany : (List.range (movable l).length).any (fun index => cells[index]? = some cell) =
        decide (l.Covered cells cell) := by
      rw [← h.length_eq, Bool.eq_iff_iff, decide_eq_true_iff, Level.Covered,
        or_iff_right hfixed, and_iff_right hcell, List.mem_iff_getElem?]
      simp only [List.any_eq_true, List.mem_range, decide_eq_true_eq]
      constructor
      · intro h
        obtain ⟨index, -, hindex⟩ := h
        exact ⟨index, hindex⟩
      · intro h
        obtain ⟨index, hindex⟩ := h
        exact ⟨index, (List.getElem?_eq_some_iff.mp hindex).1, hindex⟩
    have hoccupied : (box l).occupied cell =
        .any ((List.range (movable l).length).map (Encoding.boxAt · cell)) := by
      simp [box, hcell]
    rw [hoccupied, Expr.eval_any_map fun index hindex => h.boxAt hindex cell, hany]
  · simp [box, hcell, Expr.eval, Level.Covered, Level.mem_fixedBoxes]

/-- Where the positions are those of boxes that are shown, covered cells are those of boxes. -/
theorem ShowsPositions.covered_iff (h : ShowsPositions l s cells) (cell : Nat) :
    l.Covered cells cell ↔ cell ∈ cells.toFinset ∪ l.fixedBoxes := by
  rw [Level.Covered, Finset.mem_union, List.mem_toFinset, or_comm,
    and_iff_right_of_imp (h.reachable cell)]

/-- A cell is occupied just if a box is there, for the boxes that are shown. -/
theorem ShowsPositions.occupied (h : ShowsPositions l s cells) (cell : Nat) :
    ((box l).occupied cell).eval s =
      some (.bool (decide (cell ∈ cells.toFinset ∪ l.fixedBoxes))) := by
  simp only [h.hasPositions.occupied, h.covered_iff]

/-- Moving the box on one cell to another one that is free keeps the positions different. -/
theorem nodup_move (hnodup : cells.Nodup) (hfree : source ∈ cells → target ∉ cells) :
    (cells.map fun cell => if cell = source then target else cell).Nodup := by
  refine List.Nodup.map_on (fun x hx y hy hxy => ?_) hnodup
  split at hxy <;> split at hxy <;> grind

/-- Replacing one cell by another is pushing what stands there.  If no box is on the first cell
nothing is replaced, and nothing is pushed. -/
theorem toFinset_move (hne : source ≠ target) :
    (cells.map fun cell => if cell = source then target else cell).toFinset =
      pushed source target cells.toFinset := by
  ext cell
  simp only [pushed, List.mem_toFinset, List.mem_map]
  split
  next hsource =>
    simp only [Finset.mem_insert, Finset.mem_erase, List.mem_toFinset]
    constructor
    · intro h
      obtain ⟨old, hold, rfl⟩ := h
      split <;> simp_all
    · intro h
      rcases h with rfl | ⟨hcell, hmem⟩
      · exact ⟨source, hsource, if_pos rfl⟩
      · exact ⟨cell, hmem, if_neg hcell⟩
  next hsource =>
    rw [List.mem_toFinset]
    constructor
    · intro h
      obtain ⟨old, hold, rfl⟩ := h
      have hold' : old ≠ source := fun h => hsource (h ▸ hold)
      simpa [hold'] using hold
    · intro hmem
      exact ⟨cell, hmem, if_neg fun h : cell = source => hsource (h ▸ hmem)⟩

/-- The positions after the boxes on one cell have moved to another one. -/
theorem HasPositions.move {after : Valuation} (h : HasPositions l s cells)
    (hafter : ∀ index cell : Nat, cells[index]? = some cell →
      after (boxName index) = some (.num (if cell = source then target else cell : Nat))) :
    HasPositions l after (cells.map fun cell => if cell = source then target else cell) := by
  refine ⟨by rw [List.length_map, h.length_eq], fun index cell hcell => ?_⟩
  rw [List.getElem?_map, Option.map_eq_some_iff] at hcell
  obtain ⟨old, hold, rfl⟩ := hcell
  exact hafter index old hold

/-- Shoving moves all boxes on the first cell, for one condition is asked of each position.  The
assignments are to different variables, so each reads the positions as they were. -/
theorem HasPositions.shove (h : HasPositions l s cells) (target beyond : Nat) :
    ∃ after, carryOut s ((box l).shove target beyond) = some after ∧
      HasPositions l after (cells.map fun cell => if cell = target then beyond else cell) ∧
      DiffersInBoxes s after := by
  have hvalue : ∀ index cell : Nat, cells[index]? = some cell →
      (Expr.ite (Encoding.boxAt index target) (.nat beyond) (.var (boxName index))).eval s =
        some (.num (if cell = target then beyond else cell : Nat)) := by
    intro index cell hcell
    rw [Expr.eval_ite (h.boxAt (h.mem_range hcell) target), hcell]
    by_cases hct : cell = target
    · simp [hct, Expr.nat, Expr.eval]
    · simp [hct, Expr.eval, h.value index cell hcell]
  -- Each position is assigned once, so all values are those of the state before.
  have hnodup : (((box l).shove target beyond).map Assignment.target).Nodup := by
    rw [box_shove, List.map_map]
    exact List.nodup_range.map fun m n h => boxName_inj.mp h
  have hvalues : ∀ a ∈ (box l).shove target beyond, ∃ v, a.value.eval s = some v := by
    intro a ha
    obtain ⟨index, hindex, rfl⟩ := List.mem_map.mp ha
    obtain ⟨cell, hcell⟩ := h.exists_cell hindex
    exact ⟨_, hvalue index cell hcell⟩
  obtain ⟨after, hcarry, hset, hkeep⟩ := exists_carryOut hnodup hvalues
  refine ⟨after, hcarry, h.move fun index cell hcell => ?_, fun name hname => ?_⟩
  · rw [← hvalue index cell hcell]
    exact hset _ (List.mem_map_of_mem (h.mem_range hcell))
  · refine hkeep name fun hmem => ?_
    rw [box_shove, List.map_map] at hmem
    obtain ⟨index, -, rfl⟩ := List.mem_map.mp hmem
    exact hname index rfl

/-- Sliding moves the box that is picked.  It is the only one on its cell if no cell comes up twice.
-/
theorem HasPositions.slide (h : HasPositions l s cells) (hnodup : cells.Nodup) {index : Nat}
    (hindex : cells[index]? = some source) (target : Nat) :
    ∃ after, carryOut s [⟨boxName index, .nat target⟩] = some after ∧
      HasPositions l after (cells.map fun cell => if cell = source then target else cell) ∧
      DiffersInBoxes s after := by
  refine ⟨_, carryOut_cons rfl rfl, h.move fun other cell hcell => ?_,
    (DiffersInBoxes.refl s).update _ _⟩
  by_cases hother : other = index
  · subst hother
    obtain rfl : cell = source := Option.some.inj (hcell.symm.trans hindex)
    simp
  · -- Another box stands on another cell.
    have hne : cell ≠ source := by
      intro hcs
      subst hcs
      have hlt := (List.getElem?_eq_some_iff.mp hindex).1
      exact hother ((List.getElem?_inj hlt hnodup).mp (hindex.trans hcell.symm)).symm
    rw [Function.update_of_ne (by simpa [boxName_inj] using hother), if_neg hne]
    exact h.value other cell hcell

/-- A box that moves to a free cell within reach leaves the boxes on different cells within reach. -/
theorem ShowsPositions.move {after : Valuation} (h : ShowsPositions l s cells)
    (htarget : l.reachable.contains target) (hfree : source ∈ cells → target ∉ cells)
    (hafter : HasPositions l after (cells.map fun cell => if cell = source then target else cell)) :
    ShowsPositions l after (cells.map fun cell => if cell = source then target else cell) := by
  refine ⟨hafter.length_eq, nodup_move h.nodup hfree, fun cell hcell => ?_, hafter.value⟩
  obtain ⟨old, hold, rfl⟩ := List.mem_map.mp hcell
  split
  · exact htarget
  · exact h.reachable old hold

/-! ### The goal -/

/-- No open goal comes up twice. -/
theorem nodup_openGoals (l : Level) : (openGoals l).Nodup :=
  (l.goals_ascending.imp Nat.ne_of_lt).filter _

/-- All goals are covered when the open ones are within reach and boxes are on them.  Those that are
not open have a box that never moves. -/
theorem forall_covered_iff :
    (∀ goal ∈ l.goals, l.Covered cells goal) ↔
      ∀ goal ∈ openGoals l, l.reachable.contains goal ∧ goal ∈ cells := by
  simp only [openGoals, List.mem_filter, Level.Covered, Level.mem_fixedBoxes]
  constructor
  · intro h goal hgoal
    obtain ⟨hgoal, hopen⟩ := hgoal
    rcases h goal hgoal with ⟨hbox, hreach⟩ | hcovered
    · simp [hbox, hreach] at hopen
    · exact hcovered
  · intro h goal hgoal
    by_cases hopen : !l.hasBox goal || l.reachable.contains goal
    · exact .inr (h goal ⟨hgoal, hopen⟩)
    · simp only [Bool.or_eq_true, Bool.not_eq_true', not_or, Bool.not_eq_false,
        Bool.not_eq_true] at hopen
      exact .inl hopen

/-- An arrangement of boxes on goals covers them: box by box, or goal by goal.  In the second
direction a box is chosen for each goal; the boxes are different as the goals are. -/
theorem exists_arrangement_iff {goals : List Nat} (hgoals : goals.Nodup) :
    (∃ chosen ∈ arrangements goals.length (List.range cells.length),
        ∀ pair ∈ chosen.zip goals, cells[pair.1]? = some pair.2) ↔
      ∀ goal ∈ goals, goal ∈ cells := by
  simp only [mem_arrangements List.nodup_range]
  constructor
  · intro h goal hgoal
    obtain ⟨chosen, ⟨hlength, -, -⟩, hcover⟩ := h
    obtain ⟨index, hindex, rfl⟩ := List.getElem_of_mem hgoal
    have hpair : (chosen[index], goals[index]) ∈ chosen.zip goals := by
      rw [← List.getElem_zip (h := by simp [hlength, hindex])]
      exact List.getElem_mem _
    exact List.mem_of_getElem? (hcover _ hpair)
  · -- Each goal chooses the box that stands on it.
    intro hcover
    have hat : ∀ goal ∈ goals, cells[cells.idxOf goal]? = some goal := fun goal hgoal =>
      List.getElem?_idxOf (hcover goal hgoal)
    refine ⟨goals.map cells.idxOf, ⟨by simp, ?_, ?_⟩, ?_⟩
    · refine List.Nodup.map_on (fun x hx y hy hxy => ?_) hgoals
      exact Option.some.inj ((hat x hx).symm.trans (hxy ▸ hat y hy))
    · intro index hindex
      obtain ⟨goal, hgoal, rfl⟩ := List.mem_map.mp hindex
      exact List.mem_range.mpr (List.idxOf_lt_length_iff.mpr (hcover goal hgoal))
    · intro pair hpair
      have hself : (goals.map cells.idxOf).zip goals = goals.map fun x => (cells.idxOf x, x) := by
        simpa using List.zip_map' (f := cells.idxOf) (g := id) (l := goals)
      rw [hself, List.mem_map] at hpair
      obtain ⟨goal, hgoal, rfl⟩ := hpair
      exact hat goal hgoal

/-- The condition on open goals holds just if a box is on each of them.  It is a disjunction over
all arrangements, of which one that covers the goals is enough. -/
theorem HasPositions.boxGoal (h : HasPositions l s cells) {goals : List Nat}
    (hgoals : goals.Nodup) :
    (boxGoal (movable l).length goals).eval s =
      some (.bool (decide (∀ goal ∈ goals, goal ∈ cells))) := by
  have hchosen : ∀ chosen ∈ arrangements goals.length (List.range (movable l).length),
      (Expr.all (((chosen.zip goals).mergeSort fun a b => a.1 ≤ b.1).map fun pair =>
        Encoding.boxAt pair.1 pair.2)).eval s =
      some (.bool (decide (∀ pair ∈ chosen.zip goals, cells[pair.1]? = some pair.2))) := by
    intro chosen hmem
    have hrange := ((mem_arrangements List.nodup_range).mp hmem).2.2
    rw [Expr.eval_all_map (p := fun pair => decide (cells[pair.1]? = some pair.2))]
    · simp [List.all_eq]
    · intro pair hpair
      exact h.boxAt (hrange _ (List.of_mem_zip (List.mem_mergeSort.mp hpair)).1) pair.2
  rw [Encoding.boxGoal, Expr.eval_any_map hchosen, ← h.length_eq]
  congr 2
  rw [Bool.eq_iff_iff, decide_eq_true_iff, ← exists_arrangement_iff hgoals]
  simp only [List.any_eq_true, decide_eq_true_eq]

/-- **The goal is settled** if there are too few boxes for the open goals or one of these is out of
reach.  Otherwise it is the condition on them, and they are all within reach. -/
theorem box_goal_cases (l : Level) :
    ((box l).goal = .bool false ∧ ((movable l).length < (openGoals l).length ∨
        ∃ goal ∈ openGoals l, ¬l.reachable.contains goal)) ∨
      ((box l).goal = Encoding.boxGoal (movable l).length (openGoals l) ∧
        ∀ goal ∈ openGoals l, l.reachable.contains goal) := by
  by_cases hnone : (movable l).length < (openGoals l).length ||
      (openGoals l).any (!l.reachable.contains ·)
  · refine .inl ⟨if_pos hnone, ?_⟩
    simpa using hnone
  · refine .inr ⟨if_neg hnone, fun goal hgoal => ?_⟩
    simp only [Bool.or_eq_true, List.any_eq_true, not_or, not_exists, not_and] at hnone
    simpa using hnone.2 goal hgoal

/-- **The goal** holds just if every goal is covered, wherever the boxes are.  With fewer boxes than
open goals it is settled, and rightly so, as a box cannot be on two of them. -/
theorem HasPositions.goal (h : HasPositions l s cells) :
    (box l).goal.eval s = some (.bool (decide (∀ goal ∈ l.goals, l.Covered cells goal))) := by
  have hopen : decide (∀ goal ∈ l.goals, l.Covered cells goal) =
      decide (∀ goal ∈ openGoals l, l.reachable.contains goal ∧ goal ∈ cells) := by
    rw [Bool.eq_iff_iff, decide_eq_true_iff, decide_eq_true_iff, forall_covered_iff]
  rw [hopen]
  rcases box_goal_cases l with ⟨hgoal, hsettled⟩ | ⟨hgoal, hnear⟩
  · have hfalse : ¬ ∀ goal ∈ openGoals l, l.reachable.contains goal ∧ goal ∈ cells := by
      intro hcover
      rcases hsettled with hfew | ⟨goal, hmem, hfar⟩
      · have hsub : openGoals l ⊆ cells := fun goal hgoal => (hcover goal hgoal).2
        have hle := ((nodup_openGoals l).subperm hsub).length_le
        rw [h.length_eq] at hle
        omega
      · exact hfar (hcover goal hmem).1
    rw [hgoal, Expr.eval, decide_eq_false hfalse]
  · have hcells : decide (∀ goal ∈ openGoals l, l.reachable.contains goal ∧ goal ∈ cells) =
        decide (∀ goal ∈ openGoals l, goal ∈ cells) := by
      rw [Bool.eq_iff_iff, decide_eq_true_iff, decide_eq_true_iff]
      exact forall₂_congr fun goal hmem => and_iff_right (hnear goal hmem)
    rw [hgoal, h.boxGoal (nodup_openGoals l), hcells]

/-- The goal holds just if the boxes that are shown cover all goals. -/
theorem ShowsPositions.goal (h : ShowsPositions l s cells) :
    (box l).goal.eval s =
      some (.bool (decide (∀ goal ∈ l.goals, goal ∈ cells.toFinset ∪ l.fixedBoxes))) := by
  simp only [h.hasPositions.goal, h.covered_iff]

/-- **The box encoding** is faithful.  Every clause is one of the facts above, for the list of
positions behind the set of boxes. -/
theorem faithful_box (l : Level) : Faithful l (box l) (Kind.box.Shows l) where
  reachable := by
    intro s boxes hshows cell hcell
    obtain ⟨cells, h, rfl⟩ := hshows
    exact h.reachable cell (List.mem_toFinset.mp hcell)
  congr := by
    intro s after boxes hshows hsame
    obtain ⟨cells, h, rfl⟩ := hshows
    exact ⟨cells, ⟨h.length_eq, h.nodup, h.reachable,
      fun index cell hcell => (hsame index).trans (h.value index cell hcell)⟩, rfl⟩
  initial := by
    intro s hs
    refine ⟨movable l, ⟨rfl, nodup_movable l, fun cell hcell => (mem_movable.mp hcell).2, ?_⟩, rfl⟩
    intro index cell hcell
    have hx : Variable.bounded (boxName index) l.firstCell l.lastCell cell ∈ (box l).vars :=
      List.mem_map.mpr ⟨(cell, index), List.mem_zipIdx_iff_getElem?.mpr hcell, rfl⟩
    exact (hs _ hx).trans (by simp [Variable.bounded, Expr.nat, Expr.eval])
  names := by
    intro x hx
    obtain ⟨⟨cell, index⟩, -, rfl⟩ := List.mem_map.mp hx
    exact ⟨index, rfl⟩
  nodup := by
    have hnames : (box l).vars.map Variable.name =
        (List.range (movable l).length).map boxName := by
      rw [List.range_eq_range', ← List.zipIdx_map_snd 0 (movable l), List.map_map]
      simp only [box, List.map_map, Function.comp_def, Variable.bounded]
    rw [hnames]
    exact List.nodup_range.map fun m n h => boxName_inj.mp h
  occupied := by
    intro s boxes hshows cell
    obtain ⟨cells, h, rfl⟩ := hshows
    exact h.occupied cell
  goal := by
    intro s boxes hshows
    obtain ⟨cells, h, rfl⟩ := hshows
    exact h.goal
  shove := by
    intro s boxes target beyond hshows htarget hbeyond hne hfree
    obtain ⟨cells, h, rfl⟩ := hshows
    simp only [List.mem_toFinset] at hfree
    obtain ⟨after, hcarry, hafter, hkeep⟩ := h.hasPositions.shove target beyond
    exact ⟨after, hcarry, ⟨_, h.move hbeyond hfree hafter, toFinset_move hne⟩, hkeep⟩
  shove_targets := by
    intro s boxes target beyond hshows _ _ a ha
    obtain ⟨cells, h, rfl⟩ := hshows
    obtain ⟨index, hindex, rfl⟩ := List.mem_map.mp ha
    obtain ⟨cell, hcell⟩ := h.hasPositions.exists_cell hindex
    exact ⟨_, h.value index cell hcell⟩
  pick := by
    intro s boxes source target hshows _ way hway
    obtain ⟨cells, h, rfl⟩ := hshows
    obtain ⟨index, hindex, rfl⟩ := List.mem_map.mp hway
    exact ⟨_, h.hasPositions.boxAt hindex source⟩
  slide := by
    intro s boxes source target hshows hsource htarget hne hfree way hway hpick
    obtain ⟨cells, h, rfl⟩ := hshows
    obtain ⟨index, hindex, rfl⟩ := List.mem_map.mp hway
    have hat : cells[index]? = some source := by
      simpa using (h.hasPositions.boxAt hindex source).symm.trans hpick
    have hmem : source ∈ cells := List.mem_of_getElem? hat
    rw [List.mem_toFinset] at hfree
    obtain ⟨after, hcarry, hafter, hkeep⟩ := h.hasPositions.slide h.nodup hat target
    have hmoved := h.move htarget (fun _ => hfree) hafter
    refine ⟨List.mem_toFinset.mpr hmem, after, hcarry, ⟨_, hmoved, ?_⟩, hkeep⟩
    rw [toFinset_move hne, pushed, if_pos (List.mem_toFinset.mpr hmem)]
  slide_targets := by
    intro source target way hway a ha
    obtain ⟨index, -, rfl⟩ := List.mem_map.mp hway
    obtain rfl := List.mem_singleton.mp ha
    exact ⟨index, rfl⟩
  exists_slide := by
    intro s boxes source target hshows hsource
    obtain ⟨cells, h, rfl⟩ := hshows
    obtain ⟨index, hindex⟩ := List.mem_iff_getElem?.mp (List.mem_toFinset.mp hsource)
    have hrange := h.hasPositions.mem_range hindex
    refine ⟨_, List.mem_map_of_mem hrange, ?_⟩
    exact (h.hasPositions.boxAt hrange source).trans (by simp [hindex])

end Sokoban.Encoding
