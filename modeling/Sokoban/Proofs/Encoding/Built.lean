import Sokoban.Proofs.Building
import Sokoban.Proofs.Encoding.Box
import Sokoban.Proofs.Encoding.Tile

/-! # What encodings build

Both encodings build their expressions over their own variables.  A cell gets a variable, or is
assigned to one, only if it is reachable: all reachable cells have variables in the tile encoding,
and they lie between the bounds of positions in the box encoding.  So no variable is given a value
out of its range, whatever state an assignment is carried out in.

`Builds` is what is asked of an encoding for this, beside being faithful; it is about the text of
expressions and assignments, not about their values.  The variables of a model are those of the
encoding and some more, so they are only assumed to comprise them.
-/

namespace Sokoban.Encoding

open Sokoban.Expr (Built)

/-- What an encoding has to build over the variables of a model. -/
structure Builds (l : Level) (e : Encoding) (vars : List Variable) : Prop where
  occupied : ∀ cell, Built vars .bool (e.occupied cell)
  goal : Built vars .bool e.goal
  shove : ∀ {target beyond}, l.reachable.contains target → l.reachable.contains beyond →
    target ≠ beyond → Assigns vars (e.shove target beyond)
  shove_targets : ∀ {target beyond}, ∀ a ∈ e.shove target beyond, ∃ n, a.target = boxName n
  slides : ∀ {source target}, l.reachable.contains source → l.reachable.contains target →
    source ≠ target → ∀ way ∈ e.slides source target, Built vars .bool way.1 ∧ Assigns vars way.2

variable {l : Level} {vars : List Variable} {cell index : Nat}

/-! ## Tiles -/

/-- Every reachable cell has a variable, which holds at first if a box is there. -/
theorem mem_vars_tile (hcell : l.reachable.contains cell) :
    Variable.bool (boxName cell) (l.hasBox cell) ∈ (tile l).vars :=
  List.mem_map_of_mem (CellSet.mem_toList.mpr hcell)

/-- Whether a cell is occupied is asked of its variable, or settled if it has none. -/
theorem built_occupied_tile (hvars : (tile l).vars ⊆ vars) (cell : Nat) :
    Built vars .bool ((tile l).occupied cell) := by
  by_cases hcell : l.reachable.contains cell
  · have hvar := Built.var (hvars (mem_vars_tile hcell))
    simpa [tile, hcell, Variable.bool] using hvar
  · have hfixed : Built vars .bool (.bool (l.hasBox cell)) := .bool _
    simpa [tile, hcell] using hfixed

/-- Assigning truth values to the variables of two reachable cells. -/
theorem assigns_tiles (hvars : (tile l).vars ⊆ vars) {x y : Nat} (hx : l.reachable.contains x)
    (hy : l.reachable.contains y) (hne : x ≠ y) {e f : Expr} (he : Built vars .bool e)
    (hf : Built vars .bool f) : Assigns vars [⟨boxName x, e⟩, ⟨boxName y, f⟩] := by
  have hlast : Assigns vars [⟨boxName y, f⟩] :=
    (Assigns.nil vars).cons (hvars (mem_vars_tile hy)) hf nofun
  refine hlast.cons (hvars (mem_vars_tile hx)) he fun a ha => ?_
  obtain rfl := List.mem_singleton.mp ha
  exact fun hname => hne (boxName_inj.mp hname).symm

/-- **The tile encoding** builds over the variables of cells.  What it assigns are truth values, to
the variables of the two cells of a motion, which are different. -/
theorem builds_tile (hvars : (tile l).vars ⊆ vars) : Builds l (tile l) vars where
  occupied := built_occupied_tile hvars
  goal := by
    rw [tile_goal]
    refine .all fun e he => ?_
    obtain ⟨goal, -, rfl⟩ := List.mem_map.mp he
    exact built_occupied_tile hvars goal
  shove := by
    intro target beyond htarget hbeyond hne
    exact assigns_tiles hvars htarget hbeyond hne (.bool false)
      (.any_pair (built_occupied_tile hvars target) (built_occupied_tile hvars beyond))
  shove_targets := by
    intro target beyond a ha
    rcases List.mem_pair.mp ha with rfl | rfl
    · exact ⟨target, rfl⟩
    · exact ⟨beyond, rfl⟩
  slides := by
    intro source target hsource htarget hne way hway
    obtain rfl := List.mem_singleton.mp hway
    exact ⟨built_occupied_tile hvars source,
      assigns_tiles hvars hsource htarget hne (.bool false) (.bool true)⟩

/-! ## Positions -/

/-- Every movable box has a variable between the first and the last cell within reach. -/
theorem exists_mem_vars_box (hindex : index ∈ List.range (movable l).length) :
    ∃ x ∈ (box l).vars, x.name = boxName index ∧ x.type = .bounded l.firstCell l.lastCell := by
  rw [List.mem_range] at hindex
  have hzip : ((movable l)[index], index) ∈ (movable l).zipIdx :=
    List.mem_zipIdx_iff_getElem?.mpr (List.getElem?_eq_getElem hindex)
  exact ⟨_, List.mem_map_of_mem hzip, rfl, rfl⟩

/-- Whether a box is at a cell is asked of its position. -/
theorem built_boxAt (hvars : (box l).vars ⊆ vars) (hindex : index ∈ List.range (movable l).length)
    (cell : Nat) : Built vars .bool (boxAt index cell) := by
  obtain ⟨x, hx, hname, htype⟩ := exists_mem_vars_box hindex
  rw [boxAt, ← hname]
  exact .here (hvars hx) htype cell

/-- Whether a cell is occupied is asked of all positions, one after the other.  Out of reach there
is nothing to be asked, and the level has the answer. -/
theorem built_occupied_box (hvars : (box l).vars ⊆ vars) (cell : Nat) :
    Built vars .bool ((box l).occupied cell) := by
  by_cases hcell : l.reachable.contains cell
  · have hany : Built vars .bool
        (.any ((List.range (movable l).length).map (boxAt · cell))) := by
      refine .any fun e he => ?_
      obtain ⟨index, hindex, rfl⟩ := List.mem_map.mp he
      exact built_boxAt hvars hindex cell
    simpa [box, hcell] using hany
  · have hfixed : Built vars .bool (.bool (l.hasBox cell)) := .bool _
    simpa [box, hcell] using hfixed

/-- Every choice of movable boxes for the goals asks for positions of these boxes. -/
theorem built_boxGoal (hvars : (box l).vars ⊆ vars) (goals : List Nat) :
    Built vars .bool (boxGoal (movable l).length goals) := by
  refine .any fun e he => ?_
  obtain ⟨chosen, hchosen, rfl⟩ := List.mem_map.mp he
  have hrange := ((mem_arrangements List.nodup_range).mp hchosen).2.2
  refine .all fun e he => ?_
  obtain ⟨⟨index, goal⟩, hpair, rfl⟩ := List.mem_map.mp he
  exact built_boxAt hvars (hrange _ (List.of_mem_zip (List.mem_mergeSort.mp hpair)).1) goal

/-- Assigning one of the cells within reach, or the position that is there, to every box. -/
theorem built_position (hvars : (box l).vars ⊆ vars) (hcell : l.reachable.contains cell)
    (hindex : index ∈ List.range (movable l).length) :
    ∃ x ∈ vars, boxName index = x.name ∧ Built vars x.type (.nat cell) ∧
      Built vars x.type (.var (boxName index)) := by
  obtain ⟨x, hx, hname, htype⟩ := exists_mem_vars_box hindex
  refine ⟨x, hvars hx, hname.symm, ?_, hname ▸ .var (hvars hx)⟩
  rw [htype]
  exact .cell (Level.firstCell_le hcell) (Level.le_lastCell hcell)

/-- **The box encoding** builds over the positions of boxes.  What it assigns to a position is a
cell within reach or the position itself, both between the bounds. -/
theorem builds_box (hvars : (box l).vars ⊆ vars) : Builds l (box l) vars where
  occupied := built_occupied_box hvars
  goal := by
    rcases box_goal_cases l with ⟨hgoal, -⟩ | ⟨hgoal, -⟩
    · rw [hgoal]
      exact .bool false
    · rw [hgoal]
      exact built_boxGoal hvars (openGoals l)
  shove := by
    intro target beyond _ hbeyond _
    rw [box_shove]
    refine ⟨?_, fun a ha => ?_⟩
    · rw [List.map_map]
      exact List.nodup_range.map fun m n h => boxName_inj.mp h
    · obtain ⟨index, hindex, rfl⟩ := List.mem_map.mp ha
      obtain ⟨x, hx, hname, hcell, hvar⟩ := built_position hvars hbeyond hindex
      exact ⟨x, hx, hname, .ite (built_boxAt hvars hindex target) hcell hvar⟩
  shove_targets := by
    intro target beyond a ha
    obtain ⟨index, -, rfl⟩ := List.mem_map.mp ha
    exact ⟨index, rfl⟩
  slides := by
    intro source target _ htarget _ way hway
    obtain ⟨index, hindex, rfl⟩ := List.mem_map.mp hway
    obtain ⟨x, hx, hname, hcell, -⟩ := built_position hvars htarget hindex
    refine ⟨built_boxAt hvars hindex source, ?_⟩
    rw [hname]
    exact (Assigns.nil vars).cons hx hcell nofun

/-- **Both encodings** build over their variables.  What is proved of generated expressions rests on
this and not on what the encodings write. -/
theorem builds_ofKind (kind : Kind) (hvars : (ofKind kind l).vars ⊆ vars) :
    Builds l (ofKind kind l) vars := by
  cases kind with
  | tile => exact builds_tile hvars
  | box => exact builds_box hvars

end Sokoban.Encoding
