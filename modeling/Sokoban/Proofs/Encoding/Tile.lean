import Sokoban.Proofs.Encoding
import Sokoban.Proofs.Region

/-! # The tile encoding is faithful

There is a truth value for each reachable cell, so a state shows the cells whose variables hold, and
every state shows some set of boxes.  Shoving and sliding assign to the variables of two cells.
`ShowsTiles.update` is what both come to: the state then shows any set of boxes that differs from
the one before at most on these cells.

The goal is that every goal is occupied, where a cell out of reach is occupied if a box stands there
from the beginning.
-/

namespace Sokoban.Encoding

variable {l : Level} {s : Valuation} {boxes : Finset Nat} {source target beyond : Nat}

/-- The goal asks whether each goal is occupied. -/
theorem tile_goal : (tile l).goal = .all (l.goals.map (tile l).occupied) := rfl

/-- **A cell is occupied** just if a box is there, among those that are shown or that never move.
Within reach this is asked of a variable, and out of reach of the level. -/
theorem ShowsTiles.occupied (h : ShowsTiles l s boxes) (cell : Nat) :
    ((tile l).occupied cell).eval s =
      some (.bool (decide (cell ∈ boxes ∪ l.fixedBoxes))) := by
  by_cases hcell : l.reachable.contains cell
  · have hfixed := Level.not_mem_fixedBoxes hcell
    simp [tile, hcell, Expr.eval, h.value cell hcell, hfixed]
  · have hboxes : cell ∉ boxes := fun hmem => hcell (h.reachable cell hmem)
    simp [tile, hcell, Expr.eval, hboxes, Level.mem_fixedBoxes]

/-- Two tiles are assigned: the state shows another set of boxes that differs at most there.
Nothing is asked about how the set differs, so shoving and sliding both are cases of it. -/
theorem ShowsTiles.update (h : ShowsTiles l s boxes) {other : Finset Nat} {x y : Nat}
    (hx : l.reachable.contains x) (hy : l.reachable.contains y)
    (hother : ∀ cell, cell ≠ x → cell ≠ y → (cell ∈ other ↔ cell ∈ boxes)) :
    ShowsTiles l (Function.update (Function.update s (boxName y) (some (.bool (decide (y ∈ other)))))
      (boxName x) (some (.bool (decide (x ∈ other))))) other := by
  refine ⟨fun cell hcell => ?_, fun cell hcell => ?_⟩
  · by_cases hcx : cell = x
    · exact hcx ▸ hx
    · by_cases hcy : cell = y
      · exact hcy ▸ hy
      · exact h.reachable cell ((hother cell hcx hcy).mp hcell)
  · by_cases hcx : cell = x
    · rw [hcx, Function.update_self]
    · rw [Function.update_of_ne (by simpa [boxName_inj] using hcx)]
      by_cases hcy : cell = y
      · rw [hcy, Function.update_self]
      · rw [Function.update_of_ne (by simpa [boxName_inj] using hcy), h.value cell hcell]
        simp [hother cell hcx hcy]

/-- Shoving moves the box on the first cell, if there is one: the second variable takes the value
that the first one had, or keeps its own. -/
theorem ShowsTiles.shove (h : ShowsTiles l s boxes) (htarget : l.reachable.contains target)
    (hbeyond : l.reachable.contains beyond) (hne : target ≠ beyond) :
    ∃ after, carryOut s ((tile l).shove target beyond) = some after ∧
      ShowsTiles l after (pushed target beyond boxes) ∧ DiffersInBoxes s after := by
  have hvalue := Expr.eval_any_pair (h.occupied target) (h.occupied beyond)
  have hboth : (decide (target ∈ boxes ∪ l.fixedBoxes) || decide (beyond ∈ boxes ∪ l.fixedBoxes)) =
      decide (beyond ∈ pushed target beyond boxes) := by
    simp only [mem_union_fixedBoxes htarget, mem_union_fixedBoxes hbeyond, pushed]
    split <;> simp_all
  have hgone : decide (target ∈ pushed target beyond boxes) = false := by
    rw [pushed]
    split <;> simp_all
  rw [hboth] at hvalue
  refine ⟨_, carryOut_cons rfl (carryOut_cons hvalue rfl), ?_, ?_⟩
  · rw [← hgone]
    refine h.update htarget hbeyond fun cell hct hcb => ?_
    rw [pushed]
    split <;> simp [hct, hcb]
  · exact ((DiffersInBoxes.refl s).update _ _).update _ _

/-- Sliding takes the box from the first cell and puts one on the second. -/
theorem ShowsTiles.slide (h : ShowsTiles l s boxes) (hsource : l.reachable.contains source)
    (htarget : l.reachable.contains target) (hne : source ≠ target) :
    ∃ after, carryOut s [⟨boxName source, .bool false⟩, ⟨boxName target, .bool true⟩] = some after ∧
      ShowsTiles l after (insert target (boxes.erase source)) ∧ DiffersInBoxes s after := by
  refine ⟨_, carryOut_cons rfl (carryOut_cons rfl rfl), ?_, ?_⟩
  · have hupdate := h.update hsource htarget
      (fun cell hcs hct => by simp [hcs, hct] : ∀ cell, cell ≠ source → cell ≠ target →
        (cell ∈ insert target (boxes.erase source) ↔ cell ∈ boxes))
    simpa [hne] using hupdate
  · exact ((DiffersInBoxes.refl s).update _ _).update _ _

/-- **The tile encoding** is faithful.  Nothing but variables of cells is assigned, and an occupied
cell is asked of its variable, or settled by the drawing where it has none. -/
theorem faithful_tile (l : Level) : Faithful l (tile l) (ShowsTiles l) where
  reachable h := h.reachable
  congr h hsame := ⟨h.reachable, fun cell hcell => (hsame cell).trans (h.value cell hcell)⟩
  initial := by
    intro s hs
    refine ⟨fun cell hcell => (mem_movable.mp (List.mem_toFinset.mp hcell)).2, fun cell hcell => ?_⟩
    have hx : Variable.bool (boxName cell) (l.hasBox cell) ∈ (tile l).vars :=
      List.mem_map_of_mem (CellSet.mem_toList.mpr hcell)
    rw [show s (boxName cell) = _ from hs _ hx]
    simp [Variable.bool, Expr.eval, mem_movable, hcell]
  names := by
    intro x hx
    obtain ⟨cell, -, rfl⟩ := List.mem_map.mp hx
    exact ⟨cell, rfl⟩
  nodup := by
    rw [tile, List.map_map]
    exact (CellSet.nodup_toList _).map fun m n h => boxName_inj.mp h
  occupied h := h.occupied
  goal := by
    intro s boxes h
    rw [tile_goal, Expr.eval_all_map fun goal _ => h.occupied goal]
    simp [List.all_eq]
  shove h htarget hbeyond hne _ := h.shove htarget hbeyond hne
  shove_targets := by
    intro s boxes target beyond h htarget hbeyond a ha
    rcases List.mem_pair.mp ha with rfl | rfl
    · exact ⟨_, h.value target htarget⟩
    · exact ⟨_, h.value beyond hbeyond⟩
  pick := by
    intro s boxes source target h _ way hway
    obtain rfl := List.mem_singleton.mp hway
    exact ⟨_, h.occupied source⟩
  slide := by
    intro s boxes source target h hsource htarget hne _ way hway hpick
    obtain rfl := List.mem_singleton.mp hway
    refine ⟨?_, h.slide hsource htarget hne⟩
    have hmem : source ∈ boxes ∪ l.fixedBoxes := by
      simpa using (h.occupied source).symm.trans hpick
    exact (mem_union_fixedBoxes hsource).mp hmem
  slide_targets := by
    intro source target way hway a ha
    obtain rfl := List.mem_singleton.mp hway
    rcases List.mem_pair.mp ha with rfl | rfl
    · exact ⟨source, rfl⟩
    · exact ⟨target, rfl⟩
  exists_slide := by
    intro s boxes source target h hsource
    refine ⟨_, List.mem_singleton_self _, (h.occupied source).trans ?_⟩
    simp [hsource]

end Sokoban.Encoding
