import Sokoban.Proofs.Encoding.Built
import Sokoban.Proofs.Encoding.Goal

/-! # Occupied cells

An encoding is asked which cells are occupied, and it is asked to move boxes.  Whether the answers
fit together does not depend on the game: the variables may have any values of their types, so that
boxes may share a cell and positions may be out of reach.  Such states do not come up in runs, but a
checker may begin in one, and the formulas are read there too.

The occupied cells are given as truth values, since this is all that the two encodings have in
common: in the one a cell is occupied if its variable holds, in the other if some position is there.
Shoving leaves the first cell free, and the second one occupied if one of them was
(`HasPositions.brings_shove`, `ShowsTiles.brings_shove`): boxes that share a cell are shoved
together.  For sliding the boxes have to be apart, as one box is moved and no other one must be left
behind (`HasPositions.picks`).  `occupied_moved` says both of both encodings.
-/

namespace Sokoban.Encoding

open Function (update)

variable {l : Level} {s : Valuation} {boxes : Finset Nat} {cells : List Nat}
  {source target beyond : Nat}

/-- In a state just these cells are occupied. -/
def Occupies (e : Encoding) (s : Valuation) (occupied : Nat → Bool) : Prop :=
  ∀ cell, (e.occupied cell).eval s = some (.bool (occupied cell))

/-- Assignments that are carried out at once keep the variables to their types, and just these cells
are occupied afterwards. -/
def Brings (e : Encoding) (s : Valuation) (as : List Assignment) (occupied : Nat → Bool) : Prop :=
  ∃ after, carryOut s as = some after ∧ InTypes e.vars after ∧ e.Occupies after occupied

/-- The ways to slide a box from one cell to another whose conditions hold. -/
def picks (e : Encoding) (s : Valuation) (source target : Nat) : List (Expr × List Assignment) :=
  (e.slides source target).filter fun way => way.1.eval s = some (.bool true)

/-- The boxes are on different cells.  In the tile encoding a cell has room for one box only. -/
def Kind.Apart (l : Level) : Kind → Valuation → Prop
  | .tile, _ => True
  | .box, s => ∀ m n, m < (movable l).length → n < (movable l).length →
      s (boxName m) = s (boxName n) → m = n

/-- The occupied cells after a box is shoved from one cell to another. -/
def shoved (target beyond : Nat) (occupied : Nat → Bool) : Nat → Bool :=
  update (update occupied beyond (occupied target || occupied beyond)) target false

/-- The occupied cells after a box has slid from one cell to another. -/
def slid (source target : Nat) (occupied : Nat → Bool) : Nat → Bool :=
  update (update occupied target true) source false

/-- A cell is occupied after shoving if it is not the first one, and was occupied or has got what
the first one had. -/
theorem shoved_eq_true_iff {occupied : Nat → Bool} {cell : Nat} :
    shoved target beyond occupied cell = true ↔
      cell ≠ target ∧ (cell = beyond ∧ occupied target = true ∨ occupied cell = true) := by
  by_cases hct : cell = target
  · simp [shoved, hct]
  · rw [shoved, Function.update_of_ne hct]
    by_cases hcb : cell = beyond
    · subst hcb
      simp [hct]
    · simp [hct, hcb]

/-- A cell is occupied after sliding if it is not the first one, and is the second one or was
occupied. -/
theorem slid_eq_true_iff {occupied : Nat → Bool} {cell : Nat} :
    slid source target occupied cell = true ↔
      cell ≠ source ∧ (cell = target ∨ occupied cell = true) := by
  by_cases hcs : cell = source
  · simp [slid, hcs]
  · rw [slid, Function.update_of_ne hcs]
    by_cases hct : cell = target
    · subst hct
      simp [hcs]
    · simp [hcs, hct]

/-- The set of boxes after pushing, in the form in which cells are occupied after shoving. -/
theorem mem_pushed_iff (hne : target ≠ beyond) {cell : Nat} :
    cell ∈ pushed target beyond boxes ↔
      cell ≠ target ∧ (cell = beyond ∧ target ∈ boxes ∨ cell ∈ boxes) := by
  rw [pushed]
  split <;> grind

/-! ## Tiles -/

/-- The variables of cells have values of their types exactly if they show some set of boxes, namely
that of the cells whose variables hold. -/
theorem inTypes_tile_iff : InTypes (tile l).vars s ↔ ∃ boxes, ShowsTiles l s boxes := by
  constructor
  · intro h
    have hvalue : ∀ cell, l.reachable.contains cell → ∃ b, s (boxName cell) = some (.bool b) := by
      intro cell hcell
      obtain ⟨v, hv, hadmits⟩ := h _ (mem_vars_tile hcell)
      obtain ⟨b, rfl⟩ := Expr.admits_bool hadmits
      exact ⟨b, hv⟩
    refine ⟨l.reachable.toList.toFinset.filter fun cell => s (boxName cell) = some (.bool true),
      fun cell hcell => ?_, fun cell hcell => ?_⟩
    · exact CellSet.mem_toList.mp (List.mem_toFinset.mp (Finset.mem_filter.mp hcell).1)
    · obtain ⟨b, hb⟩ := hvalue cell hcell
      simp [hb, CellSet.mem_toList, hcell]
  · rintro ⟨boxes, h⟩ x hx
    obtain ⟨cell, hcell, rfl⟩ := List.mem_map.mp hx
    exact ⟨_, h.value cell (CellSet.mem_toList.mp hcell), trivial⟩

/-- A state that shows boxes brings about what they occupy. -/
theorem ShowsTiles.brings {as : List Assignment} {after : Valuation} {occupied : Nat → Bool}
    (h : ShowsTiles l after boxes) (hcarry : carryOut s as = some after)
    (hoccupied : ∀ cell, occupied cell = true ↔ cell ∈ boxes ∪ l.fixedBoxes) :
    (tile l).Brings s as occupied := by
  refine ⟨after, hcarry, inTypes_tile_iff.mpr ⟨boxes, h⟩, fun cell => ?_⟩
  rw [h.occupied, Bool.decide_congr (hoccupied cell).symm, Bool.decide_eq_true]

/-- **Shoving tiles**: two variables are assigned, and no other cell changes.  The second becomes
true if either was, so a box that is there already is not lost. -/
theorem ShowsTiles.brings_shove (h : ShowsTiles l s boxes) (htarget : l.reachable.contains target)
    (hbeyond : l.reachable.contains beyond) (hne : target ≠ beyond) :
    (tile l).Brings s ((tile l).shove target beyond)
      (shoved target beyond fun cell => decide (cell ∈ boxes ∪ l.fixedBoxes)) := by
  obtain ⟨after, hcarry, hafter, -⟩ := h.shove htarget hbeyond hne
  refine hafter.brings hcarry fun cell => ?_
  have htarget' := Level.not_mem_fixedBoxes htarget
  have hfixed : cell ∈ l.fixedBoxes → cell ≠ target := fun h heq => htarget' (heq ▸ h)
  simp only [shoved_eq_true_iff, decide_eq_true_eq, Finset.mem_union, mem_pushed_iff hne]
  grind

/-- **Sliding tiles**: the variable of the first cell becomes false and that of the second true.
The guard has seen to it that there was a box. -/
theorem ShowsTiles.brings_slide (h : ShowsTiles l s boxes) (hsource : l.reachable.contains source)
    (htarget : l.reachable.contains target) (hne : source ≠ target) :
    (tile l).Brings s [⟨boxName source, .bool false⟩, ⟨boxName target, .bool true⟩]
      (slid source target fun cell => decide (cell ∈ boxes ∪ l.fixedBoxes)) := by
  obtain ⟨after, hcarry, hafter, -⟩ := h.slide hsource htarget hne
  refine hafter.brings hcarry fun cell => ?_
  have hsource' := Level.not_mem_fixedBoxes hsource
  have hfixed : cell ∈ l.fixedBoxes → cell ≠ source := fun h heq => hsource' (heq ▸ h)
  have hmoved : cell = target → cell ≠ source := fun h => h ▸ hne.symm
  simp only [slid_eq_true_iff, decide_eq_true_eq, Finset.mem_union, Finset.mem_insert,
    Finset.mem_erase]
  grind

/-- The variable of a cell picks the box on it, so there is one way or none. -/
theorem ShowsTiles.picks (h : ShowsTiles l s boxes) (source target : Nat) :
    (tile l).picks s source target =
      if source ∈ boxes ∪ l.fixedBoxes then (tile l).slides source target else [] := by
  have hslides : (tile l).slides source target = [((tile l).occupied source,
      [⟨boxName source, .bool false⟩, ⟨boxName target, .bool true⟩])] := rfl
  rw [Encoding.picks, hslides]
  split
  next hmem => simp [h.occupied, hmem]
  next hmem => simp [h.occupied, hmem]

/-! ## Positions -/

/-- The variables of positions have values of their types exactly if they give cells between the
bounds, one for each box.  A bound is a cell within reach, but the cells between need not be. -/
theorem inTypes_box_iff : InTypes (box l).vars s ↔
    ∃ cells, HasPositions l s cells ∧ ∀ cell ∈ cells, l.firstCell ≤ cell ∧ cell ≤ l.lastCell := by
  constructor
  · intro h
    have hvalue : ∀ index ∈ List.range (movable l).length, ∃ cell : Nat,
        s (boxName index) = some (.num cell) ∧ l.firstCell ≤ cell ∧ cell ≤ l.lastCell := by
      intro index hindex
      obtain ⟨x, hx, hname, htype⟩ := exists_mem_vars_box hindex
      obtain ⟨v, hv, hadmits⟩ := h x hx
      rw [htype] at hadmits
      cases v with
      | bool b => exact absurd hadmits id
      | num q =>
          obtain ⟨cell, rfl, hbounds⟩ := hadmits
          exact ⟨cell, hname ▸ hv, hbounds⟩
    -- The list of positions is put together from the values of the variables.
    choose! place hplace hbounds using hvalue
    refine ⟨(List.range (movable l).length).map place, ⟨by simp, fun index cell hcell => ?_⟩, ?_⟩
    · rw [List.getElem?_map, Option.map_eq_some_iff] at hcell
      obtain ⟨n, hn, rfl⟩ := hcell
      obtain rfl : n = index := by simpa using (List.getElem?_eq_some_iff.mp hn).2.symm
      exact hplace n (List.mem_of_getElem? hn)
    · intro cell hcell
      obtain ⟨index, hindex, rfl⟩ := List.mem_map.mp hcell
      exact hbounds index hindex
  · rintro ⟨cells, h, hbounds⟩ x hx
    obtain ⟨⟨start, index⟩, hstart, rfl⟩ := List.mem_map.mp hx
    have hindex : index ∈ List.range (movable l).length :=
      List.mem_range.mpr (List.getElem?_eq_some_iff.mp (List.mem_zipIdx_iff_getElem?.mp hstart)).1
    obtain ⟨cell, hcell⟩ := h.exists_cell hindex
    exact ⟨_, h.value index cell hcell, cell, rfl, hbounds cell (List.mem_of_getElem? hcell)⟩

/-- A box moves to a cell within reach, which lies between the bounds. -/
theorem bounds_move (hbounds : ∀ cell ∈ cells, l.firstCell ≤ cell ∧ cell ≤ l.lastCell)
    (hbeyond : l.reachable.contains beyond) :
    ∀ cell ∈ cells.map (fun cell => if cell = target then beyond else cell),
      l.firstCell ≤ cell ∧ cell ≤ l.lastCell := by
  intro cell hcell
  obtain ⟨old, hold, rfl⟩ := List.mem_map.mp hcell
  split
  · exact ⟨Level.firstCell_le hbeyond, Level.le_lastCell hbeyond⟩
  · exact hbounds old hold

/-- What is covered after boxes have moved from one cell to another. -/
theorem covered_move (hne : target ≠ beyond) (cell : Nat) :
    l.Covered (cells.map fun cell => if cell = target then beyond else cell) cell ↔
      cell ∈ l.fixedBoxes ∨ l.reachable.contains cell ∧
        cell ≠ target ∧ (cell = beyond ∧ target ∈ cells ∨ cell ∈ cells) := by
  rw [Level.Covered, ← List.mem_toFinset, toFinset_move hne, mem_pushed_iff hne, List.mem_toFinset,
    List.mem_toFinset]

/-- A state with positions between the bounds brings about what they cover. -/
theorem HasPositions.brings {as : List Assignment} {after : Valuation} {occupied : Nat → Bool}
    (h : HasPositions l after cells)
    (hbounds : ∀ cell ∈ cells, l.firstCell ≤ cell ∧ cell ≤ l.lastCell)
    (hcarry : carryOut s as = some after)
    (hoccupied : ∀ cell, occupied cell = true ↔ l.Covered cells cell) :
    (box l).Brings s as occupied := by
  refine ⟨after, hcarry, inTypes_box_iff.mpr ⟨cells, h, hbounds⟩, fun cell => ?_⟩
  rw [h.occupied, Bool.decide_congr (hoccupied cell).symm, Bool.decide_eq_true]

/-- **Shoving positions**: every position at the first cell is set to the second, however many there
are. -/
theorem HasPositions.brings_shove (h : HasPositions l s cells)
    (hbounds : ∀ cell ∈ cells, l.firstCell ≤ cell ∧ cell ≤ l.lastCell)
    (htarget : l.reachable.contains target) (hbeyond : l.reachable.contains beyond)
    (hne : target ≠ beyond) :
    (box l).Brings s ((box l).shove target beyond)
      (shoved target beyond fun cell => decide (l.Covered cells cell)) := by
  obtain ⟨after, hcarry, hafter, -⟩ := h.shove target beyond
  refine hafter.brings (bounds_move hbounds hbeyond) hcarry fun cell => ?_
  have htarget' := Level.not_mem_fixedBoxes htarget
  have hfixed : cell ∈ l.fixedBoxes → cell ≠ target := fun h heq => htarget' (heq ▸ h)
  have hmoved : cell = beyond → l.reachable.contains cell := fun heq => heq ▸ hbeyond
  rw [covered_move hne, shoved_eq_true_iff, decide_eq_true_eq, decide_eq_true_eq, Level.Covered,
    Level.Covered]
  grind

/-- **Sliding a position**: one position is set to the second cell.  As no other one is at the first
cell, that is free afterwards. -/
theorem HasPositions.brings_slide (h : HasPositions l s cells) (hnodup : cells.Nodup)
    (hbounds : ∀ cell ∈ cells, l.firstCell ≤ cell ∧ cell ≤ l.lastCell)
    (hsource : l.reachable.contains source) (htarget : l.reachable.contains target)
    (hne : source ≠ target) {index : Nat} (hindex : cells[index]? = some source) :
    (box l).Brings s [⟨boxName index, .nat target⟩]
      (slid source target fun cell => decide (l.Covered cells cell)) := by
  obtain ⟨after, hcarry, hafter, -⟩ := h.slide hnodup hindex target
  refine hafter.brings (bounds_move hbounds htarget) hcarry fun cell => ?_
  have hbox : source ∈ cells := List.mem_of_getElem? hindex
  have hsource' := Level.not_mem_fixedBoxes hsource
  have hfixed : cell ∈ l.fixedBoxes → cell ≠ source := fun h heq => hsource' (heq ▸ h)
  have hmoved : cell = target → l.reachable.contains cell ∧ cell ≠ source := fun heq =>
    heq ▸ ⟨htarget, hne.symm⟩
  rw [covered_move hne, slid_eq_true_iff, decide_eq_true_eq, Level.Covered]
  grind

/-- Boxes are apart exactly if no cell comes up twice among the positions.  The one is said of
variables and the other of the list that they give. -/
theorem HasPositions.apart_iff (h : HasPositions l s cells) :
    Kind.box.Apart l s ↔ cells.Nodup := by
  have hvalue : ∀ m, (hm : m < cells.length) → s (boxName m) = some (.num (cells[m] : Nat)) :=
    fun m hm => h.value m _ (List.getElem?_eq_getElem hm)
  rw [Kind.Apart, ← h.length_eq]
  constructor
  · intro hapart
    refine List.pairwise_iff_getElem.mpr fun m n hm hn hlt heq => hlt.ne ?_
    exact hapart m n hm hn (by rw [hvalue m hm, hvalue n hn, heq])
  · intro hnodup m n hm hn heq
    rw [hvalue m hm, hvalue n hn] at heq
    exact (hnodup.getElem_inj_iff).mp (by simpa using heq)

/-- Where boxes are apart, just one of them is on a cell that holds one.  There is a way for each
box, whose condition is that it is there; so one of the conditions holds, or none. -/
theorem HasPositions.picks (h : HasPositions l s cells) (hnodup : cells.Nodup)
    (source target : Nat) : (box l).picks s source target =
      if source ∈ cells then [(Encoding.boxAt (cells.idxOf source) source,
        [⟨boxName (cells.idxOf source), .nat target⟩])] else [] := by
  have hslides : (box l).slides source target = (List.range (movable l).length).map fun index =>
      (Encoding.boxAt index source, [⟨boxName index, .nat target⟩]) := rfl
  have hpick : ∀ index ∈ List.range (movable l).length,
      decide ((Encoding.boxAt index source).eval s = some (.bool true)) =
        decide (cells[index]? = some source) := by
    intro index hindex
    simp [h.boxAt hindex source]
  rw [Encoding.picks, hslides, List.filter_map, Function.comp_def, List.filter_congr hpick]
  split
  next hmem =>
    have hat : cells[cells.idxOf source]? = some source := List.getElem?_idxOf hmem
    have hlt := (List.getElem?_eq_some_iff.mp hat).1
    -- No other box is on that cell, as no cell comes up twice.
    have honly : ∀ index ∈ List.range (movable l).length,
        decide (cells[index]? = some source) = decide (index = cells.idxOf source) := by
      intro index hindex
      refine Bool.decide_congr ⟨fun hother => ?_, fun heq => heq ▸ hat⟩
      exact ((List.getElem?_inj hlt hnodup).mp (hat.trans hother.symm)).symm
    rw [List.filter_congr honly, List.filter_eq, List.count_eq_one_of_mem List.nodup_range
      (h.mem_range hat)]
    rfl
  next hmem =>
    have hnone : (List.range (movable l).length).filter
        (fun index => decide (cells[index]? = some source)) = [] := by
      simp only [List.filter_eq_nil_iff, decide_eq_true_eq]
      exact fun index _ hindex => hmem (List.mem_of_getElem? hindex)
    rw [hnone, List.map_nil]

/-! ## Both encodings -/

/-- The condition of every way to slide a box holds or does not.  It is never without a value, also
where the boxes are not apart. -/
theorem exists_eval_of_mem_slides (kind : Kind) (hs : InTypes (ofKind kind l).vars s)
    (hsource : l.reachable.contains source) (htarget : l.reachable.contains target)
    (hne : source ≠ target) :
    ∀ way ∈ (ofKind kind l).slides source target, ∃ b, way.1.eval s = some (.bool b) := by
  intro way hway
  have hbuilds := builds_ofKind kind (List.Subset.refl (ofKind kind l).vars)
  obtain ⟨v, hv, hadmits⟩ := (hbuilds.slides hsource htarget hne way hway).1.exists_eval hs
  obtain ⟨b, rfl⟩ := Expr.admits_bool hadmits
  exact ⟨b, hv⟩

/-- **Boxes that are moved.**  Let the variables of boxes have any values of their types.  Then every
cell is occupied or not, and shoving from one cell within reach to another leaves the first one free
and the second one occupied if one of them was.  If the boxes are apart and the second cell is free,
then sliding from an occupied cell can be done in just one way, which leaves the first cell free and
the second one occupied; from a free cell there is no way.  No other cell changes. -/
theorem occupied_moved (kind : Kind) (l : Level) {s : Valuation}
    (hs : InTypes (ofKind kind l).vars s) :
    ∃ occupied : Nat → Bool, (ofKind kind l).Occupies s occupied ∧
      (∀ target beyond, l.reachable.contains target → l.reachable.contains beyond →
        target ≠ beyond → (ofKind kind l).Brings s ((ofKind kind l).shove target beyond)
          (shoved target beyond occupied)) ∧
      (kind.Apart l s → ∀ source target, l.reachable.contains source →
        l.reachable.contains target → source ≠ target → occupied target = false →
          (∀ way ∈ (ofKind kind l).slides source target,
            ∃ b, way.1.eval s = some (.bool b)) ∧
          if occupied source then
            ∃ way, (ofKind kind l).picks s source target = [way] ∧
              (ofKind kind l).Brings s way.2 (slid source target occupied)
          else (ofKind kind l).picks s source target = []) := by
  cases kind with
  | tile =>
      obtain ⟨boxes, h⟩ := inTypes_tile_iff.mp hs
      refine ⟨fun cell => decide (cell ∈ boxes ∪ l.fixedBoxes), h.occupied,
        fun target beyond htarget hbeyond hne => h.brings_shove htarget hbeyond hne,
        fun _ source target hsource htarget hne _ =>
          ⟨exists_eval_of_mem_slides .tile hs hsource htarget hne, ?_⟩⟩
      have hpicks := h.picks source target
      simp only [decide_eq_true_eq]
      split
      next hmem =>
        rw [if_pos hmem] at hpicks
        exact ⟨_, hpicks, h.brings_slide hsource htarget hne⟩
      next hmem =>
        rw [if_neg hmem] at hpicks
        exact hpicks
  | box =>
      obtain ⟨cells, h, hbounds⟩ := inTypes_box_iff.mp hs
      refine ⟨fun cell => decide (l.Covered cells cell), h.occupied,
        fun target beyond htarget hbeyond hne => h.brings_shove hbounds htarget hbeyond hne,
        fun hapart source target hsource htarget hne _ =>
          ⟨exists_eval_of_mem_slides .box hs hsource htarget hne, ?_⟩⟩
      have hnodup := h.apart_iff.mp hapart
      have hpicks := h.picks hnodup source target
      -- No box that never moves stands on a cell within reach.
      have hcovered : l.Covered cells source ↔ source ∈ cells := by
        rw [Level.Covered, or_iff_right (Level.not_mem_fixedBoxes hsource), and_iff_right hsource]
      simp only [decide_eq_true_eq, hcovered]
      split
      next hmem =>
        rw [if_pos hmem] at hpicks
        exact ⟨_, hpicks, h.brings_slide hnodup hbounds hsource htarget hne
          (List.getElem?_idxOf hmem)⟩
      next hmem =>
        rw [if_neg hmem] at hpicks
        exact hpicks

/-- What is covered decides what is occupied, so a state with given positions can be looked at. -/
theorem HasPositions.occupied_eq (h : HasPositions l s cells) {occupied : Nat → Bool}
    (hoccupied : (box l).Occupies s occupied) {cell : Nat} {b : Bool}
    (hb : decide (l.Covered cells cell) = b) : occupied cell = b := by
  simpa [hb] using (hoccupied cell).symm.trans (h.occupied cell)

/-- The two boxes of the alcove can be anywhere between its first and last cell within reach. -/
theorem exists_inTypes_alcove {a b : Nat} (ha : a ≤ 3) (hb : b ≤ 3) :
    ∃ s, HasPositions alcove s [a, b] ∧ InTypes (box alcove).vars s := by
  have hlength : 2 = (movable alcove).length := by decide +kernel
  have hfirst : alcove.firstCell = 0 := by decide +kernel
  have hlast : alcove.lastCell = 3 := by decide +kernel
  have h : HasPositions alcove (fun name => some (.num (if name = boxName 0 then a else b : Nat)))
      [a, b] := by
    refine ⟨hlength, fun index cell hcell => ?_⟩
    rcases index with - | - | index
    · obtain rfl : a = cell := by simpa using hcell
      rfl
    · obtain rfl : b = cell := by simpa using hcell
      simp [boxName_inj]
    · simp at hcell
  exact ⟨_, h, inTypes_box_iff.mpr ⟨_, h, by simp [hfirst, hlast, ha, hb]⟩⟩

/-- Two boxes that share a cell are shoved together; of two boxes that are apart one slides.  The box
behind the wall stays. -/
theorem occupied_moved_alcove :
    (∃ s after, HasPositions alcove s [1, 1] ∧
      carryOut s ((box alcove).shove 1 2) = some after ∧
      ((box alcove).occupied 1).eval after = some (.bool false) ∧
      ((box alcove).occupied 2).eval after = some (.bool true) ∧
      ((box alcove).occupied 5).eval after = some (.bool true)) ∧
    ∃ s way after, HasPositions alcove s [1, 2] ∧ (box alcove).picks s 2 3 = [way] ∧
      carryOut s way.2 = some after ∧
      ((box alcove).occupied 1).eval after = some (.bool true) ∧
      ((box alcove).occupied 2).eval after = some (.bool false) ∧
      ((box alcove).occupied 3).eval after = some (.bool true) := by
  constructor
  · obtain ⟨s, hboxes, hs⟩ := exists_inTypes_alcove (a := 1) (b := 1) (by decide) (by decide)
    obtain ⟨occupied, hoccupied, hshove, -⟩ := occupied_moved .box alcove hs
    obtain ⟨after, hcarry, -, hafter⟩ := hshove 1 2 (by decide) (by decide) (by decide)
    have hone : occupied 1 = true := hboxes.occupied_eq hoccupied (by decide +kernel)
    have hfive : occupied 5 = true := hboxes.occupied_eq hoccupied (by decide +kernel)
    have htwo' : shoved 1 2 occupied 2 = true := shoved_eq_true_iff.mpr (by simp [hone])
    have hfive' : shoved 1 2 occupied 5 = true := shoved_eq_true_iff.mpr (by simp [hfive])
    exact ⟨s, after, hboxes, hcarry, hafter 1, htwo' ▸ hafter 2, hfive' ▸ hafter 5⟩
  · obtain ⟨s, hboxes, hs⟩ := exists_inTypes_alcove (a := 1) (b := 2) (by decide) (by decide)
    obtain ⟨occupied, hoccupied, -, hslide⟩ := occupied_moved .box alcove hs
    have hone : occupied 1 = true := hboxes.occupied_eq hoccupied (by decide +kernel)
    have htwo : occupied 2 = true := hboxes.occupied_eq hoccupied (by decide +kernel)
    have hthree : occupied 3 = false := hboxes.occupied_eq hoccupied (by decide +kernel)
    have hways := (hslide (hboxes.apart_iff.mpr (by decide)) 2 3 (by decide) (by decide) (by decide)
      hthree).2
    rw [if_pos htwo] at hways
    obtain ⟨way, hway, after, hcarry, -, hafter⟩ := hways
    have hone' : slid 2 3 occupied 1 = true := slid_eq_true_iff.mpr (by simp [hone])
    exact ⟨s, way, after, hboxes, hway, hcarry, hone' ▸ hafter 1, hafter 2, hafter 3⟩

end Sokoban.Encoding
