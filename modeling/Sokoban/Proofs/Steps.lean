import Mathlib.Data.List.Nodup
import Mathlib.Tactic.Linarith
import Mathlib.Tactic.Ring
import Sokoban.Step
import Sokoban.Proofs.Region

/-! # The table of steps

Steps are found by arithmetic on cell numbers, direction by direction, and then grouped by cell.
This file reads the result off the board instead:  `Level.step?` looks at the neighbour of one cell
and at the neighbour behind it, and `Level.stepTable_eq` says that the table has, for every
reachable cell, exactly these steps.

The arithmetic comes down to `isStart_succ`: a run of `reach + 1` cells ahead is one neighbour with
a run of `reach` cells ahead of it.

From there it goes in three stages.  The starts of a direction are a filter of the reachable cells
(`starts_eq`); the bounds that the search keeps to leave none of them out.  Joining the starts of
runs of one and of two cells gives the steps of the direction, cell by cell (`steps_eq`).  And
grouping the four lists of steps gives every cell the steps that start from it
(`groupSteps_filterMap`), as all of the lists ascend together.
-/

namespace Sokoban.Level

variable {l : Level} {dir : Direction} {cell n reach : Nat}

/-! ## Runs of reachable cells -/

/-- The cell `k` steps ahead lies in the same row, or column, and is reachable. -/
def OnRun (l : Level) (dir : Direction) (cell k : Nat) : Prop :=
  0 ≤ ((cell % l.columns : Nat) : Int) + dir.dx * k ∧
    ((cell % l.columns : Nat) : Int) + dir.dx * k < l.columns ∧
    0 ≤ (cell : Int) + dir.offset l.columns * k ∧
    l.reachable.contains ((cell : Int) + dir.offset l.columns * k).toNat

/-- A start is a cell all of whose cells ahead are on its run: the conditions that the search tests
one by one, told as one. -/
theorem isStart_iff : l.isStart dir reach cell ↔ ∀ k ≤ reach, l.OnRun dir cell k := by
  simp only [isStart, OnRun, List.all_eq_true, List.mem_range, Nat.lt_succ_iff, Bool.and_eq_true,
    decide_eq_true_eq, and_assoc]

/-- Zero steps ahead is the cell itself, whose column needs no test. -/
theorem onRun_zero : l.OnRun dir cell 0 ↔ l.reachable.contains cell := by
  have hcolumn : cell % l.columns < l.columns := Nat.mod_lt cell columns_pos
  simp only [OnRun, Nat.cast_zero, mul_zero, add_zero, Int.toNat_natCast]
  constructor
  · exact fun h => h.2.2.2
  · exact fun h => ⟨by omega, by omega, by omega, h⟩

/-- The column of a neighbour. -/
theorem mod_neighbor (h : l.neighbor? cell dir = some n) :
    ((n % l.columns : Nat) : Int) = (cell % l.columns : Nat) + dir.dx := by
  obtain ⟨hlow, hhigh, hn, -⟩ := Board.neighbor?_eq_some_iff.mp h
  have hmod : (n : Int) % l.board.columns =
      ((cell % l.board.columns : Nat) + dir.dx) % l.board.columns := by
    rw [hn, Direction.offset, ← add_assoc, Int.add_mul_emod_self_right, Int.natCast_mod,
      Int.emod_add_emod]
  rw [Int.natCast_mod, columns, hmod, Int.emod_eq_of_lt hlow hhigh]

/-- **A run goes on as the run of the neighbour**: one step less from there is the same cell, and
the same column. -/
theorem onRun_succ (h : l.neighbor? cell dir = some n) (k : Nat) :
    l.OnRun dir cell (k + 1) ↔ l.OnRun dir n k := by
  have hn : (n : Int) = cell + dir.offset l.columns := (Board.neighbor?_eq_some_iff.mp h).2.2.1
  have hahead : (cell : Int) + dir.offset l.columns * (k + 1 : Nat) =
      n + dir.offset l.columns * k := by
    rw [hn]
    push_cast
    ring
  have hcolumn : ((cell % l.columns : Nat) : Int) + dir.dx * (k + 1 : Nat) =
      (n % l.columns : Nat) + dir.dx * k := by
    rw [mod_neighbor h]
    push_cast
    ring
  rw [OnRun, OnRun, hahead, hcolumn]

/-- With nothing asked for ahead, every reachable cell is a start. -/
theorem isStart_zero : l.isStart dir 0 cell ↔ l.reachable.contains cell := by
  rw [isStart_iff]
  constructor
  · exact fun h => onRun_zero.mp (h 0 (Nat.le_refl 0))
  · intro h k hk
    obtain rfl : k = 0 := Nat.le_zero.mp hk
    exact onRun_zero.mpr h

/-- **A start with one more cell ahead** goes through its neighbour.  The first cell ahead is that
neighbour because its column is tested, and the others are on the neighbour's run. -/
theorem isStart_succ :
    l.isStart dir (reach + 1) cell ↔
      l.reachable.contains cell ∧ ∃ n, l.neighbor? cell dir = some n ∧ l.isStart dir reach n := by
  rw [isStart_iff]
  constructor
  · intro h
    have hcell := onRun_zero.mp (h 0 (by omega))
    obtain ⟨hlow, hhigh, hpos, hreach⟩ := h 1 (by omega)
    simp only [Nat.cast_one, mul_one] at hlow hhigh hpos hreach
    obtain ⟨n, hn⟩ := Int.eq_ofNat_of_zero_le hpos
    rw [hn, Int.toNat_natCast] at hreach
    have hneighbor : l.neighbor? cell dir = some n :=
      Board.neighbor?_eq_some_iff.mpr ⟨hlow, hhigh, hn.symm, lt_size_of_reachable hreach⟩
    refine ⟨hcell, n, hneighbor, isStart_iff.mpr fun k hk => ?_⟩
    exact (onRun_succ hneighbor k).mp (h (k + 1) (by omega))
  · intro h k hk
    obtain ⟨hcell, n, hneighbor, h⟩ := h
    cases k with
    | zero => exact onRun_zero.mpr hcell
    | succ k => exact (onRun_succ hneighbor k).mpr (isStart_iff.mp h k (by omega))

/-- A start is reachable itself, whatever is asked for ahead. -/
theorem reachable_of_isStart (h : l.isStart dir reach cell) : l.reachable.contains cell :=
  onRun_zero.mp (isStart_iff.mp h 0 (Nat.zero_le _))

/-- **The bounds leave out no start**: the last cell ahead is on the board, which keeps the start
away from the end of the board that the direction leads to. -/
theorem startBounds_of_isStart (h : l.isStart dir reach cell) :
    (l.startBounds (dir.offset l.columns) reach).1 ≤ cell ∧
      cell < (l.startBounds (dir.offset l.columns) reach).2 := by
  obtain ⟨-, -, hpos, hahead⟩ := isStart_iff.mp h reach (Nat.le_refl _)
  have hsize := lt_size_of_reachable hahead
  have hfirst := firstCell_le (reachable_of_isStart h)
  have hlast := le_lastCell (reachable_of_isStart h)
  -- Only the sign of the offset matters from here on.
  generalize dir.offset l.columns = offset at *
  have hspan : ((offset.natAbs * reach : Nat) : Int) = |offset| * reach := by
    push_cast
    ring
  unfold startBounds
  split
  next hneg =>
    rw [abs_of_neg hneg] at hspan
    have hroom : ((offset.natAbs * reach : Nat) : Int) ≤ cell := by
      rw [hspan]
      linarith
    exact ⟨Nat.max_le.mpr ⟨Int.ofNat_le.mp hroom, hfirst⟩, Nat.lt_succ_of_le hlast⟩
  next hnonneg =>
    rw [abs_of_nonneg (by omega)] at hspan
    refine ⟨hfirst, Nat.lt_min.mpr ⟨?_, Nat.lt_succ_of_le hlast⟩⟩
    rw [← hspan] at hsize hpos
    omega

/-- The starts are found by a filter of the reachable cells.  The bounds leave out only cells whose
cells ahead would be off the board, which are not reachable. -/
theorem starts_eq (l : Level) (dir : Direction) (reach : Nat) :
    l.starts dir reach = l.reachable.toList.filter (l.isStart dir reach) := by
  refine Ascending.eq_of_pairwise_lt ?_ ((CellSet.pairwise_toList _).filter _) fun n => ?_
  · exact (List.pairwise_lt_range' ..).filter _
  · simp only [starts, List.mem_filter, List.mem_range'_1, CellSet.mem_toList]
    constructor
    · intro h
      exact ⟨reachable_of_isStart h.2, h.2⟩
    · intro h
      have hbounds := startBounds_of_isStart h.2
      exact ⟨by omega, h.2⟩

/-! ## The steps of a cell -/

/-- The reachable neighbour of a cell in a direction. -/
def ahead? (l : Level) (cell : Nat) (dir : Direction) : Option Nat :=
  (l.neighbor? cell dir).filter l.reachable.contains

/-- The step from a cell in a direction: a push if the cell behind the neighbour is reachable too,
and a mere move otherwise. -/
def step? (l : Level) (cell : Nat) (dir : Direction) : Option Step :=
  (l.ahead? cell dir).map fun target =>
    match l.ahead? target dir with
    | none => .move cell target
    | some beyond => .push cell target beyond

/-- The steps from a cell, in the order of directions. -/
def stepsFrom (l : Level) (cell : Nat) : StepRow :=
  Direction.all.filterMap fun dir => (l.step? cell dir).map (dir, ·)

/-- The cell ahead is the neighbour, if that is reachable. -/
theorem ahead?_eq_some_iff :
    l.ahead? cell dir = some n ↔ l.neighbor? cell dir = some n ∧ l.reachable.contains n := by
  simp [ahead?, Option.filter_eq_some_iff]

/-- From a reachable cell, the cells ahead are the neighbours that are no walls.  A cell beside a
reachable one is reachable unless it is a wall. -/
theorem ahead?_eq_filter (hcell : l.reachable.contains cell) (dir : Direction) :
    l.ahead? cell dir = (l.neighbor? cell dir).filter l.board.isOpen := by
  unfold ahead?
  cases hneighbor : l.neighbor? cell dir with
  | none => rfl
  | some n =>
      have hopen : l.reachable.contains n = l.board.isOpen n :=
        Bool.eq_iff_iff.mpr (reachable_neighbor_iff hcell hneighbor)
      simp only [Option.filter, hopen]

/-- The cell ahead is another cell. -/
theorem ahead?_ne (h : l.ahead? cell dir = some n) : n ≠ cell :=
  Board.neighbor?_ne (ahead?_eq_some_iff.mp h).1

/-- The cell ahead has the number that the offset gives. -/
theorem toNat_add_offset (h : l.ahead? cell dir = some n) :
    ((cell : Int) + dir.offset l.columns).toNat = n := by
  have hn : (n : Int) = cell + dir.offset l.columns :=
    (Board.neighbor?_eq_some_iff.mp (ahead?_eq_some_iff.mp h).1).2.2.1
  rw [← hn, Int.toNat_natCast]

/-- A step can be taken if the cell ahead is reachable. -/
theorem isStart_one (hcell : l.reachable.contains cell) :
    l.isStart dir 1 cell ↔ ∃ n, l.ahead? cell dir = some n := by
  rw [isStart_succ]
  simp only [isStart_zero, hcell, true_and, ahead?_eq_some_iff]

/-- A box can be pushed if there is a second reachable cell behind the first, in the same direction
and without crossing a side of the grid. -/
theorem isStart_two (hcell : l.reachable.contains cell) :
    l.isStart dir 2 cell ↔
      ∃ target beyond, l.ahead? cell dir = some target ∧ l.ahead? target dir = some beyond := by
  rw [isStart_succ, and_iff_right hcell]
  constructor
  · intro h
    obtain ⟨target, hneighbor, h⟩ := h
    have htarget := reachable_of_isStart h
    obtain ⟨beyond, hbeyond⟩ := (isStart_one htarget).mp h
    exact ⟨target, beyond, ahead?_eq_some_iff.mpr ⟨hneighbor, htarget⟩, hbeyond⟩
  · intro h
    obtain ⟨target, beyond, htarget, hbeyond⟩ := h
    obtain ⟨hneighbor, hreach⟩ := ahead?_eq_some_iff.mp htarget
    exact ⟨target, hneighbor, (isStart_one hreach).mpr ⟨beyond, hbeyond⟩⟩

/-- Joining two filtered lists pairs each cell that passes the first filter with whether it passes
the second, stricter one. -/
theorem joinStarts_filter {offset : Int} {p q : Nat → Bool} (hqp : ∀ x, q x → p x)
    {xs : List Nat} (hnodup : xs.Nodup) :
    joinStarts offset (xs.filter p) (xs.filter q) = xs.filterMap fun x : Nat =>
      let target := ((x : Int) + offset).toNat
      if p x then
        some (if q x then .push x target (target + offset).toNat else .move x target)
      else none := by
  induction xs with
  | nil => rfl
  | cons x xs ih =>
      obtain ⟨hx, hxs⟩ := List.nodup_cons.mp hnodup
      rw [List.filterMap_cons, ← ih hxs]
      by_cases hp : p x
      · by_cases hq : q x
        · simp [hp, hq, joinStarts]
        · -- The first push, if there is one, starts from a later cell.
          simp only [List.filter_cons, hp, hq, ↓reduceIte, Bool.false_eq_true]
          cases hrest : xs.filter q with
          | nil => simp [joinStarts]
          | cons push rest =>
              have hpush : push ∈ xs := List.mem_of_mem_filter (hrest ▸ List.mem_cons_self)
              have hne : push ≠ x := fun h => hx (h ▸ hpush)
              simp [joinStarts, hne]
      · have hq : ¬ q x := fun h => hp (hqp x h)
        simp [hp, hq]

/-- **The steps in a direction** are those of the reachable cells, one by one.  Which step it is
depends on the cell ahead and on the one behind it, and so does whether the cell starts a run of one
or of two. -/
theorem steps_eq (l : Level) (dir : Direction) :
    l.steps dir = l.reachable.toList.filterMap (l.step? · dir) := by
  rw [steps, starts_eq, starts_eq, joinStarts_filter _ (CellSet.nodup_toList _)]
  · refine List.filterMap_congr fun cell hcell => ?_
    rw [CellSet.mem_toList] at hcell
    cases hahead : l.ahead? cell dir with
    | none =>
        have hno : ¬ l.isStart dir 1 cell := by simp [isStart_one hcell, hahead]
        simp [step?, hahead, hno]
    | some target =>
        have hone : l.isStart dir 1 cell := (isStart_one hcell).mpr ⟨target, hahead⟩
        have htwo : l.isStart dir 2 cell ↔ ∃ beyond, l.ahead? target dir = some beyond := by
          rw [isStart_two hcell]
          simp [hahead]
        cases hbehind : l.ahead? target dir with
        | none =>
            have hno : ¬ l.isStart dir 2 cell := by simp [htwo, hbehind]
            simp [step?, hahead, hbehind, hone, hno, toNat_add_offset hahead]
        | some beyond =>
            have hyes : l.isStart dir 2 cell := htwo.mpr ⟨beyond, hbehind⟩
            simp [step?, hahead, hbehind, hone, hyes, toNat_add_offset hahead,
              toNat_add_offset hbehind]
  · intro cell h
    rw [isStart_iff] at h ⊢
    exact fun k hk => h k (by omega)

/-- A step starts from the cell that it was looked for at. -/
theorem start_of_step? {step : Step} (h : l.step? cell dir = some step) : step.start = cell := by
  obtain ⟨target, -, rfl⟩ := Option.map_eq_some_iff.mp h
  cases l.ahead? target dir <;> rfl

/-- **Grouping** queues that hold the steps of ascending cells gives every cell its own steps.  The
head of a queue starts from the cell in turn, or else the cell has no step in that direction and the
queue waits for a later one. -/
theorem groupSteps_filterMap {find : Direction → Nat → Option Step}
    (hstart : ∀ dir cell step, find dir cell = some step → step.start = cell)
    (dirs : List Direction) {cells : List Nat} (hnodup : cells.Nodup) :
    groupSteps cells (dirs.map fun dir => (dir, cells.filterMap (find dir))) =
      cells.map fun cell => (cell, dirs.filterMap fun dir => (find dir cell).map (dir, ·)) := by
  induction cells with
  | nil => rfl
  | cons cell cells ih =>
      obtain ⟨hcell, hcells⟩ := List.nodup_cons.mp hnodup
      -- A queue begins with the step of this cell or with one of a later cell, which is left.
      have htake : ∀ dir, takeStep cell ((cell :: cells).filterMap (find dir)) =
          (find dir cell, cells.filterMap (find dir)) := by
        intro dir
        rw [List.filterMap_cons]
        cases hfind : find dir cell with
        | some step => simp [takeStep, hstart dir cell step hfind]
        | none =>
            cases hrest : cells.filterMap (find dir) with
            | nil => rfl
            | cons step rest =>
                obtain ⟨later, hlater, hstep⟩ := List.mem_filterMap.mp
                  (hrest ▸ List.mem_cons_self : step ∈ cells.filterMap (find dir))
                have hne : step.start ≠ cell := by
                  rw [hstart dir later step hstep]
                  intro heq
                  exact hcell (heq ▸ hlater)
                simp [takeStep, hne]
      simp only [groupSteps, List.map_map, Function.comp_def, htake, List.filterMap_map,
        List.map_cons]
      rw [← ih hcells]

/-- **The table of steps** has a row for every reachable cell, ascending, with the step from that
cell in each direction that has one. -/
theorem stepTable_eq (l : Level) :
    l.stepTable = l.reachable.toList.map fun cell => (cell, l.stepsFrom cell) := by
  simp only [stepTable, steps_eq]
  exact groupSteps_filterMap (fun _ _ _ => start_of_step?) _ (CellSet.nodup_toList _)

/-- A cell has the steps that the cells ahead of it admit, each under its direction. -/
theorem mem_stepsFrom {step : Step} :
    (dir, step) ∈ l.stepsFrom cell ↔ l.step? cell dir = some step := by
  simp only [stepsFrom, List.mem_filterMap, Option.map_eq_some_iff, Prod.mk.injEq]
  constructor
  · intro h
    obtain ⟨d, -, s, hs, rfl, rfl⟩ := h
    exact hs
  · exact fun h => ⟨dir, Direction.mem_all dir, step, h, rfl, rfl⟩

/-- The directions that there is a step in, in the order of all directions. -/
theorem map_fst_stepsFrom (l : Level) (cell : Nat) :
    (l.stepsFrom cell).map (·.1) = Direction.all.filter fun dir => (l.step? cell dir).isSome := by
  rw [stepsFrom, List.map_filterMap, ← List.filterMap_eq_filter]
  refine List.filterMap_congr fun dir _ => ?_
  cases hstep : l.step? cell dir <;> simp [Option.guard, hstep]

/-- The directions of the steps from a cell are different, in the order of all directions. -/
theorem sublist_stepsFrom (l : Level) (cell : Nat) :
    ((l.stepsFrom cell).map (·.1)).Sublist Direction.all := by
  rw [map_fst_stepsFrom]
  exact List.filter_sublist

end Sokoban.Level
