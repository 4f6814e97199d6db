import Sokoban.Proofs.Model
import Sokoban.Proofs.Placement

/-! # Levels do not get in each other's way

In a batch a level that cannot be placed is reported, and the others are placed all the same.  What
has been written for one of them stays as it is, and so does every other file (`Isolated`).  This is
proved for turns in any order of fates (`Turns.isolated`) and then said of the batch as it is run
(`place_isolated`).

Two promises hold where the path settles, that is, where it goes back only from folders that are
there: nothing is changed under the path of a level that fails, and under the strict policy no file
is changed at all.  Behind a folder that is only made for the batch a path may not be seen before,
and then a file that is there is overwritten (`place_strict_overwrites`): the policy asks what is
found under the path before the folders are made, and at that time the path leads nowhere.

The files are only assumed to be closed, which is to say that everything stands in a folder.
-/

namespace Sokoban.Placement

open FileTree (Grows)

/-- A batch whose levels do not get in each other's way.  The files are `files 0` before it,
`files i` when `i` levels have had their turn, and `files levels.length` in the end; a level has
failed if its fate is an error. -/
structure Isolated (c : Configuration) (policy : Overwriting) (base : Path) (levels : List Level)
    (files : Nat → FileTree) (fate : Nat → Option PlacementError) : Prop where
  /-- A level does not fail just if its text is stored in its turn. -/
  placed : ∀ i l, levels[i]? = some l →
    (fate i = none ↔ ∃ g, generate l c = .ok g ∧
      Stored policy (base.indexed i) g.text (files i) (files (i + 1)))
  /-- The error of a level is its own. -/
  blamed : ∀ i l cause, levels[i]? = some l → fate i = some cause →
    Blames c policy (base.indexed i) l (files i) cause
  /-- The text of a level that has not failed is there in the end. -/
  read_eq : ∀ i l, levels[i]? = some l → fate i = none →
    ∃ g, generate l c = .ok g ∧
      (files levels.length).read (base.indexed i) = .ok g.text.toUTF8
  /-- Under the path of a level that has failed everything is as before. -/
  find?_eq : (files 0).Settles base.folder → ∀ i cause, i < levels.length → fate i = some cause →
    (files levels.length).find? (base.indexed i) = (files 0).find? (base.indexed i)
  /-- Every other file is as before. -/
  others : ∀ q content, (files 0).node? q = some (.file content) →
    (∀ i < levels.length, fate i = none →
      (files levels.length).locate (base.indexed i) ≠ .ok q) →
    (files levels.length).node? q = some (.file content)
  /-- Under the strict policy every file is as before. -/
  strict : policy = .strict → (files 0).Settles base.folder →
    ∀ q content, (files 0).node? q = some (.file content) →
      (files levels.length).node? q = some (.file content)

variable {c : Configuration} {policy : Overwriting} {base : Path} {levels : List Level}
  {files : Nat → FileTree} {fate : Nat → Option PlacementError} {i j : Nat} {l : Level}
  {q : Place} {content : ByteArray}

namespace Turns

variable (h : Turns c policy base levels files fate)

include h

/-- **What a level has written stays.** It stands at the level's target, and no later turn writes
there. -/
theorem read_eq (hl : levels[i]? = some l) (hfate : fate i = none) :
    ∃ g, generate l c = .ok g ∧
      (files levels.length).read (base.indexed i) = .ok g.text.toUTF8 := by
  have hlt : i < levels.length := (List.getElem?_eq_some_iff.mp hl).1
  have hturn := h i l hl
  rw [hfate] at hturn
  obtain ⟨hreaches, g, hgenerate, hnode, -⟩ := hturn.reaches_and_node
  rw [h.target_eq (by omega)] at hnode
  refine ⟨g, hgenerate, FileTree.read_indexed_of_reaches (h.reaches hlt le_rfl hreaches) ?_⟩
  rw [h.target_eq le_rfl]
  -- The later levels have other targets.
  have hlater : ∀ k, i + 1 ≤ k → k < levels.length → fate k = none →
      (files 0).target base i ≠ (files 0).target base k := by
    intro k hik _ _ heq
    have hsame := FileTree.target_injective _ base heq
    omega
  rcases h.node hlt le_rfl hlater with hsame | ⟨hnone, -⟩
  · rw [hsame, hnode]
  · rw [hnode] at hnone
    cases hnone

/-- **A path that settles is as before** if its level fails.  If the batch is reached at the end,
either it was reached before, or nothing stood at the target. -/
theorem find?_eq {cause : PlacementError} (hclosed : (files 0).Closed)
    (hsettles : (files 0).Settles base.folder) (hfate : fate i = some cause) :
    (files levels.length).find? (base.indexed i) = (files 0).find? (base.indexed i) := by
  have hothers : ∀ k, 0 ≤ k → k < levels.length → fate k = none →
      (files 0).target base i ≠ (files 0).target base k := by
    intro k _ _ hk heq
    rw [← FileTree.target_injective _ base heq, hfate] at hk
    cases hk
  have hnode : (files levels.length).node? ((files 0).target base i) =
      (files 0).node? ((files 0).target base i) := by
    apply (h.node (Nat.zero_le _) le_rfl hothers).resolve_right
    rintro ⟨hnone, -, halong⟩
    exact hsettles.not_along hnone halong
  rw [← h.target_eq le_rfl] at hnode
  by_cases hbefore : (files 0).Reaches base
  · have hafter := h.reaches (Nat.zero_le _) le_rfl hbefore
    rw [FileTree.find?_indexed_of_reaches hafter, FileTree.find?_indexed_of_reaches hbefore, hnode,
      h.target_eq le_rfl]
  · rw [FileTree.find?_indexed_of_not_reaches hbefore]
    by_cases hafter : (files levels.length).Reaches base
    · rw [FileTree.find?_indexed_of_reaches hafter, hnode, h.target_eq le_rfl,
        hsettles.node?_target hclosed hbefore]
    · exact FileTree.find?_indexed_of_not_reaches hafter

/-- **A file that is no target stays.** New folders only stand where nothing was, and only the files
of levels that have been stored are written. -/
theorem node?_eq (hfile : (files 0).node? q = some (.file content))
    (hq : ∀ k, k < j → fate k = none → q ≠ (files 0).target base k)
    (hj : j ≤ levels.length) : (files j).node? q = some (.file content) := by
  rcases h.node (Nat.zero_le j) hj fun k _ => hq k with hsame | ⟨hnone, -⟩
  · rw [hsame, hfile]
  · rw [hfile] at hnone
    cases hnone

/-- A file that is there is not written under the strict policy: its path would have been found, as
no folder on the way to it can have been missing. -/
theorem ne_target_of_strict (hstrict : policy = .strict) (hclosed : (files 0).Closed)
    (hsettles : (files 0).Settles base.folder)
    (hfile : (files 0).node? q = some (.file content)) (hi : i < levels.length)
    (hfate : fate i = none) : q ≠ (files 0).target base i := by
  rintro rfl
  have hturn := h i _ (List.getElem?_eq_getElem hi)
  rw [hfate] at hturn
  obtain ⟨-, -, -, -, hnone⟩ := hturn.reaches_and_node
  by_cases hreaches : (files 0).Reaches base
  · -- The levels before have other targets, so the file is still there and is found.
    have hearlier : ∀ k, k < i → fate k = none →
        (files 0).target base i ≠ (files 0).target base k := by
      intro k hki _ heq
      have hsame := FileTree.target_injective _ base heq
      omega
    have hstill := h.node?_eq hfile hearlier hi.le
    rw [← h.target_eq hi.le, ← FileTree.find?_indexed_of_reaches
      (h.reaches (Nat.zero_le i) hi.le hreaches), hnone hstrict] at hstill
    cases hstill
  · rw [hsettles.node?_target hclosed hreaches] at hfile
    cases hfile

/-- **The turns of a batch** leave one another alone.  Each clause is one of the facts above, taken
from the first files to the last. -/
theorem isolated (hclosed : (files 0).Closed) : Isolated c policy base levels files fate where
  placed i l hl := (h i l hl).eq_none_iff
  blamed i l cause hl hfate := by
    have hturn := h i l hl
    rw [hfate] at hturn
    cases hturn with
    | failed _ hblames => exact hblames
  read_eq i l hl hfate := h.read_eq hl hfate
  find?_eq hsettles i cause _ hfate := h.find?_eq hclosed hsettles hfate
  others q content hfile hq := by
    refine h.node?_eq hfile (fun k hk hfate heq => hq k hk hfate ?_) le_rfl
    have hturn := h k _ (List.getElem?_eq_getElem hk)
    rw [hfate] at hturn
    have hreaches := h.reaches hk le_rfl hturn.reaches_and_node.1
    exact FileTree.locate_indexed_eq_ok_iff.mpr ⟨hreaches, by rw [heq, h.target_eq le_rfl]⟩
  strict hstrict hsettles q content hfile :=
    h.node?_eq hfile (fun _ hk hfate => h.ne_target_of_strict hstrict hclosed hsettles hfile hk hfate)
      le_rfl

end Turns

/-! ## Batches -/

/-- The failures of a batch are those of its levels, in their order, and besides files nothing
changes.  By induction on the number of levels that have had their turn. -/
theorem machineAfter_spec (levels : List Level) (c : Configuration) (base : Path)
    (policy : Overwriting) (m : Machine) {count : Nat} (hcount : count ≤ levels.length) :
    ((place (levels.take count) c (some base) policy : StateM Machine Report) m).1.failures =
        (List.range count).filterMap (fateOf levels c base policy m) ∧
      machineAfter levels c base policy m count =
        m.withFiles (machineAfter levels c base policy m count).files := by
  induction count with
  | zero => exact ⟨rfl, rfl⟩
  | succ count ih =>
      obtain ⟨hfailures, hmachine⟩ := ih (by omega)
      obtain ⟨-, hafter, hmore⟩ :=
        turn_machineAfter c base policy m (List.getElem?_eq_getElem hcount)
      refine ⟨?_, ?_⟩
      · rw [hmore, hfailures, List.range_succ, List.filterMap_append]
        refine congrArg _ ?_
        rw [List.filterMap_cons, List.filterMap_nil]
        cases fateOf levels c base policy m count <;> rfl
      · rw [hmachine] at hafter
        exact hafter

/-- The files that the levels leave one after another are those of turns. -/
theorem turns_machineAfter (levels : List Level) (c : Configuration) (base : Path)
    (policy : Overwriting) (m : Machine) :
    Turns c policy base levels (fun i => (machineAfter levels c base policy m i).files)
      (fateOf levels c base policy m) :=
  fun _ _ hl => (turn_machineAfter c base policy m hl).1

/-- All turns are the whole batch, with its report. -/
theorem place_eq (levels : List Level) (c : Configuration) (base : Path) (policy : Overwriting)
    (m : Machine) :
    ((place levels c (some base) policy : StateM Machine Report) m).1.failures =
        (List.range levels.length).filterMap (fateOf levels c base policy m) ∧
      ((place levels c (some base) policy : StateM Machine Report) m).2 =
        m.withFiles (machineAfter levels c base policy m levels.length).files := by
  obtain ⟨hfailures, hmachine⟩ := machineAfter_spec levels c base policy m le_rfl
  rw [← hmachine, machineAfter]
  rw [List.take_length] at hfailures ⊢
  exact ⟨hfailures, rfl⟩

/-- **Placing a batch isolates its levels.**  The numbered paths are distinct, and the failures are
those of the levels whose texts have not been stored, in the order of the levels.  The texts of the
others are there in the end, each under its path, and all other files are as they were; so are the
paths of the levels that have failed, and under the strict policy all files, if the path settles.
If there is no path and not one level, nothing is written anywhere. -/
theorem place_isolated (levels : List Level) (c : Configuration) (base : Path)
    (policy : Overwriting) (m : Machine) (hclosed : m.files.Closed) :
    Function.Injective base.indexed ∧
      (∃ fate : Nat → Option PlacementError,
        ((place levels c (some base) policy : StateM Machine Report) m).1.failures =
            (List.range levels.length).filterMap fate ∧
          ((place levels c (some base) policy : StateM Machine Report) m).2 =
            m.withFiles (machineAfter levels c base policy m levels.length).files ∧
          Isolated c policy base levels (fun i => (machineAfter levels c base policy m i).files)
            fate) ∧
      (levels.length ≠ 1 → (place levels c none policy : StateM Machine Report) m =
        (⟨[.ambiguousOutput levels.length], []⟩, m)) := by
  obtain ⟨hfailures, hmachine⟩ := place_eq levels c base policy m
  have hisolated := (turns_machineAfter levels c base policy m).isolated hclosed
  exact ⟨base.indexed_injective, ⟨_, hfailures, hmachine, hisolated⟩,
    fun hlength => place_ambiguous hlength c policy m⟩

/-- A machine on which a folder is in the way of the second level. -/
def folderInTheWay : Machine where
  files := ⟨[], [(["m_1".toList], .folder), (["m_2".toList], .file "old".toUTF8)]⟩

/-- Of three levels the second fails, and the third takes the place of a file. -/
theorem place_isolated_three :
    let levels := [Level.corridor, .corridor, .corridor]
    let c : Configuration := { mode := .nondeterministic, format := .prism }
    let base : Path := ⟨"m".toList⟩
    folderInTheWay.files.Closed ∧ folderInTheWay.files.Settles base.folder ∧
      ((place levels c (some base) .warn : StateM Machine Report) folderInTheWay).1.failures =
        [.io "m_1" .isFolder] ∧
      ∃ fate, ((place levels c (some base) .warn : StateM Machine Report)
            folderInTheWay).1.failures = (List.range 3).filterMap fate ∧
        Isolated c .warn base levels
          (fun i => (machineAfter levels c base .warn folderInTheWay i).files) fate := by
  have hclosed : folderInTheWay.files.Closed :=
    FileTree.closed_of_nodes (by simp [folderInTheWay, FileTree.node?])
  obtain ⟨-, ⟨fate, hfailures, -, hisolated⟩, -⟩ := place_isolated
    [.corridor, .corridor, .corridor] { mode := .nondeterministic, format := .prism }
    ⟨"m".toList⟩ .warn folderInTheWay hclosed
  exact ⟨hclosed, ⟨[], [], by decide +kernel, ⟨[], rfl⟩, by simp⟩, by decide +kernel, fate,
    hfailures, hisolated⟩

/-- A machine with one file. -/
def oneFile : Machine where
  files := ⟨[], [(["m_0".toList], .file "keep".toUTF8)]⟩

/-- **A file behind a folder that is missing** is overwritten under the strict policy, and no level
fails. -/
theorem place_strict_overwrites :
    let c : Configuration := { mode := .nondeterministic, format := .prism }
    let placed := (place [.corridor] c (some ⟨"new/../m".toList⟩) .strict :
      StateM Machine Report) oneFile
    oneFile.files.Closed ∧ oneFile.files.read ⟨"m_0".toList⟩ = .ok "keep".toUTF8 ∧
      placed.1.failures = [] ∧ placed.2.files.read ⟨"m_0".toList⟩ ≠ .ok "keep".toUTF8 := by
  have hclosed : oneFile.files.Closed :=
    FileTree.closed_of_nodes (by simp [oneFile, FileTree.node?])
  exact ⟨hclosed, by decide +kernel, by decide +kernel, by decide +kernel⟩

end Sokoban.Placement
