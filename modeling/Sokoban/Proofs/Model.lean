import Sokoban.Proofs.Commands
import Sokoban.Proofs.Encoding.Box
import Sokoban.Proofs.Encoding.Tile

/-! # The model of a level

A model is put together from variables, commands and a goal.  `Model.IsMade` says from which, for an
encoding and the turns of a mode, and `Model.exists_isMade` that there is such a model for every
level and every mode whose weights come from accepted maps.  What is proved about models starts from
`IsMade` and does not look at how a model is generated.

The variables have different names, so each has its initial value in the initial state, which
depicts the level as it is drawn (`IsMade.depicts_initial`).

Only the goal asks for goal cells on the board.  The program refuses a level without them, and
otherwise takes the model of the encoding (`ofLevel_eq`).
-/

namespace Sokoban

/-- **Both encodings are faithful.** What is proved of faithful encodings therefore holds of the
model in either. -/
theorem Encoding.faithful_ofKind (kind : Kind) (l : Level) :
    Faithful l (ofKind kind l) (kind.Shows l) := by
  cases kind with
  | tile => exact faithful_tile l
  | box => exact faithful_box l

/-- The player and the movable boxes before anything has moved. -/
def Scene.start (l : Level) : Scene :=
  ⟨l.player, (Encoding.movable l).toFinset, false⟩

namespace Model

/-- What a model is made of. -/
structure IsMade (m : Model) (l : Level) (e : Encoding) (mode : Mode) (turns : List Turn) :
    Prop where
  vars : m.vars = positionOf l :: e.vars ++ flagsOf mode
  commands : m.commands =
    turns.map (Turn.command e) ++ if mode.drifts then Commands.driftCommands l e else []
  goal : m.goal = e.goal

variable {l : Level} {c : Configuration} {m : Model} {e : Encoding}
  {Shows : Valuation → Finset Nat → Prop} {mode : Mode} {turns : List Turn} {s : Valuation}

/-- A model is made as soon as its commands are. -/
theorem isMade_of_commandsOf (hok : commandsOf l e c.mode = .ok
      (turns.map (Turn.command e) ++ if c.mode.drifts then Commands.driftCommands l e else [])) :
    ∃ m, ofEncoding l e c = .ok m ∧ m.IsMade l e c.mode turns :=
  ⟨_, bind_eq_ok_iff.mpr ⟨_, hok, rfl⟩, rfl, rfl, rfl⟩

/-- **Every level has a model** in every accepted mode, and its turns do not depend on the
encoding. -/
theorem exists_isMade (l : Level) (c : Configuration) (h : c.mode.Accepted) :
    ∃ turns : List Turn, (∀ t ∈ turns, t.Sound l c.mode.drifts) ∧
      ∀ e, ∃ m, ofEncoding l e c = .ok m ∧ m.IsMade l e c.mode turns := by
  obtain ⟨turns, hsound, hok⟩ := Mode.exists_turns l h
  exact ⟨turns, hsound, fun e => isMade_of_commandsOf (hok e)⟩

/-- A level whose goals lie on the board has the model of its encoding.  What is proved of that
model is therefore true of what the program makes. -/
theorem ofLevel_eq (hgoals : ∀ goal ∈ l.goals, goal < l.size)
    (h : ofEncoding l (.ofKind c.encoding l) c = .ok m) : ofLevel l c = .ok m := by
  have hfind : l.goals.find? (l.size ≤ ·) = none := by
    rw [List.find?_eq_none]
    intro goal hgoal
    simpa using hgoals goal hgoal
  rw [ofLevel, hfind, h]
  rfl

/-! ## The initial state -/

/-- Where names are different, a variable is found by its name.  The initial state looks variables
up in this way. -/
theorem find?_name {vars : List Variable} (hnodup : (vars.map Variable.name).Nodup) {x : Variable}
    (hx : x ∈ vars) : vars.find? (·.name == x.name) = some x := by
  induction vars with
  | nil => cases hx
  | cons y vars ih =>
      rw [List.map_cons, List.nodup_cons] at hnodup
      by_cases hname : y.name = x.name
      · rcases List.mem_cons.mp hx with rfl | hmem
        · exact List.find?_cons_of_pos (by simp)
        · exact absurd (hname ▸ List.mem_map_of_mem hmem) hnodup.1
      · rcases List.mem_cons.mp hx with rfl | hmem
        · exact absurd rfl hname
        · rw [List.find?_cons_of_neg (by simpa using hname)]
          exact ih hnodup.2 hmem

/-- Variables of different names have their initial values. -/
theorem initial_of_mem (hnodup : (m.vars.map Variable.name).Nodup) {x : Variable}
    (hx : x ∈ m.vars) : m.initial x.name = x.initial.eval fun _ => none := by
  rw [initial, find?_name hnodup hx, Option.bind_some]

/-- Drift is declared where it has a weight. -/
theorem flagsOf_eq (mode : Mode) :
    flagsOf mode = if mode.drifts then [.bool driftName false] else [] := by
  cases mode with
  | fixed map => cases h : map.drift.isZero <;> simp [flagsOf, Mode.drifts, h]
  | noise n => rfl
  | nondeterministic => rfl

/-- So the only variable that is a flag of a mode is drift, and only a mode that drifts has it. -/
theorem mem_flagsOf_iff {x : Variable} :
    x ∈ flagsOf mode ↔ mode.drifts ∧ x = .bool driftName false := by
  rw [flagsOf_eq]
  split <;> simp_all

/-- All variables of a model have different names: the position, those of boxes, and drift.  An
encoding has nothing but names of boxes, and those differ by the number in them. -/
theorem IsMade.nodup (h : m.IsMade l e mode turns) (hf : e.Faithful l Shows) :
    (m.vars.map Variable.name).Nodup := by
  have hbox : ∀ name ∈ e.vars.map Variable.name, ∃ n, name = boxName n := by
    intro name hname
    obtain ⟨x, hx, rfl⟩ := List.mem_map.mp hname
    exact hf.names x hx
  have hflag : ∀ name ∈ (flagsOf mode).map Variable.name, name = driftName := by
    intro name hname
    obtain ⟨x, hx, rfl⟩ := List.mem_map.mp hname
    rw [(mem_flagsOf_iff.mp hx).2]
    rfl
  have hflags : ((flagsOf mode).map Variable.name).Nodup := by
    rw [flagsOf_eq]
    split <;> simp
  rw [h.vars, List.cons_append, List.map_cons, List.map_append, List.nodup_cons]
  refine ⟨fun hmem => ?_, List.nodup_append.mpr ⟨hf.nodup, hflags, fun x hx y hy heq => ?_⟩⟩
  · rcases List.mem_append.mp hmem with hmem | hmem
    · obtain ⟨n, hn⟩ := hbox _ hmem
      exact boxName_ne_positionName n hn.symm
    · exact positionName_ne_driftName (hflag _ hmem)
  · obtain ⟨n, hn⟩ := hbox x hx
    exact boxName_ne_driftName n (hn.symm.trans (heq.trans (hflag y hy)))

/-- **The initial state** depicts the level before anything has moved: the player where it is drawn,
and boxes where boxes are. -/
theorem IsMade.depicts_initial (h : m.IsMade l e mode turns) (hf : e.Faithful l Shows) :
    Depicts Shows mode.drifts m.initial (.start l) := by
  have hinitial : ∀ x ∈ m.vars, m.initial x.name = x.initial.eval fun _ => none :=
    fun x hx => initial_of_mem (h.nodup hf) hx
  rw [h.vars] at hinitial
  refine ⟨?_, hf.initial fun x hx => ?_, fun hdrifts => ?_⟩
  · have hposition := hinitial (positionOf l) (by simp)
    exact hposition.trans (by simp [positionOf, Variable.bounded, Expr.nat, Expr.eval, Scene.start])
  · exact hinitial x (by simp [hx])
  · have hmem : Variable.bool driftName false ∈ flagsOf mode := mem_flagsOf_iff.mpr ⟨hdrifts, rfl⟩
    exact hinitial (.bool driftName false) (by simp [hmem])

end Model

/-! ## A corridor -/

/-- A corridor with the player at one end, a box beside, and a goal at the other end. -/
def Level.corridor : Level where
  board := ⟨1, 4, #[.floor, .box, .floor, .floor]⟩
  player := 0
  goals := [3]
  reachable := Board.region ⟨1, 4, #[.floor, .box, .floor, .floor]⟩ 0
  tiles_size := rfl
  player_floor := rfl
  goals_ascending := by decide
  reachable_eq := rfl

/-- One half, with all places. -/
def Decimal.half : Decimal :=
  ⟨false, 5 * tenPow 27, 28, by decide, by decide⟩

/-- Nought, with all places. -/
def Decimal.nought : Decimal :=
  { zero with scale := 28, scale_le := by decide }

/-- The same weight for going right and for drift. -/
def ProbabilityMap.rightOrDrift : ProbabilityMap :=
  ⟨lookup [(.toward .up, .nought), (.toward .down, .nought), (.toward .left, .nought),
    (.toward .right, .half), (.drift, .half)]⟩

/-- These weights are those of a map that can be configured. -/
theorem ProbabilityMap.accepted_rightOrDrift : rightOrDrift.Accepted := by
  refine .inr ⟨[(.toward .right, .one), (.drift, .one)], ofEntries_eq_ok_iff.mpr ?_⟩
  exact ⟨[(.toward .up, .zero), (.toward .down, .zero), (.toward .left, .zero),
      (.toward .right, .one), (.drift, .one)], ⟨false, 2, 0, by decide, by decide⟩, _,
    by decide +kernel, by decide +kernel, by decide, by decide +kernel, rfl⟩

end Sokoban
