import Sokoban.Proofs.Drawing
import Sokoban.Proofs.Prism.Meaning
import Sokoban.Proofs.WellFormed

/-! # Generated models can be read

The model of a level consists of parts that are written without loss: its names are words, its
expressions are folded, and each of its commands has an outcome (`Model.clear_ofParts`).  So its
text gives the model back, with literals in their shortest forms, and what it gives back means the
model (`Model.read_ofLevel`).

The facts come from what the model is built of.  Names are those of the position, of drift and of
boxes with a number (`isName_boxName`); expressions over them are built by the folding constructors;
probabilities are of the few forms that a mode has.  None of this looks at a level, so the theorem
holds of every level and for both encodings.
-/

namespace Sokoban

open Prism (IsName)

/-! ## Names -/

/-- The name of the position can be read again. -/
theorem isName_positionName : IsName positionName :=
  ⟨by decide, by decide, by decide, by decide, by decide⟩

theorem isName_driftName : IsName driftName :=
  ⟨by decide, by decide, by decide, by decide, by decide⟩

theorem isName_muName : IsName muName :=
  ⟨by decide, by decide, by decide, by decide, by decide⟩

/-- The names of actions can be read again. -/
theorem Direction.isName (dir : Direction) : IsName dir.name := by
  cases dir <;> exact ⟨by decide, by decide, by decide, by decide, by decide⟩

/-- The name of a box is a fixed beginning and the digits of its number. -/
theorem toList_boxName (n : Nat) : (boxName n).toList = "box_".toList ++ Nat.toDigits 10 n := by
  simp [boxName, toString]

/-- The name of a box is none that begins otherwise. -/
theorem boxName_ne {name : String} (n : Nat) (h : name.toList.head? ≠ some 'b') : boxName n ≠ name := by
  rintro rfl
  rw [toList_boxName] at h
  exact h rfl

/-- The name of a box can be read again: it consists of characters of words, and does not begin with
a digit. -/
theorem isName_boxName (n : Nat) : IsName (boxName n) where
  word := by
    have hfront : "box_".toList.all Prism.isWordChar := by decide
    have hdigits : (Nat.toDigits 10 n).all Prism.isWordChar :=
      List.all_eq_true.mpr fun c hc =>
        Prism.isWordChar_of_isDigit (Decimal.isDigit_toDigits n c hc)
    rw [toList_boxName, List.all_append, hfront, hdigits]
    rfl
  ne_nil := by
    rw [toList_boxName]
    exact List.cons_ne_nil _ _
  not_digit := by
    rw [toList_boxName]
    rfl
  ne_true := boxName_ne n (by decide)
  ne_false := boxName_ne n (by decide)

namespace Model

variable {l : Level} {c : Configuration} {commands : List Command} {mode : Mode} {x : Variable}
  {type : VariableType} {e : Expr}

/-- All variables of a model have names that can be read again, and none of them is the word that
ends the module. -/
theorem isName_of_mem_vars (hx : x ∈ (ofParts l c commands).vars) :
    IsName x.name ∧ x.name ≠ "endmodule" := by
  rcases name_of_mem_vars hx with hname | ⟨n, hname⟩ | hname
  · exact hname ▸ ⟨isName_positionName, by decide⟩
  · exact hname ▸ ⟨isName_boxName n, boxName_ne n (by decide)⟩
  · exact hname ▸ ⟨isName_driftName, by decide⟩

/-- All actions of a mode have such names.  They are the names of the four directions, or the one of
drift. -/
theorem isName_of_mem_actionsOf {action : String} (h : action ∈ actionsOf mode) : IsName action := by
  have hdirection : ∀ action ∈ Direction.all.map Direction.name, IsName action := by
    intro action haction
    obtain ⟨dir, -, rfl⟩ := List.mem_map.mp haction
    exact dir.isName
  cases mode with
  | noise noise => exact hdirection action h
  | nondeterministic => exact hdirection action h
  | fixed map =>
      rw [actionsOf] at h
      split at h
      next => cases h
      next => exact List.mem_singleton.mp h ▸ isName_driftName

/-! ## Parts -/

/-- What is built over the variables can be read: it is folded, and its names are those of
variables. -/
theorem clear_of_built (h : Expr.Built (ofParts l c commands).vars type e) : e.Clear := by
  refine ⟨h.folded, fun name hname => ?_⟩
  obtain ⟨x, hx, rfl⟩ := h.names name hname
  exact (isName_of_mem_vars hx).1

/-- The probabilities of a mode can be read.  One case for each form, all of which are folded and
name the success probability at most. -/
theorem clear_probability (h : Probability mode e) : e.Clear := by
  have hnames : ∀ name ∈ e.names, IsName name := by
    intro name hname
    obtain ⟨constant, hconstant, rfl⟩ := names_probability h name hname
    exact mem_constantsOf hconstant ▸ isName_muName
  have hfailure : Expr.Folded Noise.failure := .sub (.int 1) (.var muName)
  refine ⟨?_, hnames⟩
  cases h with
  | share map d => exact .real d
  | success noise => exact .var muName
  | failure noise => exact hfailure
  | even noise n => exact .div hfailure (.int n)
  | part noise d => exact .mul hfailure (.real d)

/-- Initial values are literals, so they can be read. -/
theorem clear_initial (hx : x ∈ (ofParts l c commands).vars) : x.initial.Clear := by
  have hbool : ∀ b : Bool, (Expr.bool b).Clear := fun b => ⟨.bool b, nofun⟩
  have hnat : ∀ n : Nat, (Expr.nat n).Clear := fun n => ⟨.int n, nofun⟩
  cases declared_of_mem_vars hx with
  | position => exact hnat l.player
  | tile cell b => exact hbool b
  | @box index cell _ => exact hnat cell
  | drift => exact hbool false

/-- A command that is built over the variables and suits its mode can be read.  The first gives its
guard and its values, the second its action and its probabilities. -/
theorem clear_command (hbuilds : ∀ command ∈ commands, command.Builds (ofParts l c commands).vars)
    (hsuits : ∀ command ∈ commands, command.Suits c.mode) {command : Command} (h : command ∈ commands) :
    command.Clear := by
  obtain ⟨hguard, hbranches⟩ := hbuilds command h
  obtain ⟨hne, haction, hprobability⟩ := hsuits command h
  refine ⟨fun action ha => isName_of_mem_actionsOf (haction action ha), clear_of_built hguard, hne, ?_⟩
  intro b hb
  refine ⟨fun p hp => clear_probability (hprobability b hb p hp), fun a ha => ?_⟩
  obtain ⟨x, hx, htarget, hvalue⟩ := (hbranches b hb).built a ha
  exact ⟨htarget ▸ (isName_of_mem_vars hx).1, clear_of_built hvalue⟩

/-- **A generated model** is written without loss, because all its parts are.  What was proved of
how it is built gives the names and the folded form of each. -/
theorem clear_ofParts (hmode : c.mode.Accepted)
    (hcommands : commandsOf l (.ofKind c.encoding l) c.mode = .ok commands) :
    (ofParts l c commands).Clear := by
  have hbuilds := builds_of_commandsOf hmode hcommands
  have hsuits := fun command hcommand =>
    suits_of_mem_commandsOf (c := command) hcommands hcommand
  constructor
  case goal => exact clear_of_built (inScope_ofParts l c commands).builds.goal
  case constants => exact fun constant h => mem_constantsOf h ▸ isName_muName
  case vars =>
    intro x hx
    obtain ⟨hname, hend⟩ := isName_of_mem_vars hx
    exact ⟨hname, hend, clear_initial hx⟩
  case commands => exact fun command h => clear_command hbuilds hsuits h

/-- **Written models are read again**: the model of a level whose goals lie on the board, in both
encodings and in every accepted mode.  Its text gives the comment, the constants, the variables with
their types and initial values, the commands with their actions, guards, probabilities and
assignments, the goal and whether steps are rewarded; of expressions, only the literals may have
another form, which makes no difference to any value, chance or state. -/
theorem read_ofLevel (hgoals : ∀ goal ∈ l.goals, goal < l.size) (c : Configuration)
    (hmode : c.mode.Accepted) :
    ∃ m, ofLevel l c = .ok m ∧ Prism.read (Prism.render m).toList = some m.source ∧
      m.source.Means m := by
  obtain ⟨m, hm⟩ := exists_ofLevel hgoals hmode
  obtain ⟨commands, hcommands, rfl⟩ := ofLevel_parts hm
  refine ⟨_, hm, ?_, source_means _⟩
  exact Prism.read_render (clear_ofParts hmode hcommands) rfl l.toList_drawing l.isLine_drawnRows
    l.getLast?_drawnRows_ne l.drawnRows_ne_nil

/-- The model of a corridor in which the box drifts. -/
theorem read_ofLevel_corridor :
    ∃ m, ofLevel .corridor { mode := .fixed .rightOrDrift, encoding := .box } = .ok m ∧
      Prism.read (Prism.render m).toList = some m.source ∧ m.source.Means m :=
  read_ofLevel (by decide) { mode := .fixed .rightOrDrift, encoding := .box }
    ProbabilityMap.accepted_rightOrDrift

end Model

end Sokoban
