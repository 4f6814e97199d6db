import Sokoban.Proofs.Commands.Built
import Sokoban.Proofs.Generation

/-! # Models are well formed

What a model is made of fits together.  All names are declared and different, assignments go to
variables and keep to their types whatever the state is, and actions are those of the model
(`Model.WellFormed`).  The model of a level has this form in both encodings and in every accepted
mode (`Model.ofLevel_wellFormed`).

That a value keeps to its type has nothing to do with guards: it holds in every state whose values
are of the types of the variables, reachable or not.  Formats check ranges in this way too, as they
do not know which states can be reached.

Most of this is read off what expressions are built of (`Expr.Built`), with the commands in scope of
the variables (`builds_of_commandsOf`); what is left are the names and the initial values.
-/

namespace Sokoban.Model

/-- Whether a name is that of a variable or a constant. -/
def Declares (m : Model) (name : String) : Prop :=
  (∃ x ∈ m.vars, x.name = name) ∨ ∃ c ∈ m.constants, c.name = name

/-- A model whose parts fit together. -/
structure WellFormed (m : Model) : Prop where
  nodup : (m.vars.map Variable.name ++ m.constants.map Constant.name).Nodup
  guards : ∀ c ∈ m.commands, ∀ name ∈ c.guard.names, m.Declares name
  probabilities : ∀ c ∈ m.commands, ∀ b ∈ c.branches, ∀ p ∈ b.probability?,
    ∀ name ∈ p.names, m.Declares name
  values : ∀ c ∈ m.commands, ∀ b ∈ c.branches, ∀ a ∈ b.assignments,
    ∀ name ∈ a.value.names, m.Declares name
  goal : ∀ name ∈ m.goal.names, m.Declares name
  targets : ∀ c ∈ m.commands, ∀ b ∈ c.branches, ∀ a ∈ b.assignments,
    ∃ x ∈ m.vars, x.name = a.target
  targets_nodup : ∀ c ∈ m.commands, ∀ b ∈ c.branches, (b.assignments.map Assignment.target).Nodup
  actions : ∀ c ∈ m.commands, ∀ action ∈ c.action?, action ∈ m.actions
  /-- Bounds enclose the initial value. -/
  bounds : ∀ x ∈ m.vars, ∀ lower upper, x.type = .bounded lower upper →
    ∃ n : Nat, x.initial = .nat n ∧ lower ≤ n ∧ n ≤ upper
  /-- Values keep to the types, from every state that does, even where the guard does not hold. -/
  respects : ∀ s, InTypes m.vars s → ∀ c ∈ m.commands, ∀ b ∈ c.branches, ∀ a ∈ b.assignments,
    ∀ x ∈ m.vars, x.name = a.target → ∃ v, a.value.eval s = some v ∧ x.type.Admits v

variable {l : Level} {c : Configuration} {m : Model} {mode : Mode} {commands : List Command}

/-! ## Declarations -/

/-- The variables of a model comprise what its commands are built over.  The variable of a flag is
declared where the mode drifts. -/
theorem inScope_ofParts (l : Level) (c : Configuration) (commands : List Command) :
    InScope l (.ofKind c.encoding l) c.mode.drifts (ofParts l c commands).vars where
  builds := by
    apply Encoding.builds_ofKind
    intro x hx
    simp [ofParts, hx]
  position := by simp [ofParts]
  drift := by
    intro hdrifts
    simp [ofParts, mem_flagsOf_iff, hdrifts]

/-- A model of such parts is made of its turns. -/
theorem isMade_ofParts (l : Level) (c : Configuration) {turns : List Turn} :
    (ofParts l c (turns.map (Turn.command (.ofKind c.encoding l)) ++
      if c.mode.drifts then Commands.driftCommands l (.ofKind c.encoding l) else [])).IsMade l
        (.ofKind c.encoding l) c.mode turns :=
  ⟨rfl, rfl, rfl⟩

/-- The variables of a model do not depend on its commands. -/
theorem nodup_vars_ofParts (l : Level) (c : Configuration) (commands : List Command) :
    ((ofParts l c commands).vars.map Variable.name).Nodup :=
  (@isMade_ofParts l c []).nodup (Encoding.faithful_ofKind c.encoding l)

/-- The only constant is the success probability. -/
theorem mem_constantsOf {constant : Constant} (h : constant ∈ constantsOf mode) :
    constant.name = muName := by
  cases mode with
  | fixed map => cases h
  | noise noise => exact congrArg Constant.name (List.mem_singleton.mp h)
  | nondeterministic => cases h

/-- No box has the name of that constant. -/
theorem boxName_ne_muName (n : Nat) : boxName n ≠ muName := by
  intro h
  simpa [boxName, muName, toString] using congrArg (·.toList.head?) h

/-- The variables that the models of a level have: the player's cell, a truth value for each cell or
a cell for each box, and drift.  Cells that are initial values can be reached. -/
inductive Declared (l : Level) : Variable → Prop
  | position : Declared l (positionOf l)
  | tile (cell : Nat) (b : Bool) : Declared l (.bool (boxName cell) b)
  | box (index : Nat) {cell : Nat} (h : l.reachable.contains cell) :
      Declared l (.bounded (boxName index) l.firstCell l.lastCell cell)
  | drift : Declared l (.bool driftName false)

/-- **The variables of a model** are such.  What is to be said of every variable, its name, its
initial value or its bounds, is said of the four kinds. -/
theorem declared_of_mem_vars {x : Variable} (h : x ∈ (ofParts l c commands).vars) :
    Declared l x := by
  simp only [ofParts, List.cons_append, List.mem_cons, List.mem_append] at h
  rcases h with rfl | hbox | hflag
  · exact .position
  · cases hkind : c.encoding with
    | tile =>
        rw [hkind] at hbox
        obtain ⟨cell, -, rfl⟩ := List.mem_map.mp hbox
        exact .tile cell _
    | box =>
        rw [hkind] at hbox
        obtain ⟨⟨cell, index⟩, hcell, rfl⟩ := List.mem_map.mp hbox
        exact .box index (Encoding.mem_movable.mp (List.fst_mem_of_mem_zipIdx hcell)).2
  · obtain ⟨-, rfl⟩ := mem_flagsOf_iff.mp hflag
    exact .drift

/-- Every variable is the player's cell, a box or drift.  Names can be compared by these three
kinds. -/
theorem name_of_mem_vars {x : Variable} (h : x ∈ (ofParts l c commands).vars) :
    x.name = positionName ∨ (∃ n, x.name = boxName n) ∨ x.name = driftName := by
  cases declared_of_mem_vars h with
  | position => exact .inl rfl
  | tile cell => exact .inr (.inl ⟨cell, rfl⟩)
  | box index => exact .inr (.inl ⟨index, rfl⟩)
  | drift => exact .inr (.inr rfl)

/-- All names of a model are different, those of variables and of constants together.  The name of
the one constant is neither fixed for a variable nor that of a box. -/
theorem nodup_ofParts (l : Level) (c : Configuration) (commands : List Command) :
    ((ofParts l c commands).vars.map Variable.name ++
      (ofParts l c commands).constants.map Constant.name).Nodup := by
  have hconstants : ((constantsOf c.mode).map Constant.name).Nodup := by
    cases c.mode <;> simp [constantsOf]
  refine List.nodup_append.mpr ⟨nodup_vars_ofParts l c commands, hconstants, ?_⟩
  intro name hname constant hconstant heq
  obtain ⟨x, hx, rfl⟩ := List.mem_map.mp hname
  obtain ⟨k, hk, rfl⟩ := List.mem_map.mp hconstant
  rw [mem_constantsOf hk] at heq
  rcases name_of_mem_vars hx with hposition | ⟨n, hbox⟩ | hdrift
  · exact absurd (hposition.symm.trans heq) (by decide)
  · exact boxName_ne_muName n (hbox.symm.trans heq)
  · exact absurd (hdrift.symm.trans heq) (by decide)

/-- Initial positions lie between the first and the last cell within reach.  The player stands on a
reachable cell, and so do the boxes that can be moved. -/
theorem bounds_ofParts {x : Variable} (hx : x ∈ (ofParts l c commands).vars) {lower upper : Nat}
    (htype : x.type = .bounded lower upper) :
    ∃ n : Nat, x.initial = .nat n ∧ lower ≤ n ∧ n ≤ upper := by
  have hreach : ∀ cell, l.reachable.contains cell →
      VariableType.bounded l.firstCell l.lastCell = .bounded lower upper → lower ≤ cell ∧ cell ≤ upper := by
    intro cell hcell heq
    obtain ⟨rfl, rfl⟩ := VariableType.bounded.inj heq
    exact ⟨Level.firstCell_le hcell, Level.le_lastCell hcell⟩
  -- Only the player's position, and the boxes where they have positions, are bounded.
  cases declared_of_mem_vars hx with
  | position => exact ⟨l.player, rfl, hreach l.player Level.player_reachable htype⟩
  | tile => cases htype
  | @box index cell hcell => exact ⟨cell, rfl, hreach cell hcell htype⟩
  | drift => cases htype

/-! ## Commands -/

/-- Names in probabilities are those of constants of the mode: shares have none, and all others
mention the success probability only. -/
theorem names_probability {p : Expr} (h : Probability mode p) :
    ∀ name ∈ p.names, ∃ constant ∈ constantsOf mode, constant.name = name := by
  cases h with
  | share map d => exact nofun
  | success noise | failure noise | even noise n | part noise d =>
      intro name hname
      obtain rfl : name = muName := by
        simpa [Expr.names, Noise.failure, Expr.nat] using hname
      exact ⟨⟨muName, noise.mu?⟩, List.mem_singleton_self _, rfl⟩

/-- **The commands** are built over the variables.  The player's are sound turns, and the
adversary's are there only if drift is declared. -/
theorem builds_of_commandsOf (hmode : c.mode.Accepted)
    (hcommands : commandsOf l (.ofKind c.encoding l) c.mode = .ok commands) :
    ∀ command ∈ commands, command.Builds (ofParts l c commands).vars := by
  have hscope := inScope_ofParts l c commands
  obtain ⟨turns, hsound, hturns⟩ := Mode.exists_turns l hmode
  obtain rfl := Except.ok.inj (hcommands.symm.trans (hturns _))
  intro command hcommand
  rcases List.mem_append.mp hcommand with hturn | hdrift
  · obtain ⟨t, ht, rfl⟩ := List.mem_map.mp hturn
    exact hscope.turn (hsound t ht)
  · split at hdrift
    next hdrifts =>
      exact hscope.driftCommand (Encoding.faithful_ofKind c.encoding l).slide_targets hdrifts hdrift
    next => cases hdrift

/-- Different variables have different names. -/
theorem eq_of_name_eq {vars : List Variable} (hnodup : (vars.map Variable.name).Nodup)
    {x y : Variable} (hx : x ∈ vars) (hy : y ∈ vars) (h : x.name = y.name) : x = y :=
  List.inj_on_of_nodup_map hnodup hx hy h

/-- **Models are well formed**: the model of a level whose goals lie on the board, in both encodings
and in every accepted mode.  Guards, values and the goal are built over the declared variables, and
each clause is read off from how they are built. -/
theorem ofLevel_wellFormed (hgoals : ∀ goal ∈ l.goals, goal < l.size) (c : Configuration)
    (hmode : c.mode.Accepted) : ∃ m, ofLevel l c = .ok m ∧ m.WellFormed := by
  obtain ⟨m, hm⟩ := exists_ofLevel hgoals hmode
  obtain ⟨commands, hcommands, rfl⟩ := ofLevel_parts hm
  have hbuilds := builds_of_commandsOf hmode hcommands
  have hsuits := fun command hcommand =>
    suits_of_mem_commandsOf (c := command) hcommands hcommand
  refine ⟨_, hm, {
    nodup := nodup_ofParts l c commands
    guards := ?_
    probabilities := ?_
    values := ?_
    goal := ?_
    targets := ?_
    targets_nodup := ?_
    actions := fun command hcommand => (hsuits command hcommand).action
    bounds := fun x hx lower upper htype => bounds_ofParts hx htype
    respects := ?_ }⟩
  · intro command hcommand name hname
    exact .inl ((hbuilds command hcommand).guard.names name hname)
  · intro command hcommand b hb p hp name hname
    exact .inr (names_probability ((hsuits command hcommand).probability b hb p hp) name hname)
  · intro command hcommand b hb a ha name hname
    obtain ⟨x, -, -, hvalue⟩ := ((hbuilds command hcommand).branches b hb).built a ha
    exact .inl (hvalue.names name hname)
  · intro name hname
    exact .inl ((inScope_ofParts l c commands).builds.goal.names name hname)
  · intro command hcommand b hb a ha
    obtain ⟨x, hx, htarget, -⟩ := ((hbuilds command hcommand).branches b hb).built a ha
    exact ⟨x, hx, htarget.symm⟩
  · intro command hcommand b hb
    exact ((hbuilds command hcommand).branches b hb).nodup
  · intro s hs command hcommand b hb a ha x hx hname
    obtain ⟨y, hy, htarget, hvalue⟩ := ((hbuilds command hcommand).branches b hb).built a ha
    obtain rfl := eq_of_name_eq (nodup_vars_ofParts l c commands) hx hy (hname.trans htarget)
    exact hvalue.exists_eval hs

/-- The model of a corridor in which the box drifts. -/
theorem ofLevel_wellFormed_corridor :
    ∃ m, ofLevel .corridor { mode := .fixed .rightOrDrift, encoding := .box } = .ok m ∧
      m.WellFormed :=
  ofLevel_wellFormed (by decide) { mode := .fixed .rightOrDrift, encoding := .box }
    ProbabilityMap.accepted_rightOrDrift

end Sokoban.Model
