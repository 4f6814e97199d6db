import Sokoban.Proofs.Turn

/-! # The turn of the adversary

Where drift is declared, the adversary answers it: one box slides to a free neighbour, or none does.
`Scene.Slides` says which boxes can slide where.  The commands of the adversary are enabled only
while a box may slide; each of them makes one of these slides, or only ends the turn
(`cases_of_enabled`), and every slide is made by one of them (`exists_slideCommand`).  So the
adversary can do all that it may and nothing else.

Each command has one branch, which sets drift back.  What is slid is found through the encoding: in
the tile encoding a cell is asked for its box, in the box encoding each box is asked for its cell,
and there is a command for each of them.
-/

namespace Sokoban

/-- The box on the first cell can slide to the second: a reachable neighbour that holds neither a
box nor the player. -/
structure Scene.Slides (l : Level) (sc : Scene) (source target : Nat) : Prop where
  box : source ∈ sc.boxes
  neighbor : ∃ dir, l.neighbor? source dir = some target
  reachable : l.reachable.contains target
  free : target ∉ sc.boxes
  player : target ≠ sc.player

/-- The scene after a box has slid. -/
def Scene.slide (sc : Scene) (source target : Nat) : Scene :=
  { sc with boxes := insert target (sc.boxes.erase source), drifting := false }

/-- A command with one certain branch ends in a state. -/
def Command.LeadsTo (c : Command) (s after : Valuation) : Prop :=
  ∃ assignments, c.branches = Commands.certain assignments ∧ carryOut s assignments = some after

/-- Two states differ at most in drift and in variables of boxes. -/
def DiffersInDrift (s after : Valuation) : Prop :=
  ∀ name, name ≠ driftName → (∀ n, name ≠ boxName n) → after name = s name

namespace Commands

/-- A way to slide a box to a cell. -/
def slideCommand (e : Encoding) (target : Nat) (way : Expr × List Assignment) : Command :=
  ⟨some driftName,
    .all [.var driftName, way.1, .not (e.occupied target), .ne (.var positionName) (.nat target)],
    certain (way.2 ++ [⟨driftName, .bool false⟩])⟩

/-- No box slides. -/
def restCommand : Command :=
  ⟨some driftName, .var driftName, certain [⟨driftName, .bool false⟩]⟩

variable {l : Level} {e : Encoding} {Shows : Valuation → Finset Nat → Prop} {s : Valuation}
  {sc : Scene} {c : Command} {source target : Nat} {dir : Direction} {way : Expr × List Assignment}

/-- The commands of the adversary: a way to slide for every reachable cell and every cell ahead of
it, and resting. -/
theorem mem_driftCommands :
    c ∈ driftCommands l e ↔
      (∃ source dir target, l.reachable.contains source ∧ l.ahead? source dir = some target ∧
        ∃ way ∈ e.slides source target, c = slideCommand e target way) ∨ c = restCommand := by
  have hslides : ∀ source dir, c ∈ slideCommands l e source dir ↔
      ∃ target, l.ahead? source dir = some target ∧
        ∃ way ∈ e.slides source target, c = slideCommand e target way := by
    intro source dir
    rw [slideCommands, ← Level.ahead?]
    cases l.ahead? source dir with
    | none => simp
    | some target => simp [slideCommand, eq_comm]
  simp only [driftCommands, List.mem_append, List.mem_flatMap, CellSet.mem_toList,
    Direction.mem_all, true_and, hslides, List.mem_singleton]
  constructor
  · intro h
    rcases h with ⟨source, hsource, dir, target, htarget, hway⟩ | hrest
    · exact .inl ⟨source, dir, target, hsource, htarget, hway⟩
    · exact .inr hrest
  · intro h
    rcases h with ⟨source, dir, target, hsource, htarget, hway⟩ | hrest
    · exact .inl ⟨source, hsource, dir, target, htarget, hway⟩
    · exact .inr hrest

/-- Whether a box may slide is what the scene says. -/
theorem eval_drift (h : Depicts Shows true s sc) :
    (Expr.var driftName).eval s = some (.bool sc.drifting) := by
  rw [Expr.eval, h.drift rfl]

/-- A slide is enabled while a box may slide, if it picks its box and the cell ahead is free of
boxes and of the player. -/
theorem eval_slideCommand {picked : Bool} (hf : e.Faithful l Shows) (h : Depicts Shows true s sc)
    (htarget : l.reachable.contains target) (hpick : way.1.eval s = some (.bool picked)) :
    (slideCommand e target way).guard.eval s = some (.bool
      (sc.drifting && picked && decide (target ∉ sc.boxes) && decide (sc.player ≠ target))) := by
  have hfree := Expr.eval_not (hf.occupied_reachable h.boxes htarget)
  have hplayer := Expr.eval_ne_nat h.position target
  let operands : List (Expr × Bool) := [(.var driftName, sc.drifting), (way.1, picked),
    (.not (e.occupied target), !decide (target ∈ sc.boxes)),
    (.ne (.var positionName) (.nat target), !decide (sc.player = target))]
  have hvalues : ∀ x ∈ operands, x.1.eval s = some (.bool x.2) := by
    simp [operands, eval_drift h, hpick, hfree, hplayer]
  refine (Expr.eval_all_map hvalues).trans ?_
  simp [operands, Bool.and_assoc]

/-- Ending the turn changes drift and nothing else. -/
theorem restCommand_leadsTo (s : Valuation) :
    restCommand.LeadsTo s (Function.update s driftName (some (.bool false))) :=
  ⟨_, rfl, carryOut_cons rfl rfl⟩

/-- A slide that picks a box makes it slide, and changes drift and boxes only.  The updates of the
encoding move the box, and drift is set back behind them. -/
theorem slideCommand_leadsTo (hf : e.Faithful l Shows) (h : Depicts Shows true s sc)
    (hsource : l.reachable.contains source) (htarget : l.ahead? source dir = some target)
    (hway : way ∈ e.slides source target) (hpick : way.1.eval s = some (.bool true))
    (hfree : target ∉ sc.boxes) :
    source ∈ sc.boxes ∧ ∃ after, (slideCommand e target way).LeadsTo s after ∧
      Depicts Shows true after (sc.slide source target) ∧ DiffersInDrift s after := by
  have hreach := (Level.ahead?_eq_some_iff.mp htarget).2
  obtain ⟨hbox, moved, hcarry, hshows, hkeep⟩ :=
    hf.slide h.boxes hsource hreach (Level.ahead?_ne htarget).symm hfree way hway hpick
  have hnames : ∀ a ∈ way.2, a.target ≠ driftName := by
    intro a ha
    obtain ⟨n, hn⟩ := hf.slide_targets way hway a ha
    exact hn ▸ boxName_ne_driftName n
  have hposition : moved positionName = s positionName :=
    hkeep _ fun n => (boxName_ne_positionName n).symm
  have hmoved : Depicts Shows false moved ⟨sc.player, insert target (sc.boxes.erase source), false⟩ :=
    ⟨hposition.trans h.position, hshows, nofun⟩
  refine ⟨hbox, _, ⟨_, rfl, carryOut_concat hnames rfl hcarry⟩, ?_, ?_⟩
  · have hupdate := hf.depicts_update hmoved false
    exact ⟨hupdate.position, hupdate.boxes, fun _ => Function.update_self ..⟩
  · intro name hdrift hbox
    rw [Function.update_of_ne hdrift, hkeep name hbox]

/-- **An enabled command of the adversary** finds that a box may slide; it ends the turn, or a box
that can slide does so. -/
theorem cases_of_enabled (hf : e.Faithful l Shows) (h : Depicts Shows true s sc)
    (hc : c ∈ driftCommands l e) (henabled : c.guard.eval s = some (.bool true)) :
    sc.drifting ∧ c.action? = some driftName ∧
      (c = restCommand ∨ ∃ source target after, sc.Slides l source target ∧ c.LeadsTo s after ∧
        Depicts Shows true after (sc.slide source target) ∧ DiffersInDrift s after) := by
  rcases mem_driftCommands.mp hc with ⟨source, dir, target, hsource, htarget, way, hway, rfl⟩ | rfl
  · obtain ⟨hneighbor, hreach⟩ := Level.ahead?_eq_some_iff.mp htarget
    obtain ⟨picked, hpick⟩ := hf.pick h.boxes hsource way hway
    rw [eval_slideCommand hf h hreach hpick] at henabled
    simp only [Option.some.injEq, Value.bool.injEq, Bool.and_eq_true, decide_eq_true_eq] at henabled
    obtain ⟨⟨⟨hdrifting, rfl⟩, hfree⟩, hplayer⟩ := henabled
    obtain ⟨hbox, after, hleads, hdepicts, hkeep⟩ :=
      slideCommand_leadsTo hf h hsource htarget hway hpick hfree
    exact ⟨hdrifting, rfl, .inr ⟨source, target, after,
      ⟨hbox, ⟨dir, hneighbor⟩, hreach, hfree, hplayer.symm⟩, hleads, hdepicts, hkeep⟩⟩
  · have hdrifting : sc.drifting = true := by
      simpa using (eval_drift h).symm.trans henabled
    exact ⟨hdrifting, rfl, .inl rfl⟩

/-- **Every slide** is made by some command of the adversary.  The encoding has a way that picks the
box, and the guard of its command holds. -/
theorem exists_slideCommand (hf : e.Faithful l Shows) (h : Depicts Shows true s sc)
    (hdrifting : sc.drifting) (hslides : sc.Slides l source target) :
    ∃ c ∈ driftCommands l e, c.guard.eval s = some (.bool true) ∧ c.action? = some driftName ∧
      ∃ after, c.LeadsTo s after ∧ Depicts Shows true after (sc.slide source target) ∧
        DiffersInDrift s after := by
  obtain ⟨hbox, ⟨dir, hneighbor⟩, hreach, hfree, hplayer⟩ := hslides
  have hsource := hf.reachable h.boxes source hbox
  have htarget := Level.ahead?_eq_some_iff.mpr ⟨hneighbor, hreach⟩
  obtain ⟨way, hway, hpick⟩ : ∃ way ∈ e.slides source target, way.1.eval s = some (.bool true) :=
    hf.exists_slide h.boxes hbox
  refine ⟨slideCommand e target way,
    mem_driftCommands.mpr (.inl ⟨source, dir, target, hsource, htarget, way, hway, rfl⟩), ?_, rfl,
    (slideCommand_leadsTo hf h hsource htarget hway hpick hfree).2⟩
  rw [eval_slideCommand hf h hreach hpick]
  simp [hdrifting, hfree, hplayer.symm]

end Commands

end Sokoban
