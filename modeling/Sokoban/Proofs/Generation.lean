import Sokoban.Proofs.Model

/-! # What a generated model is made of

A level whose goals lie on the board has a model in every accepted mode (`Model.exists_ofLevel`).
Whatever the mode, a model is its parts put together (`Model.ofLevel_parts`); only the commands can
fail, for the arithmetic in them.
-/

namespace Sokoban.Model

variable {l : Level} {c : Configuration} {m : Model}

/-- The parts of the model of a level, with the commands that are given. -/
def ofParts (l : Level) (c : Configuration) (commands : List Command) : Model where
  comment? := some (drawing l)
  constants := constantsOf c.mode
  actions := actionsOf c.mode
  vars := positionOf l :: (Encoding.ofKind c.encoding l).vars ++ flagsOf c.mode
  commands := commands
  goal := (Encoding.ofKind c.encoding l).goal
  objective := c.objective
  rewards := c.rewards

/-- **A model** is its parts put together.  With goals off the board there is none, and then the
premise fails; so the parts need not mention goals. -/
theorem ofLevel_parts (h : ofLevel l c = .ok m) :
    ∃ commands, commandsOf l (.ofKind c.encoding l) c.mode = .ok commands ∧
      m = ofParts l c commands := by
  unfold ofLevel at h
  split at h
  next => cases h
  next =>
    obtain ⟨commands, hcommands, hm⟩ := bind_eq_ok_iff.mp (mapError_eq_ok_iff.mp h)
    exact ⟨commands, hcommands, (pure_eq_ok_iff.mp hm).symm⟩

/-- **There is a model** of every level whose goals lie on the board, in every accepted mode.  The
sums and quotients of its weights overflow nowhere, since accepted weights are at most one. -/
theorem exists_ofLevel (hgoals : ∀ goal ∈ l.goals, goal < l.size) (hmode : c.mode.Accepted) :
    ∃ m, ofLevel l c = .ok m := by
  obtain ⟨turns, -, hmade⟩ := exists_isMade l c hmode
  obtain ⟨m, hm, -⟩ := hmade (.ofKind c.encoding l)
  exact ⟨m, ofLevel_eq hgoals hm⟩

end Sokoban.Model
