import Sokoban.Generation
import Sokoban.Jani
import Sokoban.Prism

/-! # Written models

The text of the model of a level, in the configured format.

A model is made first and written afterwards.  Making it can fail, for a goal off the board or for
arithmetic; writing it cannot, whatever the format.
-/

namespace Sokoban

/-- The text of a model. -/
def Model.render (m : Model) : Format → String
  | .jani => Jani.render m
  | .prism => Prism.render m

/-- A model and its text. -/
structure Generated where
  model : Model
  text : String

/-- The model of a level and its text. -/
def generate (l : Level) (c : Configuration) : Except ModelError Generated :=
  (Model.ofLevel l c).map fun model => ⟨model, model.render c.format⟩

end Sokoban
