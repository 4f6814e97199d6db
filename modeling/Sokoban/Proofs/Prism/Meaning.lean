import Sokoban.Proofs.Prism.Source
import Sokoban.Proofs.Run

/-! # What is read means what was written

A text does not give a model back letter by letter: a decimal that was computed with all its places
is written in its shortest form, and that is what is read.  The forms of literals make no difference
to values (`Expr.eval_plain`), so what is read off a model stands for the same process.  It declares
the same variables with the same initial values, its commands are enabled in the same states, and
their branches have the same chances and lead to the same states (`Model.source_means`).
-/

namespace Sokoban

namespace Prism.Grammar.Source

variable {source : Source} {m : Model}

/-- A source stands for a model: part by part, what was read has the value that it has in the model,
under every valuation. -/
structure Means (source : Source) (m : Model) : Prop where
  comment : source.comment = m.comment?.getD ""
  constants : List.Forall₂ (fun read k => read.1 = k.name ∧
    ∀ s, read.2.map (·.eval s) = k.value?.map fun d => some (.num d.value))
    source.constants m.constants
  vars : List.Forall₂ (fun read x => read.name = x.name ∧ read.type = x.type ∧
    ∀ s, read.initial.eval s = x.initial.eval s) source.vars m.vars
  commands : List.Forall₂ (fun read c => read.action? = c.action? ∧
    (∀ s, read.isEnabled s = c.isEnabled s) ∧
    List.Forall₂ (fun a b => ∀ s, chance? s a.probability? = chance? s b.probability? ∧
      a.next? s = b.next? s) read.branches c.branches) source.commands m.commands
  goal : ∀ s, source.label.2.eval s = m.goal.eval s
  rewards : source.rewards = m.rewards

end Prism.Grammar.Source

/-- Assignments of values in plain form do the same to every state. -/
theorem carryOut_plain (s : Valuation) (as : List Assignment) :
    carryOut s (as.map Assignment.plain) = carryOut s as := by
  induction as with
  | nil => rfl
  | cons a as ih => simp only [List.map_cons, carryOut, Assignment.plain, Expr.eval_plain, ih]

/-- A probability in plain form stands for the same chance, and so does none at all. -/
theorem chance?_plain (s : Valuation) (p? : Option Expr) :
    chance? s (p?.map Expr.plain) = chance? s p? := by
  cases p? with
  | none => rfl
  | some p => simp only [Option.map_some, chance?, Expr.eval_plain]

/-- **What is read off a model means the model.** Part by part the expressions are those of the
model in plain form, and the plain form keeps values. -/
theorem Model.source_means (m : Model) : m.source.Means m where
  comment := rfl
  constants := by
    refine List.forall₂_map_left_iff.mpr (List.forall₂_same.mpr fun k _ => ⟨rfl, fun s => ?_⟩)
    cases hvalue : k.value? with
    | none => simp [Constant.plain, hvalue]
    | some d => simp [Constant.plain, hvalue, Expr.eval_written]
  vars := by
    refine List.forall₂_map_left_iff.mpr (List.forall₂_same.mpr fun x _ => ⟨rfl, rfl, fun s => ?_⟩)
    exact x.initial.eval_plain s
  commands := by
    refine List.forall₂_map_left_iff.mpr (List.forall₂_same.mpr fun c _ => ⟨rfl, fun s => ?_, ?_⟩)
    · rw [Command.isEnabled, Command.isEnabled, Command.plain, Expr.eval_plain]
    · refine List.forall₂_map_left_iff.mpr (List.forall₂_same.mpr fun b _ => fun s => ?_)
      exact ⟨chance?_plain s b.probability?, carryOut_plain s b.assignments⟩
  goal := fun s => m.goal.eval_plain s
  rewards := rfl

end Sokoban
