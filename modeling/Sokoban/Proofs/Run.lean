import Mathlib.Logic.Function.Basic
import Sokoban.Encoding
import Sokoban.Proofs.Valuation

/-! # Runs of a model

A state of a model is a valuation of its variables.  A command is enabled where its guard holds;
taking it ends in one of its branches, whose assignments read the state before and are carried out
at once.  `Model.Reachable` collects the states of all runs, whatever commands and branches they
take, and `Model.Reachable.invariant` is the induction over them.

The probabilities of branches are expressions, which may name constants.  `Command.HasChances` says
that all of them are numbers, and which.  Nothing is said there about the numbers themselves, so
that a model whose chances are wrong has chances too.

`carryOut` fails if a value to be assigned does not exist, so that a branch with a result is one all
of whose values make sense.  An invariant therefore has to show, for each branch of an enabled
command, that it has a result at all: otherwise a run could get stuck in it.
-/

namespace Sokoban

/-! ## Assignments -/

/-- The state after assignments that are carried out at once, if all their values exist. -/
def carryOut (s : Valuation) : List Assignment → Option Valuation
  | [] => some s
  | a :: rest =>
    match a.value.eval s, carryOut s rest with
    | some v, some after => some (Function.update after a.target (some v))
    | _, _ => none

variable {s after : Valuation} {as : List Assignment} {name : String} {e : Expr} {v : Value}

/-- One more assignment updates one more variable. -/
theorem carryOut_cons (he : e.eval s = some v) (has : carryOut s as = some after) :
    carryOut s (⟨name, e⟩ :: as) = some (Function.update after name (some v)) := by
  simp [carryOut, he, has]

/-- The order of assignments to different variables does not matter: one at the end does the same as
one in front. -/
theorem carryOut_concat (hname : ∀ a ∈ as, a.target ≠ name) (he : e.eval s = some v)
    (has : carryOut s as = some after) :
    carryOut s (as ++ [⟨name, e⟩]) = some (Function.update after name (some v)) := by
  induction as generalizing after with
  | nil =>
      obtain rfl : s = after := Option.some.inj has
      exact carryOut_cons he rfl
  | cons a as ih =>
      rw [carryOut] at has
      split at has
      next w rest hw hrest =>
        obtain rfl := Option.some.inj has
        have htail := ih (fun b hb => hname b (List.mem_cons_of_mem a hb)) hrest
        rw [List.cons_append, carryOut_cons hw htail,
          Function.update_comm (hname a List.mem_cons_self)]
      next => simp at has

/-- Assignments to different variables that all have values can be carried out; the variables that
are assigned get these values, and the others keep theirs. -/
theorem exists_carryOut (hnodup : (as.map Assignment.target).Nodup)
    (hvalues : ∀ a ∈ as, ∃ v, a.value.eval s = some v) :
    ∃ after, carryOut s as = some after ∧ (∀ a ∈ as, after a.target = a.value.eval s) ∧
      ∀ x, x ∉ as.map Assignment.target → after x = s x := by
  induction as with
  | nil => exact ⟨s, rfl, by simp, fun _ _ => rfl⟩
  | cons a as ih =>
      rw [List.map_cons, List.nodup_cons] at hnodup
      obtain ⟨rest, hrest, hset, hkeep⟩ :=
        ih hnodup.2 fun b hb => hvalues b (List.mem_cons_of_mem a hb)
      obtain ⟨v, hv⟩ := hvalues a List.mem_cons_self
      refine ⟨_, carryOut_cons hv hrest, fun b hb => ?_, fun x hx => ?_⟩
      · rcases List.mem_cons.mp hb with rfl | hb
        · rw [Function.update_self, hv]
        · have hne : b.target ≠ a.target := fun heq =>
            hnodup.1 (heq ▸ List.mem_map_of_mem hb)
          rw [Function.update_of_ne hne, hset b hb]
      · rw [List.map_cons, List.mem_cons, not_or] at hx
        rw [Function.update_of_ne hx.1, hkeep x hx.2]

/-- Conditional assignments do all or nothing, as their condition says.  The variables must have
values before, because keeping one is assigning it. -/
theorem carryOut_conditional {b : Bool} (hcondition : e.eval s = some (.bool b))
    (htargets : ∀ a ∈ as, ∃ v, s a.target = some v) :
    carryOut s (conditional e as) = if b then carryOut s as else some s := by
  induction as with
  | nil => cases b <;> rfl
  | cons a as ih =>
      have hrest := ih fun c hc => htargets c (List.mem_cons_of_mem a hc)
      obtain ⟨v, hv⟩ := htargets a List.mem_cons_self
      have hvalue : (Expr.ite e a.value (.var a.target)).eval s =
          if b then a.value.eval s else s a.target := Expr.eval_ite hcondition
      rw [conditional] at hrest
      rw [conditional, List.map_cons, carryOut, hrest, hvalue]
      cases b with
      | true => rfl
      | false =>
          have hsame : Function.update s a.target (some v) = s := by
            rw [← hv, Function.update_eq_self]
          simp [hv, hsame]

/-! ## Commands -/

/-- The state in which a branch ends. -/
def Branch.next? (b : Branch) (s : Valuation) : Option Valuation :=
  carryOut s b.assignments

/-- Whether a command may be taken. -/
def Command.isEnabled (c : Command) (s : Valuation) : Bool :=
  c.guard.eval s == some (.bool true)

/-! ## Chances -/

/-- The chance that a probability stands for, if it is a number.  What has no probability is
certain. -/
def chance? (s : Valuation) : Option Expr → Option ℚ
  | none => some 1
  | some p =>
    match p.eval s with
    | some (.num x) => some x
    | _ => none

/-- The chances that probabilities stand for, all of which are numbers. -/
def HaveChances (s : Valuation) (ps : List (Option Expr)) (chances : List ℚ) : Prop :=
  ps.map (chance? s) = chances.map some

/-- The chances of the branches of a command. -/
def Command.HasChances (c : Command) (s : Valuation) (chances : List ℚ) : Prop :=
  HaveChances s (c.branches.map (·.probability?)) chances

/-- What has no probability is certain. -/
theorem haveChances_certain (s : Valuation) : HaveChances s [none] [1] :=
  rfl

/-- One probability more that is a number. -/
theorem HaveChances.cons {p : Option Expr} {x : ℚ} {ps : List (Option Expr)} {xs : List ℚ}
    (hp : chance? s p = some x) (hps : HaveChances s ps xs) :
    HaveChances s (p :: ps) (x :: xs) := by
  rw [HaveChances, List.map_cons, List.map_cons, hp, hps]

/-- Probabilities of a list that are numbers one by one are numbers together. -/
theorem haveChances_map {α : Type} {xs : List α} {f : α → Option Expr} {g : α → ℚ}
    (h : ∀ x ∈ xs, chance? s (f x) = some (g x)) : HaveChances s (xs.map f) (xs.map g) := by
  rw [HaveChances, List.map_map, List.map_map]
  exact List.map_congr_left h

/-- Probabilities stand for one list of chances only. -/
theorem HaveChances.unique {ps : List (Option Expr)} {xs ys : List ℚ} (hxs : HaveChances s ps xs)
    (hys : HaveChances s ps ys) : xs = ys :=
  List.map_injective_iff.mpr (Option.some_injective ℚ) (hxs.symm.trans hys)

namespace Model

variable {m : Model}

/-- The commands that may be taken, in the order of the model. -/
def enabled (m : Model) (s : Valuation) : List Command :=
  m.commands.filter (·.isEnabled s)

/-- The state in which all variables have their initial values. -/
def initial (m : Model) : Valuation := fun name =>
  (m.vars.find? (·.name == name)).bind fun x => x.initial.eval fun _ => none

/-- The states of all runs. -/
inductive Reachable (m : Model) : Valuation → Prop
  | initial : Reachable m m.initial
  | step {s after : Valuation} {c : Command} {b : Branch} (run : Reachable m s)
      (hcommand : c ∈ m.enabled s) (hbranch : b ∈ c.branches) (hnext : b.next? s = some after) :
      Reachable m after

/-- **Induction over runs.** What holds initially, and after every branch of every enabled command
if it held before, holds in all reachable states.  The hypothesis also asks that every such branch
leads somewhere. -/
theorem Reachable.invariant (Inv : Valuation → Prop) (hinitial : Inv m.initial)
    (hstep : ∀ s, Inv s → ∀ c ∈ m.enabled s, ∀ b ∈ c.branches,
      ∃ after, b.next? s = some after ∧ Inv after)
    (h : m.Reachable s) : Inv s := by
  induction h with
  | initial => exact hinitial
  | step _ hcommand hbranch hnext ih =>
      obtain ⟨after, hafter, hinv⟩ := hstep _ ih _ hcommand _ hbranch
      obtain rfl : after = _ := Option.some.inj (hafter.symm.trans hnext)
      exact hinv

end Model

end Sokoban
