import Sokoban.Proofs.Evaluation
import Sokoban.Proofs.Folding

/-! # Expressions that are folded throughout

A tree of plain constructors can be built again from its leaves up, with the folding constructors
in their place (`Expr.refold`).  What comes out has the value of the tree wherever the tree has one,
and nothing in it is left to be folded; and where operands are of the kinds that operators take, they
still are (`refold_spec`).

A folding constructor looks at its operands only one level deep.  That is enough, since what it is
given is folded: an operand that comes to light where a negation is taken away or a conjunction
collapses has been folded before.
-/

namespace Sokoban.Expr

mutual

/-- The expression built again from its leaves up with the folding constructors.  Only connectives,
negations and choices are folded; what is compared or computed stays. -/
def refold : Expr → Expr
  | bool value => bool value
  | int value => int value
  | real value => real value
  | var name => var name
  | conj operands => all (refoldAll operands)
  | disj operands => any (refoldAll operands)
  | neg operand => not (refold operand)
  | eq left right => eq (refold left) (refold right)
  | ne left right => ne (refold left) (refold right)
  | cond condition yes no => ite (refold condition) (refold yes) (refold no)
  | sub left right => sub (refold left) (refold right)
  | mul left right => mul (refold left) (refold right)
  | div left right => div (refold left) (refold right)

/-- Several expressions built again. -/
def refoldAll : List Expr → List Expr
  | [] => []
  | e :: rest => refold e :: refoldAll rest

end

variable {s : Valuation} {v : Value}

/-- Operands are built again one by one. -/
theorem refoldAll_eq_map (es : List Expr) : refoldAll es = es.map refold := by
  induction es with
  | nil => rfl
  | cons e es ih => rw [refoldAll, ih, List.map_cons]

/-! ## Values -/

/-- **Folding throughout** keeps the value.  By induction on the tree: the operands keep theirs, and
the folding constructor keeps the value of the plain one. -/
theorem keeps_refold (s : Valuation) (e : Expr) : Keeps s e (refold e) := by
  induction e using inductionOn with
  | bool | int | real | var => exact .refl _
  | conj es ih =>
      intro v hv
      obtain ⟨held, hes, rfl⟩ := eval_conj_iff.mp hv
      rw [refold, refoldAll_eq_map, List.map_eq_flatMap]
      refine eval_all (eval_conj_iff.mpr ⟨held, evalConj_flatMap (fun e he b hb => ?_) hes, rfl⟩)
      exact evalConj_singleton_iff.mpr (ih e he _ hb)
  | disj es ih =>
      intro v hv
      obtain ⟨held, hes, rfl⟩ := eval_disj_iff.mp hv
      rw [refold, refoldAll_eq_map, List.map_eq_flatMap]
      refine eval_any (eval_disj_iff.mpr ⟨held, evalDisj_flatMap (fun e he b hb => ?_) hes, rfl⟩)
      exact evalDisj_singleton_iff.mpr (ih e he _ hb)
  | neg e ih =>
      intro v hv
      obtain ⟨held, he, rfl⟩ := eval_neg_iff.mp hv
      exact eval_not (ih _ he)
  | cond c yes no ihc ihyes ihno =>
      intro v hv
      obtain ⟨held, hc, hbranch⟩ := eval_cond_iff.mp hv
      rw [refold, eval_ite (ihc _ hc)]
      cases held with
      | true => exact ihyes _ hbranch
      | false => exact ihno _ hbranch
  | eq a b iha ihb => exact iha.eq ihb
  | ne a b iha ihb => exact iha.ne ihb
  | sub a b iha ihb => exact iha.sub ihb
  | mul a b iha ihb => exact iha.mul ihb
  | div a b iha ihb => exact iha.div ihb

/-! ## Normal form -/

/-- **Nothing is left to be folded** in what is folded throughout.  By induction on the tree, since
each folding constructor is given folded operands. -/
theorem folded_refold (e : Expr) : Folded (refold e) := by
  induction e using inductionOn with
  | bool value => exact .bool value
  | int value => exact .int value
  | real value => exact .real value
  | var name => exact .var name
  | conj es ih =>
      rw [refold, refoldAll_eq_map]
      exact .all (List.forall_mem_map.mpr ih)
  | disj es ih =>
      rw [refold, refoldAll_eq_map]
      exact .any (List.forall_mem_map.mpr ih)
  | neg e ih => exact ih.not
  | eq a b iha ihb => exact .eq iha ihb
  | ne a b iha ihb => exact .ne iha ihb
  | cond c yes no ihc ihyes ihno => exact ihc.ite ihyes ihno
  | sub a b iha ihb => exact .sub iha ihb
  | mul a b iha ihb => exact .mul iha ihb
  | div a b iha ihb => exact .div iha ihb

/-! ## Kinds -/

/-- What an expression stands for. -/
inductive Kind where
  | truth
  | number

/-- An expression whose operators find operands of the kinds that they take.  A name is of either
kind. -/
inductive Kinded : Kind → Expr → Prop
  | bool (value : Bool) : Kinded .truth (bool value)
  | int (value : Int) : Kinded .number (int value)
  | real (value : Decimal) : Kinded .number (real value)
  | var (kind : Kind) (name : String) : Kinded kind (var name)
  | conj {es : List Expr} (h : ∀ e ∈ es, Kinded .truth e) : Kinded .truth (conj es)
  | disj {es : List Expr} (h : ∀ e ∈ es, Kinded .truth e) : Kinded .truth (disj es)
  | neg {e : Expr} (h : Kinded .truth e) : Kinded .truth (neg e)
  | eq {kind : Kind} {a b : Expr} (ha : Kinded kind a) (hb : Kinded kind b) :
      Kinded .truth (eq a b)
  | ne {kind : Kind} {a b : Expr} (ha : Kinded kind a) (hb : Kinded kind b) :
      Kinded .truth (ne a b)
  | cond {kind : Kind} {c yes no : Expr} (hc : Kinded .truth c) (hyes : Kinded kind yes)
      (hno : Kinded kind no) : Kinded kind (cond c yes no)
  | sub {a b : Expr} (ha : Kinded .number a) (hb : Kinded .number b) : Kinded .number (sub a b)
  | mul {a b : Expr} (ha : Kinded .number a) (hb : Kinded .number b) : Kinded .number (mul a b)
  | div {a b : Expr} (ha : Kinded .number a) (hb : Kinded .number b) : Kinded .number (div a b)

variable {kind : Kind} {e c yes no : Expr} {es operands : List Expr}

/-- Flattening a conjunction of truth values gives truth values, since the operands of a conjunction
are truth values too. -/
theorem kinded_of_mem_conjuncts (hes : ∀ e ∈ es, Kinded .truth e)
    (h : conjuncts es = some operands) (he : e ∈ operands) : Kinded .truth e := by
  rcases comesFrom_of_mem_conjuncts h he with ⟨hmem, -⟩ | ⟨inner, hinner, hmem⟩
  · exact hes e hmem
  · cases hes _ hinner with
    | conj hoperands => exact hoperands e hmem

theorem kinded_of_mem_disjuncts (hes : ∀ e ∈ es, Kinded .truth e)
    (h : disjuncts es = some operands) (he : e ∈ operands) : Kinded .truth e := by
  rcases comesFrom_of_mem_disjuncts h he with ⟨hmem, -⟩ | ⟨inner, hinner, hmem⟩
  · exact hes e hmem
  · cases hes _ hinner with
    | disj hoperands => exact hoperands e hmem

/-- A folded conjunction of truth values is a truth value. -/
theorem Kinded.all (h : ∀ e ∈ es, Kinded .truth e) : Kinded .truth (all es) := by
  unfold Expr.all
  split
  next => exact .bool false
  next => exact .bool true
  next e hes => exact kinded_of_mem_conjuncts h hes List.mem_cons_self
  next operands _ _ hes => exact .conj fun e he => kinded_of_mem_conjuncts h hes he

theorem Kinded.any (h : ∀ e ∈ es, Kinded .truth e) : Kinded .truth (any es) := by
  unfold Expr.any
  split
  next => exact .bool true
  next => exact .bool false
  next e hes => exact kinded_of_mem_disjuncts h hes List.mem_cons_self
  next operands _ _ hes => exact .disj fun e he => kinded_of_mem_disjuncts h hes he

/-- A folded negation of a truth value is a truth value. -/
theorem Kinded.not (h : Kinded .truth e) : Kinded .truth (not e) := by
  unfold Expr.not
  split
  next value => exact .bool _
  next operand =>
    cases h with
    | neg h => exact h
  next => exact .neg h

/-- A folded choice is of the kind of its branches. -/
theorem Kinded.ite (hc : Kinded .truth c) (hyes : Kinded kind yes) (hno : Kinded kind no) :
    Kinded kind (ite c yes no) := by
  unfold Expr.ite
  split
  next => exact hyes
  next => exact hno
  next =>
    split
    next => exact hyes
    next => exact .cond hc hyes hno

/-- **Folding throughout** keeps the kinds, so it puts no number in the place of a truth value.  By
induction on the tree, with one of the facts above for each folding constructor. -/
theorem Kinded.refold (h : Kinded kind e) : Kinded kind (refold e) := by
  induction h with
  | bool value => exact .bool value
  | int value => exact .int value
  | real value => exact .real value
  | var kind name => exact .var kind name
  | conj _ ih =>
      rw [Expr.refold, refoldAll_eq_map]
      exact .all (List.forall_mem_map.mpr ih)
  | disj _ ih =>
      rw [Expr.refold, refoldAll_eq_map]
      exact .any (List.forall_mem_map.mpr ih)
  | neg _ ih => exact ih.not
  | eq _ _ iha ihb => exact .eq iha ihb
  | ne _ _ iha ihb => exact .ne iha ihb
  | cond _ _ _ ihc ihyes ihno => exact ihc.ite ihyes ihno
  | sub _ _ iha ihb => exact .sub iha ihb
  | mul _ _ iha ihb => exact .mul iha ihb
  | div _ _ iha ihb => exact .div iha ihb

/-- **A tree of plain constructors** that is built again with the folding ones keeps its values,
and is folded at every depth: its conjunctions and disjunctions have two operands or more, none of
them a truth value or of their own kind; no negation stands before a negation or a truth value; and no
choice has a truth value for its condition or two branches that are alike.  It keeps its kinds too, so
a condition is no number unless one stood where a truth value belongs. -/
theorem refold_spec (e : Expr) :
    (∀ s v, eval s e = some v → eval s (refold e) = some v) ∧ Folded (refold e) ∧
      ∀ kind, Kinded kind e → Kinded kind (refold e) :=
  ⟨fun s => keeps_refold s e, folded_refold e, fun _ h => h.refold⟩

/-- A conjunction behind two negations.  Folded, its operands are operands of the one it stands in,
and so is the branch that is left of the choice. -/
def tangled : Expr :=
  conj [neg (neg (conj [var "a", disj [bool false, var "b"]])), neg (bool false),
    cond (neg (neg (var "c"))) (var "d") (conj [var "d"])]

example : refold tangled = conj [var "a", var "b", var "d"] := rfl

/-- It stands for a truth value. -/
theorem kinded_tangled : Kinded .truth tangled := by
  have hboth : ∀ e ∈ [var "a", disj [bool false, var "b"]], Kinded .truth e := by
    refine List.forall_mem_cons.mpr ⟨.var _ _, List.forall_mem_singleton.mpr (.disj ?_)⟩
    exact List.forall_mem_cons.mpr ⟨.bool _, List.forall_mem_singleton.mpr (.var _ _)⟩
  have hchoice : Kinded .truth (cond (neg (neg (var "c"))) (var "d") (conj [var "d"])) :=
    .cond (.neg (.neg (.var _ _))) (.var _ _) (.conj (List.forall_mem_singleton.mpr (.var _ _)))
  refine .conj (List.forall_mem_cons.mpr ⟨.neg (.neg (.conj hboth)), ?_⟩)
  exact List.forall_mem_cons.mpr ⟨.neg (.bool _), List.forall_mem_singleton.mpr hchoice⟩

/-- Folded throughout, it has the same value. -/
theorem refold_spec_tangled :
    eval (fun _ => some (.bool true)) tangled = some (.bool true) ∧
      eval (fun _ => some (.bool true)) (refold tangled) = some (.bool true) ∧
      Folded (refold tangled) ∧ Kinded .truth (refold tangled) := by
  have hvalue : eval (fun _ => some (.bool true)) tangled = some (.bool true) := rfl
  obtain ⟨hkeeps, hfolded, hkinds⟩ := refold_spec tangled
  exact ⟨hvalue, hkeeps _ _ hvalue, hfolded, hkinds _ kinded_tangled⟩

end Sokoban.Expr
