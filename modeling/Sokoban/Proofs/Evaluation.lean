import Sokoban.Proofs.Valuation

/-! # Where an expression has a value

An expression has a value where those of its parts that are read have values of the right kind.
There is one fact for each constructor that says so, from the expression to its parts and back, so a
proof about values takes an expression apart by the fact of its constructor and puts another one
together by the same fact.  None of them needs `eval` to be unfolded again.

An expression keeps the value of another one if it has that value wherever the other one has a value
(`Keeps`).  A translation that keeps the values of the parts keeps the value of the whole.  It is a
one-sided notion on purpose: folding may drop an operand that has no value, so the folded expression
can have a value where the plain one has none.

The operands of a conjunction are read one by one, so what takes the place of an operand may even be
several operands, as long as they hold together where the operand does (`evalConj_flatMap`), and
likewise for disjunctions.  This is what the nesting and unnesting of operands in the printed
formats comes down to.

`Expr.inductionOn` is induction over the constructors where the operands of a conjunction or
disjunction are the members of a list.
-/

namespace Sokoban.Expr

variable {s : Valuation} {a b c e yes no : Expr} {es : List Expr} {v : Value}

/-! ## Induction -/

/-- Induction over the constructors.  The induction that comes with the type has a second motive for
lists of operands; here it is filled in once and for all. -/
@[elab_as_elim]
theorem inductionOn {motive : Expr → Prop} (e : Expr) (bool : ∀ value, motive (bool value))
    (int : ∀ value, motive (int value)) (real : ∀ value, motive (real value))
    (var : ∀ name, motive (var name))
    (conj : ∀ es, (∀ e ∈ es, motive e) → motive (conj es))
    (disj : ∀ es, (∀ e ∈ es, motive e) → motive (disj es))
    (neg : ∀ e, motive e → motive (neg e))
    (eq : ∀ a b, motive a → motive b → motive (eq a b))
    (ne : ∀ a b, motive a → motive b → motive (ne a b))
    (cond : ∀ c yes no, motive c → motive yes → motive no → motive (cond c yes no))
    (sub : ∀ a b, motive a → motive b → motive (sub a b))
    (mul : ∀ a b, motive a → motive b → motive (mul a b))
    (div : ∀ a b, motive a → motive b → motive (div a b)) : motive e :=
  @Expr.rec motive (fun es => ∀ e ∈ es, motive e) bool int real var conj disj neg eq ne cond sub mul
    div (fun _ h => absurd h List.not_mem_nil)
    (fun _ _ hfirst hrest => List.forall_mem_cons.mpr ⟨hfirst, hrest⟩) e

/-! ## Constructors -/

/-- A conjunction has a value where its operands can be read up to the first that does not hold. -/
theorem eval_conj_iff :
    eval s (conj es) = some v ↔ ∃ held, evalConj s es = some held ∧ .bool held = v := by
  rw [eval, Option.map_eq_some_iff]

theorem eval_disj_iff :
    eval s (disj es) = some v ↔ ∃ held, evalDisj s es = some held ∧ .bool held = v := by
  rw [eval, Option.map_eq_some_iff]

/-- A negation has a value where its operand has a truth value. -/
theorem eval_neg_iff :
    eval s (neg e) = some v ↔ ∃ held, eval s e = some (.bool held) ∧ .bool (!held) = v := by
  rw [eval]
  constructor
  · intro h
    split at h
    next held hheld => exact ⟨held, hheld, Option.some.inj h⟩
    next => cases h
  · rintro ⟨held, hheld, rfl⟩
    rw [hheld]

/-- An equation has a value where both sides have values of one kind.  A truth value and a number
cannot be compared, so then there is none. -/
theorem eval_eq_iff : eval s (eq a b) = some v ↔
    ∃ x y, eval s a = some x ∧ eval s b = some y ∧ (x.equal? y).map .bool = some v := by
  rw [eval]
  constructor
  · intro h
    split at h
    next x y hx hy => exact ⟨x, y, hx, hy, h⟩
    next => cases h
  · rintro ⟨x, y, hx, hy, h⟩
    rw [hx, hy]
    exact h

/-- An inequation has a value where the equation has one, and it is the other one. -/
theorem eval_ne_iff : eval s (ne a b) = some v ↔
    ∃ x y, eval s a = some x ∧ eval s b = some y ∧
      (x.equal? y).map (fun equal => .bool !equal) = some v := by
  rw [eval]
  constructor
  · intro h
    split at h
    next x y hx hy => exact ⟨x, y, hx, hy, h⟩
    next => cases h
  · rintro ⟨x, y, hx, hy, h⟩
    rw [hx, hy]
    exact h

/-- A choice has the value of the branch that its condition picks.  The other branch need not have a
value. -/
theorem eval_cond_iff : eval s (cond c yes no) = some v ↔
    ∃ held, eval s c = some (.bool held) ∧ (if held then eval s yes else eval s no) = some v := by
  rw [eval]
  constructor
  · intro h
    split at h
    next hheld => exact ⟨true, hheld, h⟩
    next hheld => exact ⟨false, hheld, h⟩
    next => cases h
  · rintro ⟨held, hheld, h⟩
    rw [hheld]
    cases held <;> exact h

/-- A difference has a value where both sides are numbers. -/
theorem eval_sub_iff : eval s (sub a b) = some v ↔
    ∃ x y, eval s a = some (.num x) ∧ eval s b = some (.num y) ∧ .num (x - y) = v := by
  rw [eval]
  constructor
  · intro h
    split at h
    next x y hx hy => exact ⟨x, y, hx, hy, Option.some.inj h⟩
    next => cases h
  · rintro ⟨x, y, hx, hy, rfl⟩
    rw [hx, hy]

/-- A product has a value where both sides are numbers. -/
theorem eval_mul_iff : eval s (mul a b) = some v ↔
    ∃ x y, eval s a = some (.num x) ∧ eval s b = some (.num y) ∧ .num (x * y) = v := by
  rw [eval]
  constructor
  · intro h
    split at h
    next x y hx hy => exact ⟨x, y, hx, hy, Option.some.inj h⟩
    next => cases h
  · rintro ⟨x, y, hx, hy, rfl⟩
    rw [hx, hy]

/-- A quotient has a value where both sides are numbers and the second is not nought. -/
theorem eval_div_iff : eval s (div a b) = some v ↔
    ∃ x y, eval s a = some (.num x) ∧ eval s b = some (.num y) ∧
      (if y = 0 then none else some (.num (x / y))) = some v := by
  rw [eval]
  constructor
  · intro h
    split at h
    next x y hx hy => exact ⟨x, y, hx, hy, h⟩
    next => cases h
  · rintro ⟨x, y, hx, hy, h⟩
    rw [hx, hy]
    exact h

/-! ## Operands -/

/-- The first operand settles a conjunction, or leaves it to the others.  If it does not hold the
others are not read, and need no values. -/
theorem evalConj_cons_iff {held : Bool} : evalConj s (e :: es) = some held ↔
    ∃ first, eval s e = some (.bool first) ∧
      (if first then evalConj s es else some false) = some held := by
  rw [evalConj]
  constructor
  · intro h
    split at h
    next he => exact ⟨true, he, h⟩
    next he => exact ⟨false, he, h⟩
    next => cases h
  · rintro ⟨first, he, h⟩
    rw [he]
    cases first <;> exact h

/-- The first operand settles a disjunction, or leaves it to the others.  If it holds the others are
not read, and need no values. -/
theorem evalDisj_cons_iff {held : Bool} : evalDisj s (e :: es) = some held ↔
    ∃ first, eval s e = some (.bool first) ∧
      (if first then some true else evalDisj s es) = some held := by
  rw [evalDisj]
  constructor
  · intro h
    split at h
    next he => exact ⟨true, he, h⟩
    next he => exact ⟨false, he, h⟩
    next => cases h
  · rintro ⟨first, he, h⟩
    rw [he]
    cases first <;> exact h

/-- **The operands of a conjunction** may be replaced by operands that hold together where they do.
By induction on the operands: those of a replacement are read to their end if they hold, and what
settles them settles the whole. -/
theorem evalConj_flatMap {f : Expr → List Expr}
    (h : ∀ e ∈ es, ∀ b, eval s e = some (.bool b) → evalConj s (f e) = some b) {held : Bool}
    (hes : evalConj s es = some held) : evalConj s (es.flatMap f) = some held := by
  induction es with
  | nil => exact hes
  | cons e es ih =>
      obtain ⟨first, he, hrest⟩ := evalConj_cons_iff.mp hes
      rw [List.flatMap_cons, evalConj_append, h e List.mem_cons_self first he]
      cases first with
      | false => exact hrest
      | true => exact ih (fun e he => h e (List.mem_cons_of_mem _ he)) hrest

/-- **The operands of a disjunction** may be replaced by operands of which one holds where they do.
The same argument, with what settles a disjunction. -/
theorem evalDisj_flatMap {f : Expr → List Expr}
    (h : ∀ e ∈ es, ∀ b, eval s e = some (.bool b) → evalDisj s (f e) = some b) {held : Bool}
    (hes : evalDisj s es = some held) : evalDisj s (es.flatMap f) = some held := by
  induction es with
  | nil => exact hes
  | cons e es ih =>
      obtain ⟨first, he, hrest⟩ := evalDisj_cons_iff.mp hes
      rw [List.flatMap_cons, evalDisj_append, h e List.mem_cons_self first he]
      cases first with
      | true => exact hrest
      | false => exact ih (fun e he => h e (List.mem_cons_of_mem _ he)) hrest

/-- A single operand of a conjunction is as good as the conjunction. -/
theorem evalConj_singleton_iff {held : Bool} :
    evalConj s [e] = some held ↔ eval s e = some (.bool held) := by
  rw [evalConj_cons_iff]
  constructor
  · rintro ⟨first, he, h⟩
    cases first <;> simp_all [evalConj]
  · intro he
    exact ⟨held, he, by cases held <;> rfl⟩

/-- A single operand of a disjunction is as good as the disjunction. -/
theorem evalDisj_singleton_iff {held : Bool} :
    evalDisj s [e] = some held ↔ eval s e = some (.bool held) := by
  rw [evalDisj_cons_iff]
  constructor
  · rintro ⟨first, he, h⟩
    cases first <;> simp_all [evalDisj]
  · intro he
    exact ⟨held, he, by cases held <;> rfl⟩

/-! ## Values that are kept -/

/-- The second expression has the value of the first one wherever that one has a value. -/
def Keeps (s : Valuation) (e kept : Expr) : Prop :=
  ∀ v, eval s e = some v → eval s kept = some v

variable {a' b' c' e' yes' no' : Expr}

namespace Keeps

/-- An expression keeps its own value. -/
theorem refl (e : Expr) : Keeps s e e :=
  fun _ h => h

/-- Negations keep the value if their operands do. -/
theorem neg (h : Keeps s e e') : Keeps s (neg e) (neg e') := by
  intro v hv
  obtain ⟨held, he, rfl⟩ := eval_neg_iff.mp hv
  exact eval_neg_iff.mpr ⟨held, h _ he, rfl⟩

/-- Equations keep the value if both sides do. -/
theorem eq (ha : Keeps s a a') (hb : Keeps s b b') : Keeps s (eq a b) (eq a' b') := by
  intro v hv
  obtain ⟨x, y, hx, hy, hxy⟩ := eval_eq_iff.mp hv
  exact eval_eq_iff.mpr ⟨x, y, ha _ hx, hb _ hy, hxy⟩

theorem ne (ha : Keeps s a a') (hb : Keeps s b b') : Keeps s (ne a b) (ne a' b') := by
  intro v hv
  obtain ⟨x, y, hx, hy, hxy⟩ := eval_ne_iff.mp hv
  exact eval_ne_iff.mpr ⟨x, y, ha _ hx, hb _ hy, hxy⟩

/-- Choices keep the value if the condition and both branches do.  Which branch is picked is told by
the condition, and that one has a value. -/
theorem cond (hc : Keeps s c c') (hyes : Keeps s yes yes') (hno : Keeps s no no') :
    Keeps s (cond c yes no) (cond c' yes' no') := by
  intro v hv
  obtain ⟨held, hheld, hbranch⟩ := eval_cond_iff.mp hv
  refine eval_cond_iff.mpr ⟨held, hc _ hheld, ?_⟩
  cases held with
  | true => exact hyes _ hbranch
  | false => exact hno _ hbranch

theorem sub (ha : Keeps s a a') (hb : Keeps s b b') : Keeps s (sub a b) (sub a' b') := by
  intro v hv
  obtain ⟨x, y, hx, hy, hxy⟩ := eval_sub_iff.mp hv
  exact eval_sub_iff.mpr ⟨x, y, ha _ hx, hb _ hy, hxy⟩

theorem mul (ha : Keeps s a a') (hb : Keeps s b b') : Keeps s (mul a b) (mul a' b') := by
  intro v hv
  obtain ⟨x, y, hx, hy, hxy⟩ := eval_mul_iff.mp hv
  exact eval_mul_iff.mpr ⟨x, y, ha _ hx, hb _ hy, hxy⟩

/-- Quotients keep the value if both sides do; the divisor is the same number, so it is nought in
both or in neither. -/
theorem div (ha : Keeps s a a') (hb : Keeps s b b') : Keeps s (div a b) (div a' b') := by
  intro v hv
  obtain ⟨x, y, hx, hy, hxy⟩ := eval_div_iff.mp hv
  exact eval_div_iff.mpr ⟨x, y, ha _ hx, hb _ hy, hxy⟩

end Keeps

end Sokoban.Expr
