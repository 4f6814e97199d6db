import Sokoban.Expr
import Sokoban.Proofs.Decimal.Value

/-! # The value of an expression

A valuation gives names their values, and an expression has the value that its operators give it.
Conjunctions and disjunctions are read from the left and stop at the operand that settles them; a
choice reads only the branch that it takes.  An expression that divides by nought, compares a truth
value with a number or names something without a value has no value.  Arithmetic is exact, so this
is the meaning of a model as its author states it, not as a checker may round it.

The folding constructors are sound:  `eval_all`, `eval_any`, `eval_not` and `eval_ite` say that a
folded expression has the value of the plain one wherever that one has a value.  They drop operands
that settle nothing, flatten nested ones, and replace an expression by a truth value where an
operand settles it.  An operand without a value behind a false one may go, since it is not read;
this is why the facts are implications.

`eval_all_map` and `eval_any_map` are the forms that encodings use, where every operand belongs to
an item of a list.
-/

namespace Sokoban

/-- What an expression stands for: a truth value or a number. -/
inductive Value where
  | bool (value : Bool)
  | num (value : ℚ)
deriving DecidableEq

/-- Whether two values of the same kind are equal.  A truth value is not compared with a number. -/
def Value.equal? : Value → Value → Option Bool
  | bool a, bool b => some (a == b)
  | num a, num b => some (a == b)
  | _, _ => none

/-- The values of names; a name that is not in use has none. -/
abbrev Valuation := String → Option Value

namespace Expr

mutual

/-- The value of an expression under a valuation. -/
def eval (s : Valuation) : Expr → Option Value
  | bool b => some (.bool b)
  | int i => some (.num i)
  | real d => some (.num d.value)
  | var name => s name
  | conj es => (evalConj s es).map .bool
  | disj es => (evalDisj s es).map .bool
  | neg e =>
    match eval s e with
    | some (.bool b) => some (.bool !b)
    | _ => none
  | eq a b =>
    match eval s a, eval s b with
    | some x, some y => (x.equal? y).map .bool
    | _, _ => none
  | ne a b =>
    match eval s a, eval s b with
    | some x, some y => (x.equal? y).map fun equal => .bool !equal
    | _, _ => none
  | cond c yes no =>
    match eval s c with
    | some (.bool true) => eval s yes
    | some (.bool false) => eval s no
    | _ => none
  | sub a b =>
    match eval s a, eval s b with
    | some (.num x), some (.num y) => some (.num (x - y))
    | _, _ => none
  | mul a b =>
    match eval s a, eval s b with
    | some (.num x), some (.num y) => some (.num (x * y))
    | _, _ => none
  | div a b =>
    match eval s a, eval s b with
    | some (.num x), some (.num y) => if y = 0 then none else some (.num (x / y))
    | _, _ => none

/-- Whether all operands hold, read from the left up to the first that does not. -/
def evalConj (s : Valuation) : List Expr → Option Bool
  | [] => some true
  | e :: rest =>
    match eval s e with
    | some (.bool true) => evalConj s rest
    | some (.bool false) => some false
    | _ => none

/-- Whether some operand holds, read from the left up to the first that does. -/
def evalDisj (s : Valuation) : List Expr → Option Bool
  | [] => some false
  | e :: rest =>
    match eval s e with
    | some (.bool true) => some true
    | some (.bool false) => evalDisj s rest
    | _ => none

end

attribute [grind =] eval evalConj evalDisj

variable {s : Valuation}

/-! ## Expressions that are built alike -/

/-- Expressions, and lists of them, that are built alike have the same values.  `same` is a
comparison that is computed, and the induction is over its pairs. -/
theorem eval_of_same_and (s : Valuation) :
    (∀ a b : Expr, same a b → eval s a = eval s b) ∧
      ∀ as bs : List Expr, sameAll as bs →
        evalConj s as = evalConj s bs ∧ evalDisj s as = evalDisj s bs := by
  apply same.mutual_induct
  case case1 | case2 | case4 => simp [same]
  case case3 => simp [same, eval, Decimal.same_iff]
  case case5 | case6 | case7 =>
    intro a b ih h
    have hab := ih (by simpa only [same] using h)
    simp only [eval, hab]
  case case8 | case9 | case11 | case12 | case13 =>
    intro a₁ a₂ b₁ b₂ ih₁ ih₂ h
    simp only [same, Bool.and_eq_true] at h
    simp only [eval, ih₁ h.1, ih₂ h.2]
  case case10 =>
    intro a₁ a₂ a₃ b₁ b₂ b₃ ih₁ ih₂ ih₃ h
    simp only [same, Bool.and_eq_true] at h
    simp only [eval, ih₁ h.1.1, ih₂ h.1.2, ih₃ h.2]
  -- Expressions of different kinds are never built alike.
  case case14 =>
    intro a b
    intros
    rename_i h
    unfold same at h
    split at h <;> grind
  case case15 => simp
  case case16 =>
    intro a as b bs ih ihs h
    simp only [sameAll, Bool.and_eq_true] at h
    simp only [evalConj, evalDisj, ih h.1, ihs h.2, and_self]
  case case17 =>
    intro as bs _ _ h
    unfold sameAll at h
    split at h <;> grind

/-- Expressions that are built alike have the same value, so the choice between two of them may be
dropped. -/
theorem eval_of_same {a b : Expr} (h : same a b) : eval s a = eval s b :=
  (eval_of_same_and s).1 a b h

/-! ## Conjunctions -/

/-- Operands that follow others matter only if the others hold.  So a conjunction may be flattened.
-/
theorem evalConj_append (as bs : List Expr) :
    evalConj s (as ++ bs) =
      match evalConj s as with
      | some true => evalConj s bs
      | some false => some false
      | none => none := by
  induction as with
  | nil => rfl
  | cons a as ih =>
      simp only [List.cons_append, evalConj]
      split <;> simp_all

/-- Flattening keeps the value; if it settles a conjunction, some operand was false.  By induction
on the operands, where one that is a conjunction contributes its own. -/
theorem evalConj_conjuncts {es : List Expr} {b : Bool} (h : evalConj s es = some b) :
    (conjuncts es = none → b = false) ∧
      ∀ operands, conjuncts es = some operands → evalConj s operands = some b := by
  fun_induction conjuncts es generalizing b with
  | case1 => exact ⟨nofun, fun _ hes => Option.some.inj hes ▸ h⟩
  | case2 rest ih => exact ih (by simpa only [evalConj, eval] using h)
  | case3 => exact ⟨fun _ => by simpa [evalConj, eval, eq_comm] using h, nofun⟩
  | case4 inner rest ih =>
      rw [evalConj, eval] at h
      cases hinner : evalConj s inner with
      | none => simp [hinner] at h
      | some held =>
          cases held with
          | false => simp_all [evalConj_append]
          | true =>
              have hrest := ih (by simpa [hinner] using h)
              simp_all [evalConj_append]
  | case5 e rest _ _ _ ih =>
      rw [evalConj] at h
      split at h
      next he => simp_all [evalConj]
      next he => simp_all [evalConj]
      next => simp at h

/-- **Folding a conjunction** keeps its value: the empty one is true, one of a single operand is
that operand. -/
theorem eval_all {es : List Expr} {v : Value} (h : eval s (conj es) = some v) :
    eval s (all es) = some v := by
  rw [eval] at h
  obtain ⟨b, hb, rfl⟩ := Option.map_eq_some_iff.mp h
  obtain ⟨hnone, hsome⟩ := evalConj_conjuncts hb
  unfold all
  split
  next hes => simp [eval, hnone hes]
  next hes => simpa [eval, evalConj, eq_comm] using hsome _ hes
  next e hes =>
    have he := hsome _ hes
    rw [evalConj] at he
    split at he <;> simp_all [evalConj]
  next operands _ _ hes => simp [eval, hsome _ hes]

/-! ## Disjunctions -/

/-- Operands that follow others matter only if none of the others holds. -/
theorem evalDisj_append (as bs : List Expr) :
    evalDisj s (as ++ bs) =
      match evalDisj s as with
      | some true => some true
      | some false => evalDisj s bs
      | none => none := by
  induction as with
  | nil => rfl
  | cons a as ih =>
      simp only [List.cons_append, evalDisj]
      split <;> simp_all

/-- Flattening keeps the value; if it settles a disjunction, some operand was true.  The argument is
that for conjunctions. -/
theorem evalDisj_disjuncts {es : List Expr} {b : Bool} (h : evalDisj s es = some b) :
    (disjuncts es = none → b = true) ∧
      ∀ operands, disjuncts es = some operands → evalDisj s operands = some b := by
  fun_induction disjuncts es generalizing b with
  | case1 => exact ⟨nofun, fun _ hes => Option.some.inj hes ▸ h⟩
  | case2 rest ih => exact ih (by simpa only [evalDisj, eval] using h)
  | case3 => exact ⟨fun _ => by simpa [evalDisj, eval, eq_comm] using h, nofun⟩
  | case4 inner rest ih =>
      rw [evalDisj, eval] at h
      cases hinner : evalDisj s inner with
      | none => simp [hinner] at h
      | some held =>
          cases held with
          | true => simp_all [evalDisj_append]
          | false =>
              have hrest := ih (by simpa [hinner] using h)
              simp_all [evalDisj_append]
  | case5 e rest _ _ _ ih =>
      rw [evalDisj] at h
      split at h
      next he => simp_all [evalDisj]
      next he => simp_all [evalDisj]
      next => simp at h

/-- **Folding a disjunction** keeps its value, whether it comes to a truth value, to one operand or
to several. -/
theorem eval_any {es : List Expr} {v : Value} (h : eval s (disj es) = some v) :
    eval s (any es) = some v := by
  rw [eval] at h
  obtain ⟨b, hb, rfl⟩ := Option.map_eq_some_iff.mp h
  obtain ⟨hnone, hsome⟩ := evalDisj_disjuncts hb
  unfold any
  split
  next hes => simp [eval, hnone hes]
  next hes => simpa [eval, evalDisj, eq_comm] using hsome _ hes
  next e hes =>
    have he := hsome _ hes
    rw [evalDisj] at he
    split at he <;> simp_all [evalDisj]
  next operands _ _ hes => simp [eval, hsome _ hes]

/-! ## Negations and choices -/

/-- **Folding a negation** keeps its value.  The negation of a truth value is a truth value, and a
doubled negation goes. -/
theorem eval_not {e : Expr} {b : Bool} (h : eval s e = some (.bool b)) :
    eval s (not e) = some (.bool !b) := by
  unfold not
  split
  next value => simp_all [eval]
  next operand =>
    rw [eval] at h
    split at h
    next inner hinner =>
      obtain rfl : (!inner) = b := by simpa using h
      rw [hinner, Bool.not_not]
    next => simp at h
  next => simp [eval, h]

/-- **A folded choice** has the value of the branch that the condition picks, also where the
branches are built alike or are truth values. -/
theorem eval_ite {c yes no : Expr} {b : Bool} (h : eval s c = some (.bool b)) :
    eval s (ite c yes no) = if b then eval s yes else eval s no := by
  unfold ite
  split
  next => simp_all [eval]
  next => simp_all [eval]
  next =>
    split
    next hsame => simp [eval_of_same hsame]
    next => cases b <;> simp [eval, h]

/-! ## Truth values -/

/-- The operands of a list hold together when each item of the list does.  Guards and goals over
lists of cells or boxes are evaluated in this form. -/
theorem eval_all_map {α : Type} {xs : List α} {f : α → Expr} {p : α → Bool}
    (h : ∀ x ∈ xs, eval s (f x) = some (.bool (p x))) :
    eval s (all (xs.map f)) = some (.bool (xs.all p)) := by
  refine eval_all ?_
  have hconj : evalConj s (xs.map f) = some (xs.all p) := by
    induction xs with
    | nil => rfl
    | cons x xs ih =>
        have hrest := ih fun y hy => h y (List.mem_cons_of_mem x hy)
        rw [List.map_cons, evalConj, h x List.mem_cons_self]
        cases hx : p x <;> simp [hx, hrest]
  rw [eval, hconj, Option.map_some]

/-- One of the operands of a list holds when some item of the list does.  Whether a cell is occupied
is asked in this form, of all boxes. -/
theorem eval_any_map {α : Type} {xs : List α} {f : α → Expr} {p : α → Bool}
    (h : ∀ x ∈ xs, eval s (f x) = some (.bool (p x))) :
    eval s (any (xs.map f)) = some (.bool (xs.any p)) := by
  refine eval_any ?_
  have hdisj : evalDisj s (xs.map f) = some (xs.any p) := by
    induction xs with
    | nil => rfl
    | cons x xs ih =>
        have hrest := ih fun y hy => h y (List.mem_cons_of_mem x hy)
        rw [List.map_cons, evalDisj, h x List.mem_cons_self]
        cases hx : p x <;> simp [hx, hrest]
  rw [eval, hdisj, Option.map_some]

/-- Two operands hold together when both do. -/
theorem eval_all_pair {e f : Expr} {a b : Bool} (he : eval s e = some (.bool a))
    (hf : eval s f = some (.bool b)) : eval s (all [e, f]) = some (.bool (a && b)) := by
  refine eval_all ?_
  cases a <;> cases b <;> simp [eval, evalConj, he, hf]

/-- One of two operands holds when either does. -/
theorem eval_any_pair {e f : Expr} {a b : Bool} (he : eval s e = some (.bool a))
    (hf : eval s f = some (.bool b)) : eval s (any [e, f]) = some (.bool (a || b)) := by
  refine eval_any ?_
  cases a <;> cases b <;> simp [eval, evalDisj, he, hf]

/-! ## Numbers -/

/-- Comparing numbers as rationals is comparing them as natural numbers.  Values are rationals, and
cells are natural numbers among them. -/
theorem natCast_beq (m n : Nat) : ((m : ℚ) == ((n : Int) : ℚ)) = decide (m = n) := by
  rw [Bool.eq_iff_iff, beq_iff_eq, decide_eq_true_iff, Int.cast_natCast, Nat.cast_inj]

/-- A variable with a number is equal to a literal if the numbers are. -/
theorem eval_eq_nat {name : String} {m : Nat} (h : s name = some (.num m)) (n : Nat) :
    eval s (eq (var name) (nat n)) = some (.bool (decide (m = n))) := by
  simp only [eval, nat, h, Value.equal?, natCast_beq, Option.map_some]

/-- A variable with a number differs from a literal if the numbers do. -/
theorem eval_ne_nat {name : String} {m : Nat} (h : s name = some (.num m)) (n : Nat) :
    eval s (ne (var name) (nat n)) = some (.bool !(decide (m = n))) := by
  simp only [eval, nat, h, Value.equal?, natCast_beq, Option.map_some]

end Expr

end Sokoban
