import Sokoban.Proofs.Binary64
import Sokoban.Proofs.Evaluation

/-! # What JANI expressions mean

An expression of JANI is a JSON value, and it is read here as such: an object is an operator with
its operands, which are found by the names of its members; a string refers to a variable; and
numbers and truth values stand for themselves (`Jani.eval`).  Nothing in this reading knows how
expressions are translated.  In particular operators take two operands there, and the members of an
object may be in any order.

A translated expression has the value of the expression wherever that one has a value
(`Jani.eval_expression`).  The operands of a conjunction or disjunction, of which there may be any
number, are nested to the right (`eval_conj`, `eval_disj`), and both sides read them from the left
up to the one that settles the value.

Decimals have to be whole numbers of 64 bits for this, since all others are written in binary and
may be rounded.
-/

namespace Sokoban

namespace Jani

/-! ## Meaning -/

/-- Whether both hold; the second is not read if the first does not. -/
def both? : Option Value → Option Value → Option Value
  | some (.bool false), _ => some (.bool false)
  | some (.bool true), some (.bool b) => some (.bool b)
  | _, _ => none

/-- Whether one of two holds; the second is not read if the first does. -/
def either? : Option Value → Option Value → Option Value
  | some (.bool true), _ => some (.bool true)
  | some (.bool false), some (.bool b) => some (.bool b)
  | _, _ => none

/-- The opposite of a truth value. -/
def opposite? : Option Value → Option Value
  | some (.bool b) => some (.bool !b)
  | _ => none

/-- Whether two values of the same kind are equal. -/
def equal? : Option Value → Option Value → Option Value
  | some x, some y => (x.equal? y).map .bool
  | _, _ => none

/-- The branch that a condition picks; the other one is not read. -/
def branch? : Option Value → Option Value → Option Value → Option Value
  | some (.bool true), yes, _ => yes
  | some (.bool false), _, no => no
  | _, _, _ => none

/-- The difference of two numbers. -/
def difference? : Option Value → Option Value → Option Value
  | some (.num x), some (.num y) => some (.num (x - y))
  | _, _ => none

/-- The product of two numbers. -/
def product? : Option Value → Option Value → Option Value
  | some (.num x), some (.num y) => some (.num (x * y))
  | _, _ => none

/-- The quotient of two numbers, of which the second is not nought. -/
def quotient? : Option Value → Option Value → Option Value
  | some (.num x), some (.num y) => if y = 0 then none else some (.num (x / y))
  | _, _ => none

/-- The value that an operator gives to its operands, which have names.  Any other operator has no
value. -/
def apply (op : String) (operand : String → Option Value) : Option Value :=
  match op with
  | "∧" => both? (operand "left") (operand "right")
  | "∨" => either? (operand "left") (operand "right")
  | "¬" => opposite? (operand "exp")
  | "=" => equal? (operand "left") (operand "right")
  | "≠" => opposite? (equal? (operand "left") (operand "right"))
  | "ite" => branch? (operand "if") (operand "then") (operand "else")
  | "-" => difference? (operand "left") (operand "right")
  | "*" => product? (operand "left") (operand "right")
  | "/" => quotient? (operand "left") (operand "right")
  | _ => none

mutual

/-- The value of an expression of JANI under a valuation. -/
def eval (s : Valuation) : Json → Option Value
  | .bool value => some (.bool value)
  | .int value => some (.num value)
  | .real negative magnitude => some (.num (if negative then -magnitude.value else magnitude.value))
  | .str name => s name
  | .obj members =>
    match members.lookup "op" with
    | some (.str op) => apply op fun name => ((evalMembers s members).lookup name).join
    | _ => none
  | .null | .arr _ => none

/-- The values of the members of an object. -/
def evalMembers (s : Valuation) : List (String × Json) → List (String × Option Value)
  | [] => []
  | (name, value) :: rest => (name, eval s value) :: evalMembers s rest

end

variable {s : Valuation} {left right condition yes no : Json}

/-- An operation is evaluated by the members of its object, whose names are literals.  So the value
of each can be told from those of its operands by evaluating the search for these names. -/
theorem eval_neg : eval s (neg left) = opposite? (eval s left) := rfl

theorem eval_eq : eval s (eq left right) = equal? (eval s left) (eval s right) := rfl

theorem eval_ne : eval s (ne left right) = opposite? (equal? (eval s left) (eval s right)) := rfl

/-- The value of a choice is that of the branch that its condition picks. -/
theorem eval_cond :
    eval s (cond condition yes no) = branch? (eval s condition) (eval s yes) (eval s no) := rfl

theorem eval_sub : eval s (sub left right) = difference? (eval s left) (eval s right) := rfl

theorem eval_mul : eval s (mul left right) = product? (eval s left) (eval s right) := rfl

theorem eval_div : eval s (div left right) = quotient? (eval s left) (eval s right) := rfl

end Jani

/-! ## Whole numbers -/

namespace Decimal

variable {d : Decimal} {n : Int}

/-- Zeros are dropped until there are no places left or the last digit is another one. -/
theorem mod_dropZeros (mantissa scale : Nat) (h : (dropZeros mantissa scale).2 ≠ 0) :
    (dropZeros mantissa scale).1 % 10 ≠ 0 := by
  induction scale generalizing mantissa with
  | zero => exact absurd rfl h
  | succ scale ih =>
      unfold dropZeros at h ⊢
      split
      next hzero => exact ih (mantissa / 10) (by rwa [if_pos hzero] at h)
      next hdigit => exact hdigit

/-- A whole number needs no places.  If some were left, its last digit would be another one than
nought, and the number not whole. -/
theorem scale_normalize (h : d.value = n) : d.normalize.scale = 0 := by
  by_contra hplaces
  obtain ⟨places, hscale⟩ := Nat.exists_eq_add_one_of_ne_zero hplaces
  have hdigit : d.normalize.mantissa % 10 ≠ 0 := mod_dropZeros d.mantissa d.scale hplaces
  have hshifted : d.normalize.shifted d.normalize.scale = n * (tenPow places * 10 : Nat) := by
    have hvalue := shifted_eq (Nat.le_refl d.normalize.scale)
    rw [value_normalize, h, hscale, tenPow_succ] at hvalue
    rw [hscale]
    exact_mod_cast hvalue
  have htens : (10 : Int) ∣ d.normalize.shifted d.normalize.scale := by
    rw [hshifted, Nat.cast_mul, ← mul_assoc]
    exact Dvd.intro_left _ rfl
  rw [shifted, Nat.sub_self, tenPow_zero, Nat.mul_one] at htens
  split at htens <;> omega

end Decimal

namespace Jani

variable {s : Valuation}

/-- **A whole number of 64 bits** is written as it is, whatever places the decimal has.  Its
shortest form has no places, and that is what is looked at. -/
theorem number_eq_int {d : Decimal} {n : Int} (hvalue : d.value = n) (hlower : -2 ^ 63 ≤ n)
    (hupper : n < 2 ^ 63) : number d = .int n := by
  have hscale := Decimal.scale_normalize hvalue
  have hwhole : (if d.normalize.negative then -d.normalize.mantissa else d.normalize.mantissa : Int) =
      n := by
    have hshifted := Decimal.shifted_eq (Nat.le_refl d.normalize.scale)
    rw [Decimal.value_normalize, hvalue, hscale] at hshifted
    have hmantissa : d.normalize.shifted 0 = n := by simpa using hshifted
    simpa [Decimal.shifted] using hmantissa
  have htwo : (twoPow 63 : Int) = 2 ^ 63 := by decide
  unfold number
  simp only [hwhole, htwo]
  exact if_pos ⟨hscale, hlower, hupper⟩

end Jani

/-- An expression whose decimals are whole numbers of 64 bits. -/
inductive Expr.Integral : Expr → Prop
  | bool (value : Bool) : Integral (bool value)
  | int (value : Int) : Integral (int value)
  | real {value : Decimal} {n : Int} (hvalue : value.value = n) (hlower : -2 ^ 63 ≤ n)
      (hupper : n < 2 ^ 63) : Integral (real value)
  | var (name : String) : Integral (var name)
  | conj {es : List Expr} (h : ∀ e ∈ es, Integral e) : Integral (conj es)
  | disj {es : List Expr} (h : ∀ e ∈ es, Integral e) : Integral (disj es)
  | neg {e : Expr} (h : Integral e) : Integral (neg e)
  | eq {a b : Expr} (ha : Integral a) (hb : Integral b) : Integral (eq a b)
  | ne {a b : Expr} (ha : Integral a) (hb : Integral b) : Integral (ne a b)
  | cond {c yes no : Expr} (hc : Integral c) (hyes : Integral yes) (hno : Integral no) :
      Integral (cond c yes no)
  | sub {a b : Expr} (ha : Integral a) (hb : Integral b) : Integral (sub a b)
  | mul {a b : Expr} (ha : Integral a) (hb : Integral b) : Integral (mul a b)
  | div {a b : Expr} (ha : Integral a) (hb : Integral b) : Integral (div a b)

namespace Jani

/-! ## Translated expressions -/

variable {s : Valuation} {e : Expr} {es : List Expr} {held : Bool}

/-- Several expressions are translated one by one. -/
theorem expressions_eq_map (es : List Expr) : expressions es = es.map expression := by
  induction es with
  | nil => rfl
  | cons e es ih => rw [expressions, ih, List.map_cons]

/-- The translation of an expression has its value wherever the expression has one. -/
def Renders (s : Valuation) (e : Expr) : Prop :=
  ∀ v, e.eval s = some v → eval s (expression e) = some v

/-- A conjunction is nested to the right, and its operands are read in their order.  By induction on
the operands; the empty conjunction is written as a truth value. -/
theorem eval_conj (h : ∀ e ∈ es, Renders s e) (hes : Expr.evalConj s es = some held) :
    eval s (conj (es.map expression)) = some (.bool held) := by
  induction es with
  | nil =>
      obtain rfl := Option.some.inj hes
      rfl
  | cons e es ih =>
      obtain ⟨he, hrest⟩ := List.forall_mem_cons.mp h
      cases es with
      | nil => exact he _ (Expr.evalConj_singleton_iff.mp hes)
      | cons next es =>
          obtain ⟨first, hfirst, hlater⟩ := Expr.evalConj_cons_iff.mp hes
          change both? (eval s (expression e)) (eval s (conj ((next :: es).map expression))) = _
          rw [he _ hfirst]
          cases first with
          | true =>
              rw [ih hrest hlater]
              rfl
          | false =>
              obtain rfl := Option.some.inj hlater
              rfl

/-- A disjunction is nested to the right, and its operands are read in their order.  The argument is
that for conjunctions, with what settles a disjunction. -/
theorem eval_disj (h : ∀ e ∈ es, Renders s e) (hes : Expr.evalDisj s es = some held) :
    eval s (disj (es.map expression)) = some (.bool held) := by
  induction es with
  | nil =>
      obtain rfl := Option.some.inj hes
      rfl
  | cons e es ih =>
      obtain ⟨he, hrest⟩ := List.forall_mem_cons.mp h
      cases es with
      | nil => exact he _ (Expr.evalDisj_singleton_iff.mp hes)
      | cons next es =>
          obtain ⟨first, hfirst, hlater⟩ := Expr.evalDisj_cons_iff.mp hes
          change either? (eval s (expression e)) (eval s (disj ((next :: es).map expression))) = _
          rw [he _ hfirst]
          cases first with
          | true =>
              obtain rfl := Option.some.inj hlater
              rfl
          | false =>
              rw [ih hrest hlater]
              rfl

/-- **A translated expression** has the value of the expression under every valuation under which
the expression has one.  By induction on the expression, where connectives are the two lemmas above
and every other operator has its own operands. -/
theorem eval_expression (h : e.Integral) :
    ∀ s v, e.eval s = some v → eval s (expression e) = some v := by
  intro s
  change Renders s e
  induction h with
  | bool | int | var => exact fun v hv => hv
  | real hvalue hlower hupper =>
      intro v hv
      rw [expression, number_eq_int hvalue hlower hupper, eval, ← hvalue]
      exact hv
  | conj _ ih =>
      intro v hv
      obtain ⟨held, hes, rfl⟩ := Expr.eval_conj_iff.mp hv
      rw [expression, expressions_eq_map]
      exact eval_conj ih hes
  | disj _ ih =>
      intro v hv
      obtain ⟨held, hes, rfl⟩ := Expr.eval_disj_iff.mp hv
      rw [expression, expressions_eq_map]
      exact eval_disj ih hes
  | neg _ ih =>
      intro v hv
      obtain ⟨held, he, rfl⟩ := Expr.eval_neg_iff.mp hv
      rw [expression, eval_neg, ih _ he]
      rfl
  | eq _ _ iha ihb =>
      intro v hv
      obtain ⟨x, y, hx, hy, hxy⟩ := Expr.eval_eq_iff.mp hv
      rw [expression, eval_eq, iha _ hx, ihb _ hy]
      exact hxy
  | ne _ _ iha ihb =>
      intro v hv
      obtain ⟨x, y, hx, hy, hxy⟩ := Expr.eval_ne_iff.mp hv
      obtain ⟨equal, hequal, rfl⟩ := Option.map_eq_some_iff.mp hxy
      rw [expression, eval_ne, iha _ hx, ihb _ hy, equal?, hequal]
      rfl
  | cond _ _ _ ihc ihyes ihno =>
      intro v hv
      obtain ⟨held, hc, hbranch⟩ := Expr.eval_cond_iff.mp hv
      rw [expression, eval_cond, ihc _ hc]
      cases held with
      | true => exact ihyes _ hbranch
      | false => exact ihno _ hbranch
  | sub _ _ iha ihb =>
      intro v hv
      obtain ⟨x, y, hx, hy, rfl⟩ := Expr.eval_sub_iff.mp hv
      rw [expression, eval_sub, iha _ hx, ihb _ hy]
      rfl
  | mul _ _ iha ihb =>
      intro v hv
      obtain ⟨x, y, hx, hy, rfl⟩ := Expr.eval_mul_iff.mp hv
      rw [expression, eval_mul, iha _ hx, ihb _ hy]
      rfl
  | div _ _ iha ihb =>
      intro v hv
      obtain ⟨x, y, hx, hy, hxy⟩ := Expr.eval_div_iff.mp hv
      rw [expression, eval_div, iha _ hx, ihb _ hy]
      exact hxy

/-- The decimal -3.00. -/
def minusThree : Decimal :=
  (Decimal.ofParts? true 300 2).getD .zero

/-- An expression with conjunctions and disjunctions of three, one and no operands. -/
def assorted : Expr :=
  .cond (.conj [.disj [.var "b"], .neg (.disj []), .ne (.var "x") (.int 4)])
    (.sub (.div (.var "x") (.int 2)) (.sub (.mul (.int 5) (.var "x")) (.real minusThree)))
    (.var "b")

/-- All its decimals are whole numbers. -/
theorem integral_assorted : assorted.Integral := by
  have hvalue : minusThree.value = (-3 : Int) := by decide +kernel
  have hreal : (Expr.real minusThree).Integral := .real hvalue (by decide) (by decide)
  have hoperands : ∀ e ∈ [Expr.disj [.var "b"], .neg (.disj []), .ne (.var "x") (.int 4)],
      e.Integral := by
    refine List.forall_mem_cons.mpr ⟨.disj ?_, List.forall_mem_cons.mpr ⟨.neg (.disj ?_), ?_⟩⟩
    · exact List.forall_mem_singleton.mpr (.var "b")
    · exact List.forall_mem_nil _
    · exact List.forall_mem_singleton.mpr (.ne (.var "x") (.int 4))
  exact .cond (.conj hoperands)
    (.sub (.div (.var "x") (.int 2)) (.sub (.mul (.int 5) (.var "x")) hreal)) (.var "b")

/-- Its translation has the same value. -/
theorem eval_expression_assorted :
    eval (fun name => some (if name = "b" then .bool true else .num 1)) (expression assorted) =
      some (.num (-15 / 2)) :=
  eval_expression integral_assorted _ _ (by decide +kernel)

end Jani

end Sokoban
