import Sokoban.Proofs.Valuation

/-! # Folded expressions

The folding constructors leave out truth values and flatten conjunctions and disjunctions.  What
they make from folded expressions is folded again, at every depth: conjunctions and disjunctions
have two operands or more, none of which is a truth value or of their own kind; nothing is negated
that could be turned into its opposite; and no choice is settled (`Folded`).

A constructor looks at its operands only one level deep.  What flattening leaves comes from the
operands or from the operands of one of them (`ComesFrom`), and whatever is to be proved of flattened
operands is read off from this.  As the operands are folded themselves, a conjunction among them has
no conjunctions among its own, so flattening once is enough (`folded_of_mem_conjuncts`).
-/

namespace Sokoban.Expr

/-- Whether an expression may be an operand of a conjunction. -/
def isConjunct : Expr → Bool
  | bool _ | conj _ => false
  | _ => true

/-- Whether an expression may be an operand of a disjunction. -/
def isDisjunct : Expr → Bool
  | bool _ | disj _ => false
  | _ => true

/-- Whether an expression may be negated. -/
def isNegated : Expr → Bool
  | bool _ | neg _ => false
  | _ => true

/-- Whether an expression may be the condition of a choice. -/
def isOpen : Expr → Bool
  | bool _ => false
  | _ => true

/-- An expression in which nothing is left to be folded. -/
inductive Folded : Expr → Prop
  | bool (value : Bool) : Folded (bool value)
  | int (value : Int) : Folded (int value)
  | real (value : Decimal) : Folded (real value)
  | var (name : String) : Folded (var name)
  | conj {es : List Expr} (hmany : 2 ≤ es.length) (hkind : ∀ e ∈ es, e.isConjunct)
      (h : ∀ e ∈ es, Folded e) : Folded (conj es)
  | disj {es : List Expr} (hmany : 2 ≤ es.length) (hkind : ∀ e ∈ es, e.isDisjunct)
      (h : ∀ e ∈ es, Folded e) : Folded (disj es)
  | neg {e : Expr} (hkind : e.isNegated) (h : Folded e) : Folded (neg e)
  | eq {a b : Expr} (ha : Folded a) (hb : Folded b) : Folded (eq a b)
  | ne {a b : Expr} (ha : Folded a) (hb : Folded b) : Folded (ne a b)
  | cond {c yes no : Expr} (hkind : c.isOpen) (hdiffer : same yes no = false) (hc : Folded c)
      (hyes : Folded yes) (hno : Folded no) : Folded (cond c yes no)
  | sub {a b : Expr} (ha : Folded a) (hb : Folded b) : Folded (sub a b)
  | mul {a b : Expr} (ha : Folded a) (hb : Folded b) : Folded (mul a b)
  | div {a b : Expr} (ha : Folded a) (hb : Folded b) : Folded (div a b)

variable {es operands : List Expr} {e c yes no : Expr}

/-! ## Operands -/

/-- An expression comes from operands that are flattened: it is one of them, of a kind that stays, or
an operand of a nested connective among them. -/
def ComesFrom (stays : Expr → Bool) (nested : List Expr → Expr) (es : List Expr) (e : Expr) : Prop :=
  (e ∈ es ∧ stays e) ∨ ∃ inner, nested inner ∈ es ∧ e ∈ inner

/-- What comes from some of the operands comes from all of them. -/
theorem ComesFrom.cons {stays : Expr → Bool} {nested : List Expr → Expr}
    (h : ComesFrom stays nested es e) (first : Expr) : ComesFrom stays nested (first :: es) e := by
  rcases h with ⟨he, hstays⟩ | ⟨inner, hinner, he⟩
  · exact .inl ⟨List.mem_cons_of_mem first he, hstays⟩
  · exact .inr ⟨inner, List.mem_cons_of_mem first hinner, he⟩

/-- **What flattening leaves** of the operands of a conjunction comes from them, and no truth value
and no conjunction among them stays.  By induction on the operands, in the cases of the function. -/
theorem comesFrom_of_mem_conjuncts (h : conjuncts es = some operands) (he : e ∈ operands) :
    ComesFrom isConjunct conj es e := by
  fun_induction conjuncts es generalizing operands with
  | case1 =>
      obtain rfl := Option.some.inj h
      exact absurd he List.not_mem_nil
  | case2 rest ih => exact (ih h he).cons _
  | case3 => cases h
  | case4 inner rest ih =>
      obtain ⟨later, hlater, rfl⟩ := Option.map_eq_some_iff.mp h
      rcases List.mem_append.mp he with hmem | hmem
      · exact .inr ⟨inner, List.mem_cons_self, hmem⟩
      · exact (ih hlater hmem).cons _
  | case5 first rest htrue hfalse hconj ih =>
      obtain ⟨later, hlater, rfl⟩ := Option.map_eq_some_iff.mp h
      rcases List.mem_cons.mp he with rfl | hmem
      · refine .inl ⟨List.mem_cons_self, ?_⟩
        cases e <;> first | rfl | skip
        case bool value => cases value <;> simp_all
        case conj inner => exact absurd rfl (hconj inner)
      · exact (ih hlater hmem).cons first

/-- **What flattening leaves** of the operands of a disjunction, with disjunctions in the place of
conjunctions. -/
theorem comesFrom_of_mem_disjuncts (h : disjuncts es = some operands) (he : e ∈ operands) :
    ComesFrom isDisjunct disj es e := by
  fun_induction disjuncts es generalizing operands with
  | case1 =>
      obtain rfl := Option.some.inj h
      exact absurd he List.not_mem_nil
  | case2 rest ih => exact (ih h he).cons _
  | case3 => cases h
  | case4 inner rest ih =>
      obtain ⟨later, hlater, rfl⟩ := Option.map_eq_some_iff.mp h
      rcases List.mem_append.mp he with hmem | hmem
      · exact .inr ⟨inner, List.mem_cons_self, hmem⟩
      · exact (ih hlater hmem).cons _
  | case5 first rest hfalse htrue hdisj ih =>
      obtain ⟨later, hlater, rfl⟩ := Option.map_eq_some_iff.mp h
      rcases List.mem_cons.mp he with rfl | hmem
      · refine .inl ⟨List.mem_cons_self, ?_⟩
        cases e <;> first | rfl | skip
        case bool value => cases value <;> simp_all
        case disj inner => exact absurd rfl (hdisj inner)
      · exact (ih hlater hmem).cons first

/-- Flattening folded operands leaves folded operands of other kinds.  A conjunction among them is
folded, so none of its own operands is a truth value or a conjunction. -/
theorem folded_of_mem_conjuncts (hes : ∀ e ∈ es, Folded e) (h : conjuncts es = some operands)
    (he : e ∈ operands) : Folded e ∧ e.isConjunct := by
  rcases comesFrom_of_mem_conjuncts h he with ⟨hmem, hkind⟩ | ⟨inner, hinner, hmem⟩
  · exact ⟨hes e hmem, hkind⟩
  · cases hes _ hinner with
    | conj _ hkind hfolded => exact ⟨hfolded e hmem, hkind e hmem⟩

/-- The same holds of flattening the operands of a disjunction, with disjunctions in the place of
conjunctions. -/
theorem folded_of_mem_disjuncts (hes : ∀ e ∈ es, Folded e) (h : disjuncts es = some operands)
    (he : e ∈ operands) : Folded e ∧ e.isDisjunct := by
  rcases comesFrom_of_mem_disjuncts h he with ⟨hmem, hkind⟩ | ⟨inner, hinner, hmem⟩
  · exact ⟨hes e hmem, hkind⟩
  · cases hes _ hinner with
    | disj _ hkind hfolded => exact ⟨hfolded e hmem, hkind e hmem⟩

/-! ## Folding constructors -/

/-- **A folded conjunction** of folded operands.  With no operand left it is a truth value, with one
it is this operand, and otherwise there are two or more. -/
theorem Folded.all (h : ∀ e ∈ es, Folded e) : Folded (all es) := by
  unfold Expr.all
  split
  next => exact .bool false
  next => exact .bool true
  next e hes => exact (folded_of_mem_conjuncts h hes List.mem_cons_self).1
  next operands hnil hone hes =>
    have hmem : ∀ e ∈ operands, _ := fun e he => folded_of_mem_conjuncts h hes he
    refine .conj ?_ (fun e he => (hmem e he).2) fun e he => (hmem e he).1
    match operands with
    | [] => exact absurd rfl hnil
    | [e] => exact absurd rfl (hone e)
    | _ :: _ :: _ => simp

/-- **A folded disjunction** of folded operands, with the same three cases.  Here no operand left
means that nothing holds. -/
theorem Folded.any (h : ∀ e ∈ es, Folded e) : Folded (any es) := by
  unfold Expr.any
  split
  next => exact .bool true
  next => exact .bool false
  next e hes => exact (folded_of_mem_disjuncts h hes List.mem_cons_self).1
  next operands hnil hone hes =>
    have hmem : ∀ e ∈ operands, _ := fun e he => folded_of_mem_disjuncts h hes he
    refine .disj ?_ (fun e he => (hmem e he).2) fun e he => (hmem e he).1
    match operands with
    | [] => exact absurd rfl hnil
    | [e] => exact absurd rfl (hone e)
    | _ :: _ :: _ => simp

/-- **A folded negation** of a folded operand.  What is left of a doubled negation was folded
before. -/
theorem Folded.not (h : Folded e) : Folded (not e) := by
  unfold Expr.not
  split
  next value => exact .bool _
  next operand =>
    cases h with
    | neg _ h => exact h
  next hbool hneg =>
    refine .neg ?_ h
    cases e <;> first | rfl | skip
    case bool value => exact absurd rfl (hbool value)
    case neg operand => exact absurd rfl (hneg operand)

/-- **A folded choice** between folded expressions.  If it is settled, it is one of the branches;
otherwise its condition is no truth value, and its branches differ. -/
theorem Folded.ite (hc : Folded c) (hyes : Folded yes) (hno : Folded no) : Folded (ite c yes no) := by
  unfold Expr.ite
  split
  next => exact hyes
  next => exact hno
  next htrue hfalse =>
    split
    next => exact hyes
    next hdiffer =>
      refine .cond ?_ (Bool.eq_false_iff.mpr hdiffer) hc hyes hno
      cases c <;> first | rfl | skip
      case bool value => cases value <;> simp_all

end Sokoban.Expr
