import Sokoban.Proofs.Folding
import Sokoban.Proofs.Run

/-! # How expressions are built

Guards, values and goals are built over the variables of a model: from truth values, cells,
variables and comparisons of a variable with a cell, by the folding constructors.  `Built` has one
rule for each of these ways, and says of what type the expression is.  What is built has the
properties that the rules keep, and they are proved by induction on the rules: every name is one of
a variable (`Built.names`), there is a value of the type wherever all variables have values of
theirs (`Built.exists_eval`), and nothing is left to be folded (`Built.folded`).

So each of these properties is proved once, and whoever makes an expression shows no more than that
it is built.  A cell that is assigned has to lie between the bounds of the variable; that is part of
the rule for cells, so ranges are kept as well.

`Assigns` says the same of assignments that are carried out at once.
-/

namespace Sokoban

/-- The values of a type: truth values, or whole numbers between the bounds. -/
def VariableType.Admits : VariableType → Value → Prop
  | .bool, .bool _ => True
  | .bounded lower upper, .num q => ∃ n : Nat, q = n ∧ lower ≤ n ∧ n ≤ upper
  | _, _ => False

/-- All variables have values of their types. -/
def InTypes (vars : List Variable) (s : Valuation) : Prop :=
  ∀ x ∈ vars, ∃ v, s x.name = some v ∧ x.type.Admits v

namespace Expr

mutual

/-- The names of variables and constants in an expression. -/
def names : Expr → List String
  | bool _ | int _ | real _ => []
  | var name => [name]
  | conj es | disj es => namesAll es
  | neg e => names e
  | eq a b | ne a b | sub a b | mul a b | div a b => names a ++ names b
  | cond c yes no => names c ++ names yes ++ names no

/-- The names in several expressions. -/
def namesAll : List Expr → List String
  | [] => []
  | e :: rest => names e ++ namesAll rest

end

variable {vars : List Variable} {type : VariableType} {s : Valuation} {es operands : List Expr}
  {e c yes no : Expr} {name : String}

/-- An expression of a type over variables, built with the folding constructors. -/
inductive Built (vars : List Variable) : VariableType → Expr → Prop
  | bool (value : Bool) : Built vars .bool (bool value)
  | cell {lower upper n : Nat} (hlower : lower ≤ n) (hupper : n ≤ upper) :
      Built vars (.bounded lower upper) (nat n)
  | var {x : Variable} (hx : x ∈ vars) : Built vars x.type (var x.name)
  | here {x : Variable} {lower upper : Nat} (hx : x ∈ vars) (htype : x.type = .bounded lower upper)
      (n : Nat) : Built vars .bool (eq (var x.name) (nat n))
  | elsewhere {x : Variable} {lower upper : Nat} (hx : x ∈ vars) (htype : x.type = .bounded lower upper)
      (n : Nat) : Built vars .bool (ne (var x.name) (nat n))
  | all {es : List Expr} (h : ∀ e ∈ es, Built vars .bool e) : Built vars .bool (all es)
  | any {es : List Expr} (h : ∀ e ∈ es, Built vars .bool e) : Built vars .bool (any es)
  | not {e : Expr} (h : Built vars .bool e) : Built vars .bool (not e)
  | ite {type : VariableType} {c yes no : Expr} (hc : Built vars .bool c) (hyes : Built vars type yes)
      (hno : Built vars type no) : Built vars type (ite c yes no)

/-- Two operands make a conjunction. -/
theorem Built.all_pair {a b : Expr} (ha : Built vars .bool a) (hb : Built vars .bool b) :
    Built vars .bool (Expr.all [a, b]) :=
  .all (by simp [ha, hb])

theorem Built.any_pair {a b : Expr} (ha : Built vars .bool a) (hb : Built vars .bool b) :
    Built vars .bool (Expr.any [a, b]) :=
  .any (by simp [ha, hb])

/-! ## Names -/

/-- The names in several expressions are those in one of them. -/
theorem mem_namesAll : name ∈ namesAll es ↔ ∃ e ∈ es, name ∈ e.names := by
  induction es with
  | nil => simp [namesAll]
  | cons e es ih => simp [namesAll, ih]

/-- What comes from operands has no other names than they have.  A nested connective has the names
of its own operands, so it does not matter whether it is flattened. -/
theorem ComesFrom.mem_namesAll {stays : Expr → Bool} {nested : List Expr → Expr}
    (h : ComesFrom stays nested es e) (hnested : ∀ inner, (nested inner).names = namesAll inner)
    (hname : name ∈ e.names) : name ∈ namesAll es := by
  rcases h with ⟨hes, -⟩ | ⟨inner, hes, he⟩
  · exact Expr.mem_namesAll.mpr ⟨e, hes, hname⟩
  · have hinner : name ∈ (nested inner).names := by
      rw [hnested]
      exact Expr.mem_namesAll.mpr ⟨e, he, hname⟩
    exact Expr.mem_namesAll.mpr ⟨nested inner, hes, hinner⟩

/-- Flattening a conjunction adds no names. -/
theorem mem_namesAll_conjuncts (h : conjuncts es = some operands)
    (hname : name ∈ namesAll operands) : name ∈ namesAll es := by
  obtain ⟨e, he, hmem⟩ := mem_namesAll.mp hname
  exact (comesFrom_of_mem_conjuncts h he).mem_namesAll (fun inner => by rw [names]) hmem

theorem mem_namesAll_disjuncts (h : disjuncts es = some operands)
    (hname : name ∈ namesAll operands) : name ∈ namesAll es := by
  obtain ⟨e, he, hmem⟩ := mem_namesAll.mp hname
  exact (comesFrom_of_mem_disjuncts h he).mem_namesAll (fun inner => by rw [names]) hmem

/-- Folding a conjunction adds no names.  What is left is a truth value, one of the operands, or a
conjunction of some of them. -/
theorem mem_names_all (h : name ∈ (all es).names) : name ∈ namesAll es := by
  unfold all at h
  split at h
  next => cases h
  next => cases h
  next e hes => exact mem_namesAll_conjuncts hes (by simpa [namesAll] using h)
  next hes => exact mem_namesAll_conjuncts hes (by simpa [names] using h)

/-- Folding a disjunction adds no names, whichever of these three is left of it. -/
theorem mem_names_any (h : name ∈ (any es).names) : name ∈ namesAll es := by
  unfold any at h
  split at h
  next => cases h
  next => cases h
  next e hes => exact mem_namesAll_disjuncts hes (by simpa [namesAll] using h)
  next hes => exact mem_namesAll_disjuncts hes (by simpa [names] using h)

/-- Folding a negation adds no names. -/
theorem mem_names_not (h : name ∈ (not e).names) : name ∈ e.names := by
  unfold not at h
  split at h
  next => cases h
  next => exact h
  next => exact h

/-- Folding a choice adds no names.  Some may go with a branch that is not taken, so this is no
equation. -/
theorem mem_names_ite (h : name ∈ (ite c yes no).names) :
    name ∈ c.names ∨ name ∈ yes.names ∨ name ∈ no.names := by
  unfold ite at h
  split at h
  next => exact .inr (.inl h)
  next => exact .inr (.inr h)
  next =>
    split at h
    next => exact .inr (.inl h)
    next => simpa [names, or_assoc] using h

/-- **The names** in what is built are those of variables.  By induction on the rules: a rule that
names something names a variable of the model, and the folding constructors add no names. -/
theorem Built.names (h : Built vars type e) : ∀ name ∈ e.names, ∃ x ∈ vars, x.name = name := by
  induction h with
  | bool value => exact nofun
  | cell => exact nofun
  | @var x hx => simpa [Expr.names] using ⟨x, hx, rfl⟩
  | @here x _ _ hx _ n => simpa [Expr.names, nat] using ⟨x, hx, rfl⟩
  | @elsewhere x _ _ hx _ n => simpa [Expr.names, nat] using ⟨x, hx, rfl⟩
  | all _ ih =>
      intro name hname
      obtain ⟨e, he, hmem⟩ := mem_namesAll.mp (mem_names_all hname)
      exact ih e he name hmem
  | any _ ih =>
      intro name hname
      obtain ⟨e, he, hmem⟩ := mem_namesAll.mp (mem_names_any hname)
      exact ih e he name hmem
  | not _ ih => exact fun name hname => ih name (mem_names_not hname)
  | ite _ _ _ ihc ihyes ihno =>
      intro name hname
      rcases mem_names_ite hname with hc | hyes | hno
      · exact ihc name hc
      · exact ihyes name hyes
      · exact ihno name hno

/-! ## Values -/

/-- The values of a flag are truth values. -/
theorem admits_bool {v : Value} (h : VariableType.bool.Admits v) : ∃ b, v = .bool b := by
  cases v with
  | bool b => exact ⟨b, rfl⟩
  | num q => exact absurd h id

/-- A variable between bounds can be compared with any cell, whether or not the cell is between the
bounds.  So a guard may ask for a cell that the variable never takes. -/
theorem exists_eval_compare {x : Variable} {lower upper : Nat} (hs : InTypes vars s) (hx : x ∈ vars)
    (htype : x.type = .bounded lower upper) : ∃ m : Nat, s x.name = some (.num m) := by
  obtain ⟨v, hv, hadmits⟩ := hs x hx
  rw [htype] at hadmits
  cases v with
  | bool b => exact absurd hadmits id
  | num q =>
      obtain ⟨m, rfl, -⟩ := hadmits
      exact ⟨m, hv⟩

/-- Operands that all have truth values settle a conjunction and a disjunction, since every one of
them can be read. -/
theorem exists_eval_operands (h : ∀ e ∈ es, ∃ b, eval s e = some (.bool b)) :
    (∃ b, eval s (Expr.all es) = some (.bool b)) ∧ ∃ b, eval s (Expr.any es) = some (.bool b) := by
  choose! holds hholds using h
  have hes : es.map id = es := List.map_id es
  refine ⟨⟨es.all holds, ?_⟩, ⟨es.any holds, ?_⟩⟩
  · rw [← eval_all_map (f := id) hholds, hes]
  · rw [← eval_any_map (f := id) hholds, hes]

/-- **The value** of what is built exists, and is of the type, wherever the variables have values of
their types.  Nothing is divided, and only variables between bounds are compared with cells. -/
theorem Built.exists_eval (h : Built vars type e) (hs : InTypes vars s) :
    ∃ v, eval s e = some v ∧ type.Admits v := by
  have hbool : ∀ {e : Expr}, (∃ v, eval s e = some v ∧ VariableType.bool.Admits v) →
      ∃ b, eval s e = some (.bool b) := by
    intro e h
    obtain ⟨v, hv, hadmits⟩ := h
    obtain ⟨b, rfl⟩ := admits_bool hadmits
    exact ⟨b, hv⟩
  induction h with
  | bool value => exact ⟨_, rfl, trivial⟩
  | @cell lower upper n hlower hupper =>
      exact ⟨.num n, by simp [nat, eval], n, rfl, hlower, hupper⟩
  | var hx => exact hs _ hx
  | here hx htype n =>
      obtain ⟨m, hm⟩ := exists_eval_compare hs hx htype
      exact ⟨_, eval_eq_nat hm n, trivial⟩
  | elsewhere hx htype n =>
      obtain ⟨m, hm⟩ := exists_eval_compare hs hx htype
      exact ⟨_, eval_ne_nat hm n, trivial⟩
  | all _ ih =>
      obtain ⟨⟨b, hb⟩, -⟩ := exists_eval_operands fun e he => hbool (ih e he)
      exact ⟨_, hb, trivial⟩
  | any _ ih =>
      obtain ⟨-, b, hb⟩ := exists_eval_operands fun e he => hbool (ih e he)
      exact ⟨_, hb, trivial⟩
  | not _ ih =>
      obtain ⟨b, hb⟩ := hbool ih
      exact ⟨_, eval_not hb, trivial⟩
  | ite _ _ _ ihc ihyes ihno =>
      obtain ⟨b, hb⟩ := hbool ihc
      rw [eval_ite hb]
      cases b with
      | true => exact ihyes
      | false => exact ihno

/-! ## Folding -/

/-- **Nothing is left to be folded** in what is built.  Each constructor folds what it is given, and
what it is given is folded already. -/
theorem Built.folded (h : Built vars type e) : Folded e := by
  induction h with
  | bool value => exact .bool value
  | cell => exact .int _
  | var => exact .var _
  | here => exact .eq (.var _) (.int _)
  | elsewhere => exact .ne (.var _) (.int _)
  | all _ ih => exact .all ih
  | any _ ih => exact .any ih
  | not _ ih => exact ih.not
  | ite _ _ _ ihc ihyes ihno => exact ihc.ite ihyes ihno

end Expr

/-! ## Assignments -/

/-- Assignments to different variables, each of a value of the variable's type. -/
structure Assigns (vars : List Variable) (as : List Assignment) : Prop where
  nodup : (as.map Assignment.target).Nodup
  built : ∀ a ∈ as, ∃ x ∈ vars, a.target = x.name ∧ Expr.Built vars x.type a.value

variable {vars : List Variable} {as : List Assignment} {x : Variable} {e : Expr}

/-- Assigning nothing. -/
theorem Assigns.nil (vars : List Variable) : Assigns vars [] :=
  ⟨List.nodup_nil, nofun⟩

/-- One assignment more in front, to a variable that is not assigned yet. -/
theorem Assigns.cons (h : Assigns vars as) (hx : x ∈ vars) (he : Expr.Built vars x.type e)
    (hnew : ∀ a ∈ as, a.target ≠ x.name) : Assigns vars (⟨x.name, e⟩ :: as) := by
  refine ⟨List.nodup_cons.mpr ⟨fun hmem => ?_, h.nodup⟩,
    List.forall_mem_cons.mpr ⟨⟨x, hx, rfl, he⟩, h.built⟩⟩
  obtain ⟨a, ha, htarget⟩ := List.mem_map.mp hmem
  exact hnew a ha htarget

/-- One assignment more at the end, to a variable that is not assigned yet. -/
theorem Assigns.concat (h : Assigns vars as) (hx : x ∈ vars) (he : Expr.Built vars x.type e)
    (hnew : ∀ a ∈ as, a.target ≠ x.name) : Assigns vars (as ++ [⟨x.name, e⟩]) := by
  have hcons := h.cons hx he hnew
  have hperm := List.perm_append_singleton (⟨x.name, e⟩ : Assignment) as
  exact ⟨(hperm.map _).nodup_iff.mpr hcons.nodup, fun a ha => hcons.built a (hperm.mem_iff.mp ha)⟩

/-- Conditional assignments are assignments: the value is a choice between the new one and the one
that is there, and both are of its type. -/
theorem Assigns.conditional (h : Assigns vars as) (he : Expr.Built vars .bool e) :
    Assigns vars (conditional e as) := by
  have htargets : (Sokoban.conditional e as).map Assignment.target = as.map Assignment.target := by
    rw [Sokoban.conditional, List.map_map]
    rfl
  refine ⟨htargets ▸ h.nodup, fun a ha => ?_⟩
  obtain ⟨b, hb, rfl⟩ := List.mem_map.mp ha
  obtain ⟨x, hx, htarget, hvalue⟩ := h.built b hb
  exact ⟨x, hx, htarget, .ite he hvalue (htarget ▸ .var hx)⟩

end Sokoban
