import Mathlib.Data.List.Forall2

/-! # Computations that can fail

Arithmetic on decimals can overflow, so shares and branches are computed in `Except`.  These facts
take such a computation apart into its steps, and put steps that succeed together.

A computation in steps succeeds when every step does, with what the steps before it have found
(`bind_eq_ok_iff`), and fails as the first step does that fails (`bind_eq_error_iff`).  The same is
said of a list of computations (`mapM_eq_ok_iff`, `mapM_eq_error`) and of a filter whose test can
fail (`filterM_eq_ok_filter`, `filterM_eq_error`).  Proofs about functions in `Except` go through
these equivalences and need not look into the functions they call.
-/

namespace Sokoban

variable {α β ε δ : Type}

/-- **Two steps succeed** when the first does and the second does with what the first has found.
This is how a computation is taken apart without opening the functions it is made of. -/
theorem bind_eq_ok_iff {x : Except ε α} {f : α → Except ε β} {b : β} :
    (x >>= f) = .ok b ↔ ∃ a, x = .ok a ∧ f a = .ok b := by
  cases x with
  | error fault =>
      constructor
      · intro h
        cases h
      · intro h
        obtain ⟨a, ha, -⟩ := h
        cases ha
  | ok a =>
      constructor
      · intro h
        exact ⟨a, rfl, h⟩
      · intro h
        obtain ⟨a', ha, h⟩ := h
        cases ha
        exact h

/-- **Two steps fail** with the first fault that comes up: the first step's, or else the second's.
-/
theorem bind_eq_error_iff {x : Except ε α} {f : α → Except ε β} {fault : ε} :
    (x >>= f) = .error fault ↔ x = .error fault ∨ ∃ a, x = .ok a ∧ f a = .error fault := by
  cases x with
  | error other =>
      constructor
      · intro h
        exact .inl (congrArg Except.error (Except.error.inj h))
      · intro h
        rcases h with h | ⟨a, ha, -⟩
        · exact congrArg Except.error (Except.error.inj h)
        · cases ha
  | ok a =>
      constructor
      · intro h
        exact .inr ⟨a, rfl, h⟩
      · intro h
        rcases h with h | ⟨a', ha, h⟩
        · cases h
        · cases ha
          exact h

/-- What needs no computation succeeds, with that result and no other. -/
theorem pure_eq_ok_iff {a b : α} : (pure a : Except ε α) = .ok b ↔ a = b :=
  ⟨fun h => Except.ok.inj h, fun h => congrArg Except.ok h⟩

/-- What is made of a result is there when the result is.  A fault stays the same fault, so nothing
can be made of it. -/
theorem map_eq_ok_iff {x : Except ε α} {f : α → β} {b : β} :
    x.map f = .ok b ↔ ∃ a, x = .ok a ∧ f a = b := by
  cases x with
  | error fault =>
      constructor
      · intro h
        cases h
      · intro h
        obtain ⟨a, ha, -⟩ := h
        cases ha
  | ok a =>
      constructor
      · intro h
        exact ⟨a, rfl, Except.ok.inj h⟩
      · intro h
        obtain ⟨a', ha, rfl⟩ := h
        cases ha
        rfl

/-- Reporting faults in another way makes no difference to what succeeds.  So faults are put in the
words of the caller without touching what is known of results. -/
theorem mapError_eq_ok_iff {x : Except ε α} {f : ε → δ} {a : α} :
    x.mapError f = .ok a ↔ x = .ok a := by
  cases x with
  | error fault =>
      constructor <;>
      · intro h
        cases h
  | ok b =>
      constructor <;>
      · intro h
        exact congrArg Except.ok (Except.ok.inj h)

/-- A reported fault comes from a fault of the computation.  The report is all that is new about it.
-/
theorem mapError_eq_error_iff {x : Except ε α} {report : ε → δ} {reported : δ} :
    x.mapError report = .error reported ↔ ∃ fault, x = .error fault ∧ report fault = reported := by
  cases x with
  | error fault =>
      constructor
      · intro h
        exact ⟨fault, rfl, Except.error.inj h⟩
      · intro h
        obtain ⟨other, hother, rfl⟩ := h
        cases hother
        rfl
  | ok a =>
      constructor
      · intro h
        cases h
      · intro h
        obtain ⟨fault, hfault, -⟩ := h
        cases hfault

/-- A computation that succeeds has a result of its kind. -/
theorem exists_ok_of_any {x : Except ε α} {p : α → Bool} (h : x.toOption.any p) :
    ∃ a, x = .ok a ∧ p a := by
  cases x with
  | error fault => cases h
  | ok a => exact ⟨a, rfl, h⟩

variable {f : α → Except ε β} {xs : List α} {ys : List β}

/-- **A list of computations succeeds** when each of them does, and then the results stand in the
same order.  As a relation between two lists this can be taken apart item by item. -/
theorem mapM_eq_ok_iff : xs.mapM f = .ok ys ↔ List.Forall₂ (fun x y => f x = .ok y) xs ys := by
  induction xs generalizing ys with
  | nil => rw [List.mapM_nil, pure_eq_ok_iff, List.forall₂_nil_left_iff, eq_comm]
  | cons x xs ih =>
      rw [List.mapM_cons, List.forall₂_cons_left_iff, bind_eq_ok_iff]
      constructor
      · intro h
        obtain ⟨y, hy, hrest⟩ := h
        obtain ⟨rest, hxs, heq⟩ := bind_eq_ok_iff.mp hrest
        exact ⟨y, rest, hy, ih.mp hxs, (pure_eq_ok_iff.mp heq).symm⟩
      · intro h
        obtain ⟨y, rest, hy, hxs, heq⟩ := h
        exact ⟨y, hy, bind_eq_ok_iff.mpr ⟨rest, ih.mpr hxs, pure_eq_ok_iff.mpr heq.symm⟩⟩

/-- Computations that succeed one by one succeed together, and what is known of each of the results
is known of the list of them. -/
theorem exists_mapM_ok {P : α → β → Prop} (h : ∀ x ∈ xs, ∃ y, f x = .ok y ∧ P x y) :
    ∃ ys, xs.mapM f = .ok ys ∧ List.Forall₂ P xs ys := by
  induction xs with
  | nil => exact ⟨[], rfl, .nil⟩
  | cons x xs ih =>
      obtain ⟨y, hy, hp⟩ := h x List.mem_cons_self
      obtain ⟨rest, hrest, hps⟩ := ih fun z hz => h z (List.mem_cons_of_mem x hz)
      rw [mapM_eq_ok_iff] at hrest
      exact ⟨y :: rest, mapM_eq_ok_iff.mpr (.cons hy hrest), .cons hp hps⟩

/-- Every item of the second list belongs to one of the first, since the lists are equally long. -/
theorem exists_of_forall₂ {R : α → β → Prop} (h : List.Forall₂ R xs ys) {y : β} (hy : y ∈ ys) :
    ∃ x ∈ xs, R x y := by
  induction h with
  | nil => cases hy
  | cons hx _ ih =>
      rcases List.mem_cons.mp hy with rfl | hmem
      · exact ⟨_, List.mem_cons_self, hx⟩
      · obtain ⟨x, hxs, hfx⟩ := ih hmem
        exact ⟨x, List.mem_cons_of_mem _ hxs, hfx⟩

/-- Every result comes from one of the computations. -/
theorem exists_of_mem_mapM (h : xs.mapM f = .ok ys) {y : β} (hy : y ∈ ys) :
    ∃ x ∈ xs, f x = .ok y :=
  exists_of_forall₂ (mapM_eq_ok_iff.mp h) hy

/-- Computations whose results are known in advance amount to a function without faults.  This is
how a checked definition is compared with the plain one. -/
theorem mapM_eq_ok_map {g : α → β} (h : ∀ x ∈ xs, f x = .ok (g x)) :
    xs.mapM f = .ok (xs.map g) := by
  induction xs with
  | nil => rfl
  | cons x xs ih =>
      have hrest := ih fun z hz => h z (List.mem_cons_of_mem x hz)
      rw [mapM_eq_ok_iff] at hrest ⊢
      exact .cons (h x List.mem_cons_self) hrest

/-- **A list of computations fails** with the first of them that fails.  Those before it have to
succeed, and those behind it are never reached. -/
theorem mapM_eq_error {p : α → Bool} {x : α} {fault : ε} (hfirst : xs.find? p = some x)
    (hok : ∀ z ∈ xs, p z = false → ∃ y, f z = .ok y) (hfault : f x = .error fault) :
    xs.mapM f = .error fault := by
  induction xs with
  | nil => cases hfirst
  | cons z xs ih =>
      rw [List.mapM_cons]
      cases hz : p z with
      | true =>
          obtain rfl : z = x := Option.some.inj ((List.find?_cons_of_pos hz).symm.trans hfirst)
          rw [hfault]
          rfl
      | false =>
          obtain ⟨y, hy⟩ := hok z List.mem_cons_self hz
          rw [List.find?_cons_of_neg (by simp [hz])] at hfirst
          rw [hy, ih hfirst fun w hw => hok w (List.mem_cons_of_mem z hw)]
          rfl

/-- A filter whose tests succeed keeps the items that pass, in their order.  It is the plain filter
then, and what is known of filters in lists can be used. -/
theorem filterM_eq_ok_filter {test : α → Except ε Bool} {p : α → Bool}
    (h : ∀ x ∈ xs, test x = .ok (p x)) : xs.filterM test = .ok (xs.filter p) := by
  -- The items that have passed so far are kept in reverse order.
  have hkept : ∀ kept, xs.filterAuxM test kept = .ok ((xs.filter p).reverse ++ kept) := by
    induction xs with
    | nil => exact fun kept => rfl
    | cons x xs ih =>
        intro kept
        have hrest := ih fun z hz => h z (List.mem_cons_of_mem x hz)
        rw [List.filterAuxM, h x List.mem_cons_self]
        refine (hrest _).trans ?_
        cases hp : p x <;> simp [hp]
  rw [List.filterM, hkept []]
  simp

/-- What related items have in common, the lists have in common. -/
theorem map_eq_of_forall₂ {γ : Type} {R : α → β → Prop} {g : α → γ} {k : β → γ}
    (h : List.Forall₂ R xs ys) (hkeep : ∀ x y, R x y → k y = g x) : ys.map k = xs.map g := by
  induction h with
  | nil => rfl
  | cons hx _ ih => rw [List.map_cons, List.map_cons, hkeep _ _ hx, ih]

/-- A filter that drops nothing relates the lists item by item. -/
theorem forall₂_filterMap {R : α → β → Prop} {f : α → Option β}
    (h : ∀ x ∈ xs, ∃ y, f x = some y ∧ R x y) : List.Forall₂ R xs (xs.filterMap f) := by
  induction xs with
  | nil => exact .nil
  | cons x xs ih =>
      obtain ⟨y, hy, hxy⟩ := h x List.mem_cons_self
      rw [List.filterMap_cons_some hy]
      exact .cons hxy (ih fun z hz => h z (List.mem_cons_of_mem x hz))

end Sokoban
