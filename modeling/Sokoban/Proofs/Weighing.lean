import Sokoban.Proofs.Probability
import Sokoban.Proofs.Turn

/-! # Weighing outcomes

In the fixed mode the branches of a cell are outcomes with shares.  Shares of nought are dropped,
and what is kept gets probabilities: a single outcome is certain, several ones are divided, and with
none at all the state stays (`Weighing`).  `exists_weighing` says that moderate shares can be
weighed, and that the encoding makes no difference: what is weighed are the outcomes, and only then
are they put into assignments.

The chances of weighed outcomes always sum to one (`Weighing.exists_chances`), because the last
share makes up for the others.  That each of them is above nought takes shares of a few units
(`Weighing.pos`): a share of one unit can be rounded to nought, and the last one can even fall below
it.
-/

namespace Sokoban.Commands

open Decimal (unit exactSum)

variable {shares init : List (Decimal × Outcome)} {share w : Decimal × Outcome}
  {scaled : List Decimal} {outcomes : List (Option Expr × Outcome)} {s : Valuation}

/-- Outcomes with shares, in an encoding. -/
def sharesOf (e : Encoding) (shares : List (Decimal × Outcome)) :
    List (Decimal × List Assignment) :=
  shares.map fun share => (share.1, share.2.assignments e)

/-- Outcomes with probabilities, from those with shares.  The probabilities are what the division of
the shares has given, one for each. -/
def scaledTo (scaled : List Decimal) (shares : List (Decimal × Outcome)) :
    List (Option Expr × Outcome) :=
  (shares.zip scaled).map fun share => (some (.real share.2), share.1.2)

/-- The shares that are not nought. -/
def kept (shares : List (Decimal × Outcome)) : List (Decimal × Outcome) :=
  shares.filter fun share => !share.1.isZero

/-- With nothing to do, the state stays.  A command needs an outcome. -/
def orStay (outcomes : List Outcome) : List Outcome :=
  if outcomes.isEmpty then [.stay] else outcomes

/-! ## Shares that are kept -/

/-- The shares that are kept of two lists are those of each. -/
theorem kept_append (shares others : List (Decimal × Outcome)) :
    kept (shares ++ others) = kept shares ++ kept others :=
  List.filter_append ..

/-- Of noughts none is kept. -/
theorem kept_eq_nil (h : ∀ share ∈ shares, share.1.value = 0) : kept shares = [] := by
  rw [kept, List.filter_eq_nil_iff]
  intro share hshare
  rw [Decimal.isZero_iff.mpr (h share hshare)]
  decide

/-- Of shares above nought all are kept. -/
theorem kept_eq_self (h : ∀ share ∈ shares, 0 < share.1.value) : kept shares = shares := by
  rw [kept, List.filter_eq_self]
  intro share hshare
  have hsome : ¬ share.1.isZero := fun hzero => (h share hshare).ne' (Decimal.isZero_iff.mp hzero)
  simpa using hsome

/-- What is kept is one of the shares. -/
theorem mem_of_mem_kept (h : share ∈ kept shares) : share ∈ shares :=
  List.mem_of_mem_filter h

/-- What is kept is above nought, if nothing is below it. -/
theorem pos_of_mem_kept (hnonneg : ∀ share ∈ shares, 0 ≤ share.1.value) (h : share ∈ kept shares) :
    0 < share.1.value := by
  obtain ⟨hmem, hkept⟩ := List.mem_filter.mp h
  refine lt_of_le_of_ne (hnonneg share hmem) fun hzero => ?_
  simp [Decimal.isZero_iff.mpr hzero.symm] at hkept

/-- Dropping noughts leaves the sum as it is, so what is kept has the total of all shares. -/
theorem exactSum_kept (shares : List (Decimal × Outcome)) :
    exactSum ((kept shares).map (·.1)) = exactSum (shares.map (·.1)) := by
  induction shares with
  | nil => rfl
  | cons share shares ih =>
      rw [List.map_cons, Decimal.exactSum_cons, ← ih, kept, List.filter_cons]
      cases hzero : share.1.isZero with
      | true => simp [kept, Decimal.isZero_iff.mp hzero]
      | false => simp [kept, Decimal.exactSum_cons]

/-- Dropping shares and putting outcomes into an encoding may be done in either order. -/
theorem filter_sharesOf (e : Encoding) (shares : List (Decimal × Outcome)) :
    (sharesOf e shares).filter (fun share => !share.1.isZero) = sharesOf e (kept shares) := by
  rw [sharesOf, List.filter_map]
  rfl

/-! ## Probabilities -/

/-- The probabilities of weighed outcomes, by themselves. -/
theorem map_fst_scaledTo (h : scaled.length = shares.length) :
    (scaledTo scaled shares).map (·.1) = scaled.map fun d => some (.real d) := by
  conv_rhs => rw [← List.map_snd_zip h.le]
  rw [scaledTo, List.map_map, List.map_map]
  rfl

/-- The outcomes of weighed outcomes, by themselves. -/
theorem map_snd_scaledTo (h : scaled.length = shares.length) :
    (scaledTo scaled shares).map (·.2) = shares.map (·.2) := by
  conv_rhs => rw [← List.map_fst_zip h.ge]
  rw [scaledTo, List.map_map, List.map_map]
  rfl

/-- The chances of weighed outcomes are the numbers that the probabilities stand for, in every
state. -/
theorem haveChances_scaledTo (s : Valuation) (h : scaled.length = shares.length) :
    HaveChances s ((scaledTo scaled shares).map (·.1)) (scaled.map Decimal.value) := by
  rw [map_fst_scaledTo h]
  exact haveChances_map fun _ _ => rfl

/-- The outcomes of shares that are kept, with their probabilities. -/
inductive Weighing : List (Decimal × Outcome) → List (Option Expr × Outcome) → Prop
  | stay : Weighing [] [(none, .stay)]
  | certain (share : Decimal × Outcome) : Weighing [share] [(none, share.2)]
  | divide {init : List (Decimal × Outcome)} {w : Decimal × Outcome} {others : List Decimal}
      {last : Decimal} (hshares : AreShares (init.map (·.1)) w.1 others last) :
      Weighing (init ++ [w]) (scaledTo (others ++ [last]) (init ++ [w]))

/-- There is a share for each outcome, so none is lost when the two are put together. -/
theorem length_concat_of_areShares {others : List Decimal} {last : Decimal}
    (h : AreShares (init.map (·.1)) w.1 others last) :
    (others ++ [last]).length = (init ++ [w]).length := by
  simp [h.length_eq]

/-! ## Branches -/

/-- Without a share that is kept there is one branch, which changes nothing. -/
theorem weightedBranches_of_none (h : kept shares = []) (e : Encoding) :
    weightedBranches (sharesOf e shares) = .ok ([(none, .stay)].map (branchOf e)) := by
  unfold weightedBranches
  rw [filter_sharesOf, h]
  rfl

/-- A single share that is kept makes a branch without a probability, however small it is. -/
theorem weightedBranches_of_one (h : kept shares = [share]) (e : Encoding) :
    weightedBranches (sharesOf e shares) = .ok ([(none, share.2)].map (branchOf e)) := by
  unfold weightedBranches
  rw [filter_sharesOf, h]
  rfl

/-- Several shares that are kept are divided by their total, and every branch gets a probability. -/
theorem weightedBranches_of_many (hmany : ∀ share, kept shares ≠ [share])
    (h : exactShares ((kept shares).map (·.1)) = .ok (some scaled)) (e : Encoding) :
    weightedBranches (sharesOf e shares) =
      .ok ((scaledTo scaled (kept shares)).map (branchOf e)) := by
  have hfst : (sharesOf e (kept shares)).map (·.1) = (kept shares).map (·.1) := by
    rw [sharesOf, List.map_map]
    rfl
  unfold weightedBranches
  rw [filter_sharesOf]
  split
  next hsingle =>
    obtain ⟨share, hshare, -⟩ := List.map_eq_singleton_iff.mp hsingle
    exact absurd hshare (hmany share)
  next =>
    rw [hfst, h]
    refine congrArg Except.ok ?_
    simp only [sharesOf, scaledTo, List.zip_map_left, List.map_map]
    rfl

/-- **Moderate shares** can be weighed, alike in every encoding.  By the number of shares that are
kept: none, one, or several, which have a total above nought and up to seven. -/
theorem exists_weighing (hnonneg : ∀ share ∈ shares, 0 ≤ share.1.value)
    (hroom : exactSum (shares.map (·.1)) ≤ 7) (hfew : shares.length ≤ 10 ^ 27) :
    ∃ outcomes, Weighing (kept shares) outcomes ∧
      ∀ e, weightedBranches (sharesOf e shares) = .ok (outcomes.map (branchOf e)) := by
  rcases List.eq_nil_or_concat' (kept shares) with hnone | ⟨init, w, hkept⟩
  · exact ⟨_, by rw [hnone]; exact .stay, weightedBranches_of_none hnone⟩
  · cases init with
    | nil => exact ⟨_, by rw [hkept]; exact .certain w, weightedBranches_of_one hkept⟩
    | cons first rest =>
        -- Several shares are divided by their total, which is above nought and moderate.
        have hmany : ∀ share, kept shares ≠ [share] := by
          intro share heq
          simp [hkept] at heq
        have hmap : (kept shares).map (·.1) = (first :: rest).map (·.1) ++ [w.1] := by
          rw [hkept, List.map_append, List.map_singleton]
        have hpos : ∀ d ∈ (kept shares).map (·.1), 0 < d.value := by
          intro d hd
          obtain ⟨share, hshare, rfl⟩ := List.mem_map.mp hd
          exact pos_of_mem_kept hnonneg hshare
        have hlength : ((first :: rest).map (·.1)).length ≤ 10 ^ 27 := by
          have hle : (kept shares).length ≤ shares.length := List.length_filter_le ..
          rw [hkept, List.length_append] at hle
          rw [List.length_map]
          omega
        rw [← exactSum_kept] at hroom
        rw [hmap] at hpos hroom
        obtain ⟨others, last, hshares, hare⟩ := exists_shares hpos hroom hlength
        refine ⟨_, ?_, weightedBranches_of_many hmany (hmap ▸ hshares)⟩
        rw [hkept]
        exact .divide hare

/-! ## Chances -/

namespace Weighing

/-- Weighing changes nothing about what the outcomes are: they are those that are kept, in their
order. -/
theorem outcomes_eq (h : Weighing shares outcomes) :
    outcomes.map (·.2) = orStay (shares.map (·.2)) := by
  cases h with
  | stay => rfl
  | certain share => rfl
  | divide hshares =>
      simp [map_snd_scaledTo (length_concat_of_areShares hshares), orStay]

/-- There is always an outcome. -/
theorem ne_nil (h : Weighing shares outcomes) : outcomes ≠ [] := by
  intro hnil
  have hmap := h.outcomes_eq
  rw [hnil, List.map_nil, orStay] at hmap
  split at hmap <;> simp_all

/-- Every outcome has a share, unless the state stays.  So whatever is known of the shares is known
of the outcomes. -/
theorem stay_or_mem (h : Weighing shares outcomes) :
    outcomes = [(none, .stay)] ∨ ∀ o ∈ outcomes, ∃ share ∈ shares, share.2 = o.2 := by
  cases h with
  | stay => exact .inl rfl
  | certain share =>
      right
      intro o ho
      obtain rfl := List.mem_singleton.mp ho
      exact ⟨share, List.mem_singleton_self _, rfl⟩
  | divide hshares =>
      right
      intro o ho
      rw [← List.mem_map, ← map_snd_scaledTo (length_concat_of_areShares hshares)]
      exact List.mem_map_of_mem ho

/-- **The chances of weighed outcomes** sum to one.  A single outcome is certain; several have
shares, and the last of those is what the others leave. -/
theorem exists_chances (h : Weighing shares outcomes) :
    ∃ chances, (∀ s, HaveChances s (outcomes.map (·.1)) chances) ∧ chances.sum = 1 := by
  cases h with
  | stay | certain share => exact ⟨[1], haveChances_certain, List.sum_singleton⟩
  | divide hshares =>
      exact ⟨_, fun s => haveChances_scaledTo s (length_concat_of_areShares hshares),
        hshares.sum_eq⟩

/-- **Shares of a few units** have chances above nought.  The total is about one, so nine halves of
a unit outweigh what up to eight other shares can be rounded by. -/
theorem pos (h : Weighing shares outcomes)
    (htotal : exactSum (shares.map (·.1)) ≤ 1 + 13 * unit)
    (hlarge : ∀ share ∈ shares, 9 / 2 * unit ≤ share.1.value) (hfew : shares.length ≤ 9)
    {chances : List ℚ} (hchances : HaveChances s (outcomes.map (·.1)) chances) :
    ∀ x ∈ chances, 0 < x := by
  cases h with
  | stay | certain share =>
      obtain rfl := hchances.unique (haveChances_certain s)
      simp
  | @divide init w others last hshares =>
      obtain rfl := hchances.unique (haveChances_scaledTo s (length_concat_of_areShares hshares))
      have hmap : (init ++ [w]).map (·.1) = init.map (·.1) ++ [w.1] := by
        rw [List.map_append, List.map_singleton]
      have hall : ∀ d ∈ (init ++ [w]).map (·.1), 9 / 2 * unit ≤ d.value := by
        intro d hd
        obtain ⟨share, hshare, rfl⟩ := List.mem_map.mp hd
        exact hlarge share hshare
      rw [hmap] at htotal hall
      have hlength : (init.map (·.1)).length ≤ 8 := by
        rw [List.length_append, List.length_singleton] at hfew
        rw [List.length_map]
        omega
      intro x hx
      obtain ⟨q, hq, rfl⟩ := List.mem_map.mp hx
      exact hshares.pos htotal hall hlength q hq

end Weighing

end Sokoban.Commands
