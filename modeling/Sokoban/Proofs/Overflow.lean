import Mathlib.Data.List.TakeWhile
import Sokoban.Proofs.Decimal.Overflow
import Sokoban.Proofs.Probability

/-! # Weights that are too large

Decimals are bounded, and nothing bounds the weights that a probability map is made of.  So there
are weights that cannot be added up, and it is said here which ones (`ProbabilityMap.TooLarge`): those
of one label, which are added before anything else, or the sums of the labels, which are added to a
total.  A negative weight is an error by itself, and what stands behind it is not added any more.

Nothing else can go wrong with the arithmetic (`ProbabilityMap.arithmetic_iff`).  A weight is not
larger than the total that it is part of, so no quotient overflows.
-/

namespace Sokoban

namespace ProbabilityMap

open Decimal (Fault Overflows)

variable {entry : Label × Decimal} {entries : List (Label × Decimal)} {weights : Weights}
  {weight : Label → Decimal} {label : Label} {sum total : Decimal} {fault : Fault}

/-- What the entries have for a label, in their order. -/
def amounts (entries : List (Label × Decimal)) (label : Label) : List Decimal :=
  (entries.filter (·.1 = label)).map (·.2)

/-- The entries up to the first whose weight is below nought.  An entry with such a weight ends the
reading, so nothing behind it can overflow. -/
def counted (entries : List (Label × Decimal)) : List (Label × Decimal) :=
  entries.takeWhile (!·.2.isNegative)

/-- The weights of one label cannot be added up; or no weight is below nought, and the sums of the
labels cannot be added up.  The order of the two is that of the program, which adds to the labels
first. -/
def TooLarge (entries : List (Label × Decimal)) : Prop :=
  (∃ label, Overflows (amounts (counted entries) label)) ∨
    (∀ entry ∈ entries, entry.2.isNegative = false) ∧ ∃ weight : Label → Decimal,
      (∀ label, Decimal.sum (amounts entries label) = .ok (weight label)) ∧
        Overflows (Label.all.map weight)

/-- An entry is among the weights of its own label and of no other. -/
theorem amounts_cons : amounts (entry :: entries) label =
    if entry.1 = label then entry.2 :: amounts entries label else amounts entries label := by
  unfold amounts
  split <;> simp [*]

/-- An entry that is not negative is counted, and the others behind it are counted as before. -/
theorem counted_cons (h : entry.2.isNegative = false) :
    counted (entry :: entries) = entry :: counted entries :=
  List.takeWhile_cons_of_pos (by simp [h])

/-- If no entry is negative, no weight of a label is. -/
theorem nonneg_of_mem_amounts {d : Decimal} (h : ∀ entry ∈ entries, entry.2.isNegative = false)
    (hd : d ∈ amounts entries label) : 0 ≤ d.value := by
  obtain ⟨entry, hentry, rfl⟩ := List.mem_map.mp hd
  exact Decimal.isNegative_eq_false_iff.mp (h entry (List.mem_of_mem_filter hentry))

/-- Among the entries that are counted none is negative. -/
theorem isNegative_of_mem_counted (h : entry ∈ counted entries) : entry.2.isNegative = false := by
  simpa using List.mem_takeWhile_imp h

/-! ## One entry -/

/-- A weight for each label, in their order.  All the maps of weights that come up while entries are
added have this form, so that the function tells which one it is. -/
def table (weight : Label → Decimal) : Weights :=
  Label.all.map fun label => (label, weight label)

/-- An entry is added to the weight of its label only; the weights of the others are copied.  Since
labels are different from each other, exactly one of the additions is made. -/
theorem addEntry_table_eq_mapM (hsign : entry.2.isNegative = false) :
    addEntry (table weight) entry = Label.all.mapM fun label =>
      if label = entry.1 then
        (((weight label).add entry.2).map (label, ·)).mapError .arithmetic
      else
        .ok (label, weight label) := by
  rw [addEntry, if_neg (by simp [hsign]), table, List.mapM_map]
  rfl

/-- An entry changes the weight of its label.  What comes out is a table again, so the next entry
can be added in the same way. -/
theorem addEntry_table (hsign : entry.2.isNegative = false)
    (hsum : (weight entry.1).add entry.2 = .ok sum) :
    addEntry (table weight) entry = .ok (table (Function.update weight entry.1 sum)) := by
  rw [addEntry_table_eq_mapM hsign]
  refine mapM_eq_ok_map fun label _ => ?_
  by_cases hlabel : label = entry.1
  · subst hlabel
    rw [if_pos rfl, hsum, Function.update_self]
    rfl
  · rw [if_neg hlabel, Function.update_of_ne hlabel]

/-- An entry that cannot be added to the weight of its label is an error, and it is the fault of the
addition that is reported. -/
theorem addEntry_table_error (hsign : entry.2.isNegative = false)
    (hsum : (weight entry.1).add entry.2 = .error fault) :
    addEntry (table weight) entry = .error (.arithmetic fault) := by
  have hfirst : Label.all.find? (fun label => label = entry.1) = some entry.1 := by
    cases entry.1 with
    | toward dir => cases dir <;> rfl
    | drift => rfl
  rw [addEntry_table_eq_mapM hsign]
  refine mapM_eq_error hfirst (fun label _ hother => ?_) ?_
  · exact ⟨(label, weight label), if_neg (by simpa using hother)⟩
  · rw [if_pos rfl, hsum]
    rfl

/-! ## All entries -/

/-- The first entry of a label is added before the others.  For every other label the update changes
nothing, and the entry is not among its weights. -/
theorem foldlM_amounts_cons (hsum : (weight entry.1).add entry.2 = .ok sum) (label : Label) :
    (amounts (entry :: entries) label).foldlM Decimal.add (weight label) =
      (amounts entries label).foldlM Decimal.add (Function.update weight entry.1 sum label) := by
  rw [amounts_cons]
  by_cases hlabel : entry.1 = label
  · subst hlabel
    rw [if_pos rfl, List.foldlM_cons, hsum, Function.update_self]
    rfl
  · rw [if_neg hlabel, Function.update_of_ne (Ne.symm hlabel)]

/-- **Entries are added** if none is negative and those of each label can be.  The labels do not
interfere: adding entries in their order comes to the same as adding those of each label by
themselves. -/
theorem foldlM_addEntry_eq_ok_iff :
    entries.foldlM addEntry (table weight) = .ok weights ↔
      (∀ entry ∈ entries, entry.2.isNegative = false) ∧ ∃ after : Label → Decimal,
        (∀ label, (amounts entries label).foldlM Decimal.add (weight label) = .ok (after label)) ∧
          table after = weights := by
  induction entries generalizing weight with
  | nil =>
      constructor
      · intro h
        exact ⟨by simp, weight, fun _ => rfl, Except.ok.inj h⟩
      · rintro ⟨-, after, hafter, rfl⟩
        obtain rfl : weight = after := funext fun label => Except.ok.inj (hafter label)
        rfl
  | cons entry entries ih =>
      rw [List.foldlM_cons, List.forall_mem_cons, bind_eq_ok_iff]
      cases hsign : entry.2.isNegative with
      | true => simp [addEntry, hsign]
      | false =>
          cases hsum : (weight entry.1).add entry.2 with
          | error fault =>
              constructor
              · rintro ⟨next, hnext, -⟩
                rw [addEntry_table_error hsign hsum] at hnext
                cases hnext
              · rintro ⟨-, after, hafter, -⟩
                have hlabel := hafter entry.1
                rw [amounts_cons, if_pos rfl, List.foldlM_cons, hsum] at hlabel
                cases hlabel
          | ok sum =>
              simp only [addEntry_table hsign hsum, foldlM_amounts_cons hsum, Except.ok.injEq,
                exists_eq_left', ih, true_and]

/-- **Entries cannot be added** if those of one label cannot.  Only the entries that are counted can
be to blame, since a negative weight is an error of its own. -/
theorem foldlM_addEntry_eq_arithmetic_iff :
    entries.foldlM addEntry (table weight) = .error (.arithmetic fault) ↔
      fault = .additionOverflow ∧ ∃ label,
        (amounts (counted entries) label).foldlM Decimal.add (weight label) =
          .error .additionOverflow := by
  induction entries generalizing weight with
  | nil => simp [counted, amounts, pure, Except.pure]
  | cons entry entries ih =>
      rw [List.foldlM_cons, bind_eq_error_iff]
      cases hsign : entry.2.isNegative with
      | true => simp [addEntry, hsign, counted, amounts, pure, Except.pure]
      | false =>
          rw [counted_cons hsign]
          cases hsum : (weight entry.1).add entry.2 with
          | error other =>
              obtain rfl := Decimal.eq_additionOverflow_of_add hsum
              have hlabel : (amounts (entry :: counted entries) entry.1).foldlM Decimal.add
                  (weight entry.1) = .error .additionOverflow := by
                rw [amounts_cons, if_pos rfl, List.foldlM_cons, hsum]
                rfl
              rw [addEntry_table_error hsign hsum]
              constructor
              · rintro (h | ⟨next, hnext, -⟩)
                · cases h
                  exact ⟨rfl, entry.1, hlabel⟩
                · cases hnext
              · rintro ⟨rfl, -⟩
                exact .inl rfl
          | ok sum =>
              simp only [addEntry_table hsign hsum, foldlM_amounts_cons hsum, Except.ok.injEq,
                exists_eq_left', ih, reduceCtorEq, false_or]

/-! ## Maps -/

/-- The weights of a table, in the order of the labels, are what the total is taken of. -/
theorem map_snd_table : (table weight).map (·.2) = Label.all.map weight := by
  rw [table, List.map_map]
  rfl

/-- The criterion for running sums applies to the weights that are counted, as none of them is
negative. -/
theorem sum_counted_eq_error_iff :
    Decimal.sum (amounts (counted entries) label) = .error fault ↔
      fault = .additionOverflow ∧ Overflows (amounts (counted entries) label) :=
  Decimal.sum_eq_error_iff fun _ hd =>
    nonneg_of_mem_amounts (fun _ hentry => isNegative_of_mem_counted hentry) hd

/-- The sums of the labels are not negative, for a sum is not below what it adds up. -/
theorem nonneg_of_sum_amounts (hsign : ∀ entry ∈ entries, entry.2.isNegative = false)
    (hweight : ∀ label, Decimal.sum (amounts entries label) = .ok (weight label)) :
    ∀ d ∈ Label.all.map weight, 0 ≤ d.value := by
  intro d hd
  obtain ⟨label, -, rfl⟩ := List.mem_map.mp hd
  exact (Decimal.le_of_sum (fun _ hd => nonneg_of_mem_amounts hsign hd) (hweight label)).1

/-- **No weight is too large** to be divided by the total.  It is part of the total, so the quotient
is at most one. -/
theorem exists_scaled (hnonneg : ∀ d ∈ Label.all.map weight, 0 ≤ d.value)
    (htotal : Decimal.sum (Label.all.map weight) = .ok total) (hsome : ¬ total.isZero) :
    ∃ scaled, (table weight).mapM (fun w => ((w.2.div total).map (w.1, ·)).mapError
      ProbabilityError.arithmetic) = .ok scaled := by
  have hpos : 0 < total.value := lt_of_le_of_ne (Decimal.le_of_sum hnonneg htotal).1
    fun heq => hsome (Decimal.isZero_iff.mpr heq.symm)
  have heach : ∀ w ∈ table weight, ∃ share,
      ((w.2.div total).map (w.1, ·)).mapError ProbabilityError.arithmetic = .ok share ∧ True := by
    intro w hw
    obtain ⟨label, hlabel, rfl⟩ := List.mem_map.mp hw
    obtain ⟨q, hq, -⟩ := exists_quotient hnonneg htotal hpos (List.mem_map_of_mem hlabel)
    exact ⟨(label, q), mapError_eq_ok_iff.mpr (map_eq_ok_iff.mpr ⟨q, hq, rfl⟩), trivial⟩
  obtain ⟨scaled, hscaled, -⟩ := exists_mapM_ok heach
  exact ⟨scaled, hscaled⟩

/-- The map of weights to which all entries have been added: the second half of `ofEntries`, by
itself. -/
def scale (weights : Weights) : Except ProbabilityError ProbabilityMap := do
  let total ← (Decimal.sum (weights.map (·.2))).mapError .arithmetic
  if total.isZero then
    throw .zeroSum
  let scaled ← weights.mapM fun (label, weight) =>
    ((weight.div total).map (label, ·)).mapError .arithmetic
  return ⟨lookup scaled⟩

/-- A map is made by adding all entries and then dividing by the total.  Each half can fail by
itself. -/
theorem ofEntries_eq_scale (entries : List (Label × Decimal)) :
    ofEntries entries = entries.foldlM addEntry (table fun _ => .zero) >>= scale := rfl

/-- Only the total can be too large; the quotients by it are at most one.  A total of nought is
another error, which comes before any division. -/
theorem scale_eq_arithmetic_iff (hnonneg : ∀ d ∈ Label.all.map weight, 0 ≤ d.value) :
    scale (table weight) = .error (.arithmetic fault) ↔
      fault = .additionOverflow ∧ Overflows (Label.all.map weight) := by
  rw [scale, bind_eq_error_iff, map_snd_table, ← Decimal.sum_eq_error_iff hnonneg]
  constructor
  · rintro (htotal | ⟨total, htotal, hrest⟩)
    · obtain ⟨other, hother, hreport⟩ := mapError_eq_error_iff.mp htotal
      cases hreport
      exact hother
    · exfalso
      by_cases hnone : total.isZero
      · rw [if_pos hnone] at hrest
        cases hrest
      · rw [if_neg hnone] at hrest
        obtain ⟨scaled, hscaled⟩ := exists_scaled hnonneg (mapError_eq_ok_iff.mp htotal) hnone
        rcases bind_eq_error_iff.mp hrest with hfault | ⟨scaled, -, hfault⟩
        · cases hscaled.symm.trans hfault
        · cases hfault
  · intro htotal
    exact .inl (mapError_eq_error_iff.mpr ⟨fault, htotal, rfl⟩)

/-- **The arithmetic of a map** fails of weights that are too large, and of nothing else.  The first
case of `TooLarge` is the failure of the first half and the second that of the second. -/
theorem ofEntries_eq_arithmetic_iff :
    ofEntries entries = .error (.arithmetic fault) ↔
      fault = .additionOverflow ∧ TooLarge entries := by
  rw [ofEntries_eq_scale, bind_eq_error_iff, foldlM_addEntry_eq_arithmetic_iff]
  constructor
  · rintro (⟨rfl, label, hlabel⟩ | ⟨weights, hweights, hscale⟩)
    · exact ⟨rfl, .inl ⟨label, (sum_counted_eq_error_iff.mp hlabel).2⟩⟩
    · obtain ⟨hsign, weight, hweight, rfl⟩ := foldlM_addEntry_eq_ok_iff.mp hweights
      have hnonneg := nonneg_of_sum_amounts hsign hweight
      obtain ⟨hcause, hlarge⟩ := (scale_eq_arithmetic_iff hnonneg).mp hscale
      exact ⟨hcause, .inr ⟨hsign, weight, hweight, hlarge⟩⟩
  · rintro ⟨rfl, ⟨label, hlabel⟩ | ⟨hsign, weight, hweight, hlarge⟩⟩
    · exact .inl ⟨rfl, label, sum_counted_eq_error_iff.mpr ⟨rfl, hlabel⟩⟩
    · have hnonneg := nonneg_of_sum_amounts hsign hweight
      refine .inr ⟨table weight, ?_, (scale_eq_arithmetic_iff hnonneg).mpr ⟨rfl, hlarge⟩⟩
      exact foldlM_addEntry_eq_ok_iff.mpr ⟨hsign, weight, hweight, rfl⟩

/-! ## Texts -/

/-- Reading an item adds nothing, so it reports no fault of the arithmetic. -/
theorem entryOfItem_ne_arithmetic (seen : List Label) (item : List Char) :
    entryOfItem seen item ≠ .error (.arithmetic fault) := by
  unfold entryOfItem
  repeat' split
  all_goals simp

/-- Reading all items adds nothing either: any fault is that of an item.  Adding begins when all of
them have been read. -/
theorem entriesOfItems_ne_arithmetic (seen : List Label) (items : List (List Char)) :
    entriesOfItems seen items ≠ .error (.arithmetic fault) := by
  induction items generalizing seen with
  | nil => simp [entriesOfItems]
  | cons item items ih =>
      intro h
      rw [entriesOfItems] at h
      rcases bind_eq_error_iff.mp h with hitem | ⟨entry, -, h⟩
      · exact entryOfItem_ne_arithmetic seen item hitem
      · rcases bind_eq_error_iff.mp h with hrest | ⟨entries, -, h⟩
        · exact ih _ hrest
        · cases h

/-- **No map is made** of weights that are too large, whether they are entries or read from a text:
adding them up overflows.  The arithmetic of a map fails in no other way, since no quotient by the
total is above one, also where the total is rounded. -/
theorem arithmetic_iff (fault : Fault) :
    (∀ entries, ofEntries entries = .error (.arithmetic fault) ↔
      fault = .additionOverflow ∧ TooLarge entries) ∧
    ∀ text, ofText text = .error (.arithmetic fault) ↔
      fault = .additionOverflow ∧ ∃ entries, entriesOfItems [] (items text) = .ok entries ∧
        TooLarge entries := by
  refine ⟨fun entries => ofEntries_eq_arithmetic_iff, fun text => ?_⟩
  rw [ofText, bind_eq_error_iff]
  constructor
  · rintro (hitems | ⟨entries, hentries, hfault⟩)
    · exact absurd hitems (entriesOfItems_ne_arithmetic [] (items text))
    · obtain ⟨hcause, hlarge⟩ := ofEntries_eq_arithmetic_iff.mp hfault
      exact ⟨hcause, entries, hentries, hlarge⟩
  · rintro ⟨hcause, entries, hentries, hlarge⟩
    exact .inr ⟨entries, hentries, ofEntries_eq_arithmetic_iff.mpr ⟨hcause, hlarge⟩⟩

/-- Twice the largest decimal is beyond the limit.  The labels differ, so it is the total that
overflows. -/
theorem ofText_twice_largest :
    ofText "u=79228162514264337593543950335,d=79228162514264337593543950335".toList =
      .error (.arithmetic .additionOverflow) := by
  rfl

end ProbabilityMap

end Sokoban
