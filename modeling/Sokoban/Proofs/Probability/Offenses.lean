import Sokoban.Proofs.Decimal.Exactness
import Sokoban.Proofs.Probability.Items
import Sokoban.Proofs.Probability.Scaling

/-! # Items that offend, and items in another order

`Offends` lists what can be wrong with an item of a text, and the first item with something wrong is
the error of the text (`FirstOffense`).  Whether a second item for a label is wrong depends on the
items before it, so these are a parameter; whether a weight is negative is asked only after the
label has been found to be new, which is why the constructors exclude one another.

If nothing is wrong with any item, their order does not matter, nor do blanks or capitals
(`Rearranges`): every label has at most one item, so nothing is added up in the order of the text,
and the total is added up in the order of the labels.
-/

namespace Sokoban

namespace ProbabilityMap

open Text (Pads strip pads_strip)

variable {item other : List Char} {earlier pieces : List (List Char)} {label : Label}
  {seen : List Label} {entry : Label × Decimal} {entries others : List (Label × Decimal)}
  {error : ProbabilityError} {text rearranged : List Char}

/-! ## Offending items -/

/-- The item has the letter of the label in front of an equals sign. -/
def IsFor (item : List Char) (label : Label) : Prop :=
  ∃ key value, Cut item key value ∧ Names key label

/-- What is wrong with an item, where the items before it are known. -/
inductive Offends (earlier : List (List Char)) (item : List Char) : ProbabilityError → Prop
  | malformed (hcut : '=' ∉ item) : Offends earlier item (.malformed (.ofList item))
  | unknownKey (hcut : '=' ∈ item) (hkey : ∀ label, ¬ IsFor item label) :
      Offends earlier item (.unknownKey (.ofList item))
  | duplicateKey {label : Label} {other : List Char} (hkey : IsFor item label)
      (hother : other ∈ earlier) (hsame : IsFor other label) :
      Offends earlier item (.duplicateKey label.key)
  | invalidValue {key value : List Char} {label : Label} (hcut : Cut item key value)
      (hkey : Names key label) (hnew : ∀ other ∈ earlier, ¬ IsFor other label)
      (hvalue : Decimal.ofText? (strip value) = none) :
      Offends earlier item (.invalidValue (.ofList item))
  | negative {key value : List Char} {label : Label} {weight : Decimal} (hcut : Cut item key value)
      (hkey : Names key label) (hnew : ∀ other ∈ earlier, ¬ IsFor other label)
      (hvalue : Decimal.ofText? (strip value) = some weight) (hsign : weight.value < 0) :
      Offends earlier item (.negative (.ofList item))

/-- What is wrong with the first item that something is wrong with. -/
inductive FirstOffense : List (List Char) → List (List Char) → ProbabilityError → Prop
  | here {earlier rest : List (List Char)} {item : List Char} {error : ProbabilityError}
      (h : Offends earlier item error) : FirstOffense earlier (item :: rest) error
  | later {earlier rest : List (List Char)} {item : List Char} {error : ProbabilityError}
      (hgood : ∀ error, ¬ Offends earlier item error) (h : FirstOffense (item :: earlier) rest error) :
      FirstOffense earlier (item :: rest) error

/-- Something wrong with an item is never that there is no weight. -/
theorem FirstOffense.ne_zeroSum (h : FirstOffense earlier pieces error) : error ≠ .zeroSum := by
  induction h with
  | here h => cases h <;> nofun
  | later _ _ ih => exact ih

/-- An item that is cut is for the label that its key names. -/
theorem Cut.isFor_iff {key value : List Char} (hcut : Cut item key value) :
    IsFor item label ↔ Names key label := by
  constructor
  · rintro ⟨key', value', hcut', hkey⟩
    obtain ⟨rfl, -⟩ := hcut.unique hcut'
    exact hkey
  · exact fun hkey => ⟨key, value, hcut, hkey⟩

/-- A refused item offends.  The checks are made in their order, and each that fails is one of the
offenses, under the assumption that the checks before it have passed. -/
theorem offends_of_entryOfItem
    (hseen : ∀ label, label ∈ seen ↔ ∃ other ∈ earlier, IsFor other label)
    (h : entryOfItem seen item = .error error) : Offends earlier item error := by
  unfold entryOfItem at h
  split at h
  next hcut =>
    cases h
    exact .malformed (splitItem?_eq_none_iff.mp hcut)
  next key value hcut =>
    rw [splitItem?_eq_some_iff] at hcut
    split at h
    next hkey =>
      cases h
      rw [labelOfKey?_eq_none_iff] at hkey
      exact .unknownKey (exists_cut_iff.mp ⟨key, value, hcut⟩) fun label hfor =>
        hkey label (hcut.isFor_iff.mp hfor)
    next label hkey =>
      rw [labelOfKey?_eq_some_iff] at hkey
      split at h
      next hold =>
        cases h
        obtain ⟨other, hother, hsame⟩ := (hseen label).mp (by simpa using hold)
        exact .duplicateKey (hcut.isFor_iff.mpr hkey) hother hsame
      next hfresh =>
        have hfirst : ∀ other ∈ earlier, ¬ IsFor other label := fun other hother hsame =>
          absurd ((hseen label).mpr ⟨other, hother, hsame⟩) (by simpa using hfresh)
        split at h
        next hvalue =>
          cases h
          exact .invalidValue hcut hkey hfirst hvalue
        next weight hvalue =>
          split at h
          next hsign =>
            cases h
            exact .negative hcut hkey hfirst hvalue (Decimal.isNegative_iff.mp hsign)
          next => cases h

/-- An item that offends is refused for it.  An offense says how far the checks come, so in each case
those before the failing one can be carried out. -/
theorem entryOfItem_of_offends
    (hseen : ∀ label, label ∈ seen ↔ ∃ other ∈ earlier, IsFor other label)
    (h : Offends earlier item error) : entryOfItem seen item = .error error := by
  have hnew : ∀ label, (∀ other ∈ earlier, ¬ IsFor other label) → label ∉ seen := fun label => by
    simp [hseen]
  unfold entryOfItem
  cases h with
  | malformed hcut => rw [splitItem?_eq_none_iff.mpr hcut]
  | unknownKey hcut hkey =>
      obtain ⟨key, value, hcut⟩ := exists_cut_iff.mpr hcut
      have hnone := labelOfKey?_eq_none_iff.mpr fun label => mt hcut.isFor_iff.mpr (hkey label)
      simp [hcut.splitItem?_eq, hnone]
  | duplicateKey hkey hother hsame =>
      obtain ⟨key, value, hcut, hkey⟩ := hkey
      have hold := (hseen _).mpr ⟨_, hother, hsame⟩
      simp [hcut.splitItem?_eq, labelOfKey?_eq_some_iff.mpr hkey, hold]
  | invalidValue hcut hkey hfirst hvalue =>
      have hfresh := hnew _ hfirst
      simp [hcut.splitItem?_eq, labelOfKey?_eq_some_iff.mpr hkey, hfresh, hvalue]
  | negative hcut hkey hfirst hvalue hsign =>
      have hfresh := hnew _ hfirst
      simp [hcut.splitItem?_eq, labelOfKey?_eq_some_iff.mpr hkey, hfresh, hvalue,
        Decimal.isNegative_iff.mpr hsign]

/-- What is wrong with one item is found in the order in which it is looked for.  The labels that
have been seen are those of the items before it. -/
theorem entryOfItem_eq_error_iff
    (hseen : ∀ label, label ∈ seen ↔ ∃ other ∈ earlier, IsFor other label) :
    entryOfItem seen item = .error error ↔ Offends earlier item error :=
  ⟨offends_of_entryOfItem hseen, entryOfItem_of_offends hseen⟩

/-- An item that is read is for one label more. -/
theorem mem_cons_iff_isFor (hseen : ∀ label, label ∈ seen ↔ ∃ other ∈ earlier, IsFor other label)
    (hreads : Reads item entry) (label : Label) :
    label ∈ entry.1 :: seen ↔ ∃ other ∈ item :: earlier, IsFor other label := by
  obtain ⟨key, value, hcut, hkey, -⟩ := hreads
  have hitem : IsFor item label ↔ label = entry.1 := by
    rw [hcut.isFor_iff]
    exact ⟨fun h => h.unique hkey, fun h => h ▸ hkey⟩
  rw [List.mem_cons, List.exists_mem_cons_iff, hseen, hitem]

/-- **Reading items fails** with what is wrong with the first of them that something is wrong with.
By induction on the items, with those that have been read in front of them. -/
theorem entriesOfItems_eq_error_iff
    (hseen : ∀ label, label ∈ seen ↔ ∃ other ∈ earlier, IsFor other label) :
    entriesOfItems seen pieces = .error error ↔ FirstOffense earlier pieces error := by
  induction pieces generalizing seen earlier with
  | nil => exact iff_of_false nofun nofun
  | cons item pieces ih =>
      rw [entriesOfItems, bind_eq_error_iff]
      constructor
      · rintro (h | ⟨entry, hentry, hrest⟩)
        · exact .here ((entryOfItem_eq_error_iff hseen).mp h)
        · -- The item is read, so nothing is wrong with it, and its label is one more that is known.
          have hgood : ∀ error, ¬ Offends earlier item error := fun error h => by
            cases hentry.symm.trans ((entryOfItem_eq_error_iff hseen).mpr h)
          have hmore := mem_cons_iff_isFor hseen (entryOfItem_eq_ok_iff.mp hentry).1
          rcases bind_eq_error_iff.mp hrest with hlater | ⟨later, -, hnone⟩
          · exact .later hgood ((ih hmore).mp hlater)
          · cases hnone
      · intro h
        cases h with
        | here h => exact .inl ((entryOfItem_eq_error_iff hseen).mpr h)
        | later hgood h =>
            cases hentry : entryOfItem seen item with
            | error error' => exact absurd ((entryOfItem_eq_error_iff hseen).mp hentry) (hgood error')
            | ok entry =>
                have hmore := mem_cons_iff_isFor hseen (entryOfItem_eq_ok_iff.mp hentry).1
                exact .inr ⟨entry, rfl, bind_eq_error_iff.mpr (.inl ((ih hmore).mpr h))⟩

/-- At the beginning no item has been read. -/
theorem entriesOfItems_nil_eq_error_iff :
    entriesOfItems [] pieces = .error error ↔ FirstOffense [] pieces error :=
  entriesOfItems_eq_error_iff (by simp)

/-- Items with nothing wrong are read. -/
theorem exists_entriesOfItems (hgood : ∀ error, ¬ FirstOffense [] pieces error) :
    ∃ entries, entriesOfItems [] pieces = .ok entries := by
  cases hread : entriesOfItems [] pieces with
  | ok entries => exact ⟨entries, rfl⟩
  | error error => exact absurd (entriesOfItems_nil_eq_error_iff.mp hread) (hgood error)

/-! ## Items in another order -/

/-- An item with other blanks around its key and its value, and with other capitals in its key. -/
def Respelled (item other : List Char) : Prop :=
  ∃ key key' value front front' back back', Cut item front back ∧ Cut other front' back' ∧
    Pads key front ∧ Pads key' front' ∧ key.map Char.toLower = key'.map Char.toLower ∧
    Pads value back ∧ Pads value back'

/-- A text with the same items, in any order and spelling and with any blank items among them. -/
def Rearranges (text other : List Char) : Prop :=
  ∃ pieces, (nonblank text).Perm pieces ∧ List.Forall₂ Respelled pieces (nonblank other)

/-- **Spelling** does not change what an item says: its key names the same label, and its value is
the same decimal between blanks. -/
theorem Respelled.reads (h : Respelled item other) (hreads : Reads item entry) :
    Reads other entry := by
  obtain ⟨key, key', value, front, front', back, back', hcut, hcut', hkey, hkey', hcase, hvalue,
    hvalue'⟩ := h
  obtain ⟨_, _, hitem, hname, hweight, hsign⟩ := hreads
  obtain ⟨rfl, rfl⟩ := hcut.unique hitem
  refine ⟨front', back', hcut', ?_, ?_, hsign⟩
  · rw [names_iff] at hname ⊢
    rw [hkey'.strip_eq, ← Text.strip_map_toLower, ← hcase, Text.strip_map_toLower, ← hkey.strip_eq,
      hname]
  · rw [hvalue'.strip_eq, ← hvalue.strip_eq, hweight]

/-- Where no two entries are for the same label, there is at most one amount for each. -/
theorem length_amounts_le (hnodup : (entries.map (·.1)).Nodup) (label : Label) :
    (amounts entries label).length ≤ 1 := by
  have hcount := List.nodup_iff_count_le_one.mp hnodup label
  rw [List.count_eq_countP, List.countP_map, List.countP_eq_length_filter] at hcount
  rw [amounts, List.length_map]
  exact hcount

/-- **Entries for different labels** make the same map in any order.  Each label has one amount at
most, and it is the same one. -/
theorem ofEntries_perm (hsign : ∀ entry ∈ entries, entry.2.isNegative = false)
    (hnodup : (entries.map (·.1)).Nodup) (hperm : entries.Perm others) :
    ofEntries others = ofEntries entries := by
  have heach : ∀ label, ∃ sum, Decimal.sum (amounts entries label) = .ok sum := by
    intro label
    have hsingle := Decimal.runsExactly_of_length_le (length_amounts_le hnodup label)
    obtain ⟨sum, hsum, -⟩ := hsingle.exists_sum fun _ hd => nonneg_of_mem_amounts hsign hd
    exact ⟨sum, hsum⟩
  choose weight hweight using heach
  refine ofEntries_congr hsign (fun entry hentry => hsign entry (hperm.mem_iff.mpr hentry)) hweight
    fun label => ?_
  have hamounts : (amounts entries label).Perm (amounts others label) :=
    (hperm.filter _).map _
  -- One amount at most has no other order.
  have hfew := length_amounts_le hnodup label
  generalize amounts entries label = ds at hamounts hfew
  match ds, hfew with
  | [], _ => exact hamounts.nil_eq.symm
  | [d], _ => exact List.perm_singleton.mp hamounts.symm

/-! ## Texts -/

/-- Items that are spelled otherwise say the same. -/
theorem forall₂_reads_of_respelled {respelled : List (List Char)}
    (h : List.Forall₂ Respelled pieces respelled) (hreads : List.Forall₂ Reads pieces entries) :
    List.Forall₂ Reads respelled entries := by
  induction h generalizing entries with
  | nil => exact hreads
  | cons hitem _ ih =>
      obtain ⟨entry, later, hentry, hlater, rfl⟩ := List.forall₂_cons_left_iff.mp hreads
      exact .cons (hitem.reads hentry) (ih hlater)

/-- Items say the same with the blanks around them and without. -/
theorem forall₂_reads_items_iff :
    List.Forall₂ Reads (items text) entries ↔ List.Forall₂ Reads (nonblank text) entries := by
  rw [items_eq, List.forall₂_map_left_iff]
  have hsame : ∀ item entry, Reads (strip item) entry ↔ Reads item entry := fun item _ =>
    (reads_iff_of_pads (pads_strip item)).symm
  simp only [hsame]

/-- A text whose items are read is read as what they say. -/
theorem ofText_eq_ofEntries (hreads : List.Forall₂ Reads (items text) entries)
    (hnodup : (entries.map (·.1)).Nodup) : ofText text = ofEntries entries := by
  have hitems : entriesOfItems [] (items text) = .ok entries :=
    entriesOfItems_eq_ok_iff.mpr ⟨hreads, hnodup, fun _ _ => List.not_mem_nil⟩
  rw [ofText, hitems]
  rfl

/-- Items that are read say nothing negative. -/
theorem isNegative_of_reads (hreads : List.Forall₂ Reads pieces entries) :
    ∀ entry ∈ entries, entry.2.isNegative = false := by
  intro entry hentry
  obtain ⟨item, -, _, _, _, _, _, hsign⟩ := exists_of_forall₂ hreads hentry
  exact hsign

/-- **The order and the spelling** of items do not matter.  The rearranged text says the same
entries in another order, and they are for different labels. -/
theorem Rearranges.ofText_eq (h : Rearranges text rearranged)
    (hreads : List.Forall₂ Reads (items text) entries) (hnodup : (entries.map (·.1)).Nodup) :
    ofText rearranged = ofText text := by
  obtain ⟨pieces, hperm, hspelled⟩ := h
  -- What the items say is rearranged with them, and spelling does not change it.
  obtain ⟨others, hothers, hsame⟩ :=
    List.perm_comp_forall₂ hperm.symm (forall₂_reads_items_iff.mp hreads)
  have hlabels : (others.map (·.1)).Nodup := ((hsame.map _).nodup_iff).mpr hnodup
  have hrespelled := forall₂_reads_items_iff.mpr (forall₂_reads_of_respelled hspelled hothers)
  rw [ofText_eq_ofEntries hrespelled hlabels, ofText_eq_ofEntries hreads hnodup]
  exact ofEntries_perm (isNegative_of_reads hreads) hnodup hsame.symm

/-- **A text is refused** for what is wrong with its first item that something is wrong with, and
found to have no weight only if nothing is.  If nothing is wrong and the weights are not too large, it
is a map or has no weight, and so is every text with the same items in another order and spelling. -/
theorem ofText_first_offense (text : List Char) :
    (∀ error, FirstOffense [] (items text) error → ofText text = .error error) ∧
      (ofText text = .error .zeroSum → ∀ error, ¬ FirstOffense [] (items text) error) ∧
      ((∀ error, ¬ FirstOffense [] (items text) error) → ∃ entries,
        List.Forall₂ Reads (items text) entries ∧
        (¬ TooLarge entries → ofText text = .error .zeroSum ∨ ∃ map, ofText text = .ok map) ∧
        ∀ other, Rearranges text other → ofText other = ofText text) := by
  have hrefused : ∀ error, FirstOffense [] (items text) error → ofText text = .error error :=
    fun error h => bind_eq_error_iff.mpr (.inl (entriesOfItems_nil_eq_error_iff.mpr h))
  refine ⟨hrefused, fun hzero error h => ?_, fun hgood => ?_⟩
  · cases (hrefused error h).symm.trans hzero
    exact h.ne_zeroSum rfl
  · obtain ⟨entries, hread⟩ := exists_entriesOfItems hgood
    obtain ⟨hreads, hnodup, -⟩ := entriesOfItems_eq_ok_iff.mp hread
    refine ⟨entries, hreads, fun hroom => ?_, fun other h => h.ofText_eq hreads hnodup⟩
    rw [ofText_eq_ofEntries hreads hnodup]
    exact (ofEntries_cases (isNegative_of_reads hreads) hroom).imp And.right And.right

/-- The second item has no known letter; that the third has a second weight for the first letter comes
too late.  And blanks, capitals, an empty item and another order make no difference. -/
theorem ofText_first_offense_respelled :
    ofText "u=1,x=2,u=3".toList = .error (.unknownKey "x=2") ∧
      ofText "u=0.75,r=0.5".toList = ofText " R = 0.5,, U=0.75 ".toList := by
  have hsecond : FirstOffense [] (items "u=1,x=2,u=3".toList) (.unknownKey "x=2") := by
    rw [← entriesOfItems_nil_eq_error_iff]
    rfl
  have hgood : ∀ error, ¬ FirstOffense [] (items " R = 0.5,, U=0.75 ".toList) error := by
    intro error h
    rw [← entriesOfItems_nil_eq_error_iff] at h
    have hread : (entriesOfItems [] (items " R = 0.5,, U=0.75 ".toList)).isOk = true := by
      decide +kernel
    rw [h] at hread
    cases hread
  have hblank : ∀ c ∈ [' '], Text.isBlank c := List.forall_mem_singleton.mpr rfl
  have hright : Respelled " R = 0.5".toList "r=0.5".toList :=
    ⟨['R'], ['r'], "0.5".toList, _, _, _, _, ⟨rfl, by decide⟩, ⟨rfl, by decide⟩,
      ⟨[' '], [' '], hblank, hblank, rfl⟩, .refl _, rfl, ⟨[' '], [], hblank, nofun, rfl⟩, .refl _⟩
  have hup : Respelled " U=0.75 ".toList "u=0.75".toList :=
    ⟨['U'], ['u'], "0.75".toList, _, _, _, _, ⟨rfl, by decide⟩, ⟨rfl, by decide⟩,
      ⟨[' '], [], hblank, nofun, rfl⟩, .refl _, rfl, ⟨[], [' '], nofun, hblank, rfl⟩, .refl _⟩
  obtain ⟨entries, -, -, hsame⟩ := (ofText_first_offense _).2.2 hgood
  exact ⟨(ofText_first_offense _).1 _ hsecond,
    hsame _ ⟨_, .swap _ _ _, .cons hup (.cons hright .nil)⟩⟩

end ProbabilityMap

end Sokoban
