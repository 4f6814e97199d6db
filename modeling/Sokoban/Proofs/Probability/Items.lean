import Sokoban.Proofs.Probability
import Sokoban.Proofs.Text

/-! # The items of a probability map

An item is read if it has an equals sign with the letter of a label in front of it and a decimal
that is not negative behind it (`Reads`).  Blanks around the item, the letter or the decimal are
skipped, and the letter may be a capital.  `Reads` says this without the steps in which an item is
taken apart, so that what depends on the text and what depends on the order of the checks can be
told apart.

Items are read together if each of them is and no two are for the same label
(`entriesOfItems_eq_ok_iff`).  The items of a text are its pieces between commas that are not blank
(`items_eq`); a comma too many therefore does no harm.
-/

namespace Sokoban

open Text (Pads isBlank strip pads_strip)

namespace Label

/-- The letter of a label can be told from what stands around it. -/
theorem key_ne (label : Label) : label.key ≠ ',' ∧ label.key ≠ '=' :=
  forall_of_all (P := fun label => label.key ≠ ',' ∧ label.key ≠ '=') (by decide) label

/-- No letter of a label is a blank, in either case. -/
theorem isBlank_key (label : Label) :
    isBlank label.key = false ∧ isBlank label.key.toUpper = false :=
  forall_of_all (P := fun label => isBlank label.key = false ∧ isBlank label.key.toUpper = false)
    (by decide) label

/-- A letter becomes that of a label in lower case if it is that letter or its capital.  No other
character does, though lower case is defined for many. -/
theorem toLower_eq_key_iff (label : Label) (c : Char) :
    c.toLower = label.key ↔ c = label.key ∨ c = label.key.toUpper := by
  rcases Nat.lt_or_ge 'Z'.toNat c.toNat with hbehind | hfirst
  · have hcapital : c ≠ label.key.toUpper := by
      rintro rfl
      exact absurd hbehind (Nat.not_lt.mpr (forall_of_all
        (P := fun label => label.key.toUpper.toNat ≤ 'Z'.toNat) (by decide) label))
    rw [Text.toLower_eq_self hbehind, or_iff_left hcapital]
  · exact Text.forall_char_le (P := fun c => ∀ label ∈ all,
      (c.toLower = label.key ↔ c = label.key ∨ c = label.key.toUpper)) (by decide) c hfirst label
      (mem_all label)

/-- A letter is looked up among those of the labels, which are all different. -/
theorem ofKey?_eq_some_iff {label : Label} {c : Char} :
    ofKey? c = some label ↔ label.key = c := by
  constructor
  · intro h
    simpa using List.find?_some h
  · rintro rfl
    cases label with
    | toward dir => cases dir <;> rfl
    | drift => rfl

end Label

namespace ProbabilityMap

variable {item core key value : List Char} {label : Label} {entry : Label × Decimal}
  {seen : List Label} {pieces : List (List Char)} {entries : List (Label × Decimal)}

/-! ## The parts of an item -/

/-- What is in front of the first equals sign of an item, and what is behind it. -/
structure Cut (item key value : List Char) : Prop where
  eq : item = key ++ '=' :: value
  first : '=' ∉ key

/-- An item can be cut exactly if it has an equals sign. -/
theorem exists_cut_iff : (∃ key value, Cut item key value) ↔ '=' ∈ item := by
  constructor
  · rintro ⟨key, value, rfl, -⟩
    exact List.mem_append_right key List.mem_cons_self
  · intro h
    obtain ⟨key, value, heq, hfirst⟩ := List.eq_append_cons_of_mem h
    exact ⟨key, value, heq, hfirst⟩

/-- A cut is found: it is the one at the first equals sign. -/
theorem Cut.splitItem?_eq (h : Cut item key value) : splitItem? item = some (key, value) := by
  obtain ⟨rfl, hfirst⟩ := h
  have hkey : ∀ c ∈ key, (c != '=') = true := fun c hc => by
    simpa using ne_of_mem_of_not_mem hc hfirst
  rw [splitItem?, List.dropWhile_append_of_pos hkey, List.takeWhile_append_of_pos hkey]
  simp

/-- No cut is found exactly if there is no equals sign. -/
theorem splitItem?_eq_none_iff : splitItem? item = none ↔ '=' ∉ item := by
  constructor
  · intro h hmem
    obtain ⟨key, value, hcut⟩ := exists_cut_iff.mpr hmem
    cases h.symm.trans hcut.splitItem?_eq
  · intro h
    have hall : item.dropWhile (· != '=') = [] :=
      List.dropWhile_eq_nil_iff.mpr fun c hc => by simpa using ne_of_mem_of_not_mem hc h
    rw [splitItem?, hall]

/-- What is found is the cut.  An item is cut at its first equals sign, and there are not two ways
to do so. -/
theorem splitItem?_eq_some_iff : splitItem? item = some (key, value) ↔ Cut item key value := by
  constructor
  · intro h
    have hmem : '=' ∈ item := by
      by_contra hnone
      cases (splitItem?_eq_none_iff.mpr hnone).symm.trans h
    obtain ⟨key', value', hcut⟩ := exists_cut_iff.mpr hmem
    obtain ⟨rfl, rfl⟩ := Prod.mk.inj (Option.some.inj (hcut.splitItem?_eq.symm.trans h))
    exact hcut
  · exact Cut.splitItem?_eq

/-- There is one cut only, as there is one first equals sign. -/
theorem Cut.unique {key' value' : List Char} (h : Cut item key value) (h' : Cut item key' value') :
    key = key' ∧ value = value' := by
  exact Prod.mk.inj (Option.some.inj (h.splitItem?_eq.symm.trans h'.splitItem?_eq))

/-- A key that is the letter of a label, in either case, with blanks around it. -/
def Names (key : List Char) (label : Label) : Prop :=
  ∃ c, Pads [c] key ∧ (c = label.key ∨ c = label.key.toUpper)

/-- A key names a label if it is the label's letter without blanks and in lower case.  The one side
speaks of what the text looks like, the other of how a key is looked up. -/
theorem names_iff : Names key label ↔ (strip key).map Char.toLower = [label.key] := by
  constructor
  · rintro ⟨c, hkey, hc⟩
    have hblank : ∀ d ∈ [c], isBlank d = false := by
      rw [List.forall_mem_singleton]
      rcases hc with rfl | rfl
      · exact label.isBlank_key.1
      · exact label.isBlank_key.2
    rw [hkey.strip_eq, Text.strip_eq_self hblank, List.map_singleton,
      (label.toLower_eq_key_iff c).mpr hc]
  · intro h
    obtain ⟨c, hkey, hc⟩ := List.map_eq_singleton_iff.mp h
    exact ⟨c, hkey ▸ pads_strip key, (label.toLower_eq_key_iff c).mp hc⟩

/-- The label that is found for a key is the one that it names.  A key of another length than one
names none, and different labels have different letters. -/
theorem labelOfKey?_eq_some_iff : labelOfKey? key = some label ↔ Names key label := by
  rw [names_iff, labelOfKey?]
  split
  next c hkey => rw [hkey, Label.ofKey?_eq_some_iff, List.map_singleton, List.singleton_inj, eq_comm]
  next hother =>
    constructor
    · intro h
      cases h
    · intro h
      obtain ⟨c, hkey, -⟩ := List.map_eq_singleton_iff.mp h
      exact absurd hkey (hother c)

/-- A key names one label only. -/
theorem Names.unique {label' : Label} (h : Names key label) (h' : Names key label') :
    label = label' := by
  rw [← labelOfKey?_eq_some_iff] at h h'
  exact Option.some.inj (h.symm.trans h')

/-- No label is found exactly if the key names none. -/
theorem labelOfKey?_eq_none_iff : labelOfKey? key = none ↔ ∀ label, ¬ Names key label := by
  simp only [Option.eq_none_iff_forall_ne_some, ne_eq, labelOfKey?_eq_some_iff]

/-- What an item says: a label and a weight for it. -/
def Reads (item : List Char) (entry : Label × Decimal) : Prop :=
  ∃ key value, Cut item key value ∧ Names key entry.1 ∧
    Decimal.ofText? (strip value) = some entry.2 ∧ entry.2.isNegative = false

/-- **An item is read** if it says something about a label for which there is no item yet.  The
checks are gone through in their order; each of them is one of the conditions. -/
theorem entryOfItem_eq_ok_iff :
    entryOfItem seen item = .ok entry ↔ Reads item entry ∧ entry.1 ∉ seen := by
  constructor
  · intro h
    unfold entryOfItem at h
    split at h
    next => cases h
    next key value hcut =>
      split at h
      next => cases h
      next label hlabel =>
        split at h
        next => cases h
        next hnew =>
          split at h
          next => cases h
          next weight hweight =>
            split at h
            next => cases h
            next hsign =>
              cases h
              exact ⟨⟨key, value, splitItem?_eq_some_iff.mp hcut, labelOfKey?_eq_some_iff.mp hlabel,
                hweight, by simpa using hsign⟩, by simpa using hnew⟩
  · rintro ⟨⟨key, value, hcut, hlabel, hweight, hsign⟩, hnew⟩
    simp [entryOfItem, hcut.splitItem?_eq, labelOfKey?_eq_some_iff.mpr hlabel, hweight, hsign, hnew]

/-- **Items are read** one by one, and no two of them for the same label.  By induction on the
items, with the labels that have been seen. -/
theorem entriesOfItems_eq_ok_iff :
    entriesOfItems seen pieces = .ok entries ↔ List.Forall₂ Reads pieces entries ∧
      (entries.map (·.1)).Nodup ∧ ∀ entry ∈ entries, entry.1 ∉ seen := by
  induction pieces generalizing seen entries with
  | nil =>
      rw [entriesOfItems, List.forall₂_nil_left_iff]
      constructor
      · rintro ⟨⟩
        simp
      · rintro ⟨rfl, -⟩
        rfl
  | cons item pieces ih =>
      rw [entriesOfItems, bind_eq_ok_iff]
      constructor
      · rintro ⟨entry, hentry, hrest⟩
        obtain ⟨later, hlater, heq⟩ := bind_eq_ok_iff.mp hrest
        obtain rfl := pure_eq_ok_iff.mp heq
        obtain ⟨hreads, hnew⟩ := entryOfItem_eq_ok_iff.mp hentry
        obtain ⟨hall, hnodup, hother⟩ := ih.mp hlater
        refine ⟨.cons hreads hall, List.nodup_cons.mpr ⟨fun hmem => ?_, hnodup⟩,
          List.forall_mem_cons.mpr ⟨hnew, fun other hmem => ?_⟩⟩
        · obtain ⟨other, hmem, heq⟩ := List.mem_map.mp hmem
          exact hother other hmem (heq ▸ List.mem_cons_self)
        · exact fun hseen => hother other hmem (List.mem_cons_of_mem _ hseen)
      · rintro ⟨hall, hnodup, hnew⟩
        obtain ⟨entry, later, hreads, hlater, rfl⟩ := List.forall₂_cons_left_iff.mp hall
        obtain ⟨hfirst, hnodup⟩ := List.nodup_cons.mp hnodup
        obtain ⟨hentry, hnew⟩ := List.forall_mem_cons.mp hnew
        -- The label of the first item counts as seen for all that follow.
        have hother : ∀ other ∈ later, other.1 ∉ entry.1 :: seen := by
          intro other hmem hseen
          rcases List.mem_cons.mp hseen with heq | hseen
          · exact hfirst (List.mem_map.mpr ⟨other, hmem, heq⟩)
          · exact hnew other hmem hseen
        exact ⟨entry, entryOfItem_eq_ok_iff.mpr ⟨hreads, hentry⟩, bind_eq_ok_iff.mpr
          ⟨later, ih.mpr ⟨hlater, hnodup, hother⟩, rfl⟩⟩

/-! ## Blanks -/

/-- Blanks around an item are blanks around its key and its value.  The equals sign stays where it
is. -/
theorem Cut.of_pads (h : Pads core item) (hcut : Cut core key value) :
    ∃ key' value', Cut item key' value' ∧ strip key' = strip key ∧ strip value' = strip value := by
  obtain ⟨left, right, hleft, hright, rfl⟩ := h
  obtain ⟨rfl, hfirst⟩ := hcut
  refine ⟨left ++ key, value ++ right, ⟨by simp, ?_⟩, ?_, ?_⟩
  · intro hmem
    rcases List.mem_append.mp hmem with hmem | hmem
    · exact absurd (hleft '=' hmem) (by decide)
    · exact hfirst hmem
  · exact Pads.strip_eq ⟨left, [], hleft, nofun, by simp⟩
  · exact Pads.strip_eq ⟨[], right, nofun, hright, by simp⟩

/-- Blanks are no equals signs. -/
theorem mem_of_pads (h : Pads core item) (hmem : '=' ∈ item) : '=' ∈ core := by
  obtain ⟨left, right, hleft, hright, rfl⟩ := h
  simp only [List.mem_append] at hmem
  rcases hmem with (hmem | hmem) | hmem
  · exact absurd (hleft '=' hmem) (by decide)
  · exact hmem
  · exact absurd (hright '=' hmem) (by decide)

/-- **Blanks around an item** do not change what it says.  They are blanks around its key or around
its value, which are stripped anyway. -/
theorem reads_iff_of_pads (h : Pads core item) : Reads item entry ↔ Reads core entry := by
  constructor
  · rintro ⟨key', value', hcut', hname, hweight, hsign⟩
    obtain ⟨key, value, hcut⟩ := exists_cut_iff.mpr (mem_of_pads h (exists_cut_iff.mp ⟨_, _, hcut'⟩))
    obtain ⟨k, v, hpadded, hkey, hvalue⟩ := hcut.of_pads h
    obtain ⟨rfl, rfl⟩ := hpadded.unique hcut'
    rw [names_iff, hkey] at hname
    exact ⟨key, value, hcut, names_iff.mpr hname, hvalue ▸ hweight, hsign⟩
  · rintro ⟨key, value, hcut, hname, hweight, hsign⟩
    obtain ⟨key', value', hcut', hkey, hvalue⟩ := hcut.of_pads h
    rw [names_iff, ← hkey] at hname
    exact ⟨key', value', hcut', names_iff.mpr hname, hvalue ▸ hweight, hsign⟩

/-! ## The items of a text -/

/-- The pieces of a text between commas that are not blank. -/
def nonblank (text : List Char) : List (List Char) :=
  (text.splitOn ',').filter fun piece => !piece.all isBlank

/-- The items of a text are its pieces between commas, without the blanks around them. -/
theorem items_eq (text : List Char) : items text = (nonblank text).map strip := by
  rw [items, nonblank, List.filter_map]
  congr 1
  refine List.filter_congr fun piece _ => ?_
  rw [Bool.eq_iff_iff]
  simp [Text.strip_eq_nil_iff]

end ProbabilityMap

end Sokoban
