import Mathlib.Data.List.TakeWhile
import Sokoban.Text.Blank

/-! # Pieces, lines and ends of texts

A text is cut at the items of a kind.  The pieces hold the other items and no more
(`mem_of_mem_splitOnP`).  Cutting at line feeds gives the lines of a text: the first line feed ends
the first line (`lines_append`), and what follows the last one is a line if it is not empty.  So
lines can be put between those of a longer text (`Surrounds.exists_lines_eq`).

Lines that are written have no endings of their own (`IsLine`), and written lines are read again as
they were.  A text may have come from elsewhere, with a carriage return before each line feed; lines
that are put into it are read all the same, whatever the endings around them.

The second half is about blanks.  Blanks around a text make no difference to what it is without them
(`Pads.strip_eq`), and they have no case (`strip_map_toLower`), so items of a list may be spaced and
spelled freely.
-/

namespace Sokoban.Text

variable {α : Type} {p : α → Bool} {piece xs : List α} {x : α} {line rest : List Char}

/-- **The pieces** of a text consist of what is not cut at.  Each character of a piece is one of the
text, and none of them is a cut. -/
theorem mem_of_mem_splitOnP (hpiece : piece ∈ xs.splitOnP p) (hx : x ∈ piece) :
    x ∈ xs ∧ p x = false := by
  induction xs generalizing piece with
  | nil =>
      obtain rfl := List.mem_singleton.mp (List.splitOnP_nil ▸ hpiece)
      cases hx
  | cons y ys ih =>
      rw [List.splitOnP_cons_eq_if_modifyHead] at hpiece
      split at hpiece
      next =>
        rcases List.mem_cons.mp hpiece with rfl | hlater
        · cases hx
        · exact ⟨List.mem_cons_of_mem y (ih hlater hx).1, (ih hlater hx).2⟩
      next hkeep =>
        obtain ⟨first, later, hpieces⟩ := List.exists_cons_of_ne_nil (List.splitOnP_ne_nil p ys)
        rw [hpieces] at ih hpiece
        rcases List.mem_cons.mp hpiece with rfl | hlater
        · rcases List.mem_cons.mp hx with rfl | hfirst
          · exact ⟨List.mem_cons_self, Bool.eq_false_iff.mpr hkeep⟩
          · have hys := ih List.mem_cons_self hfirst
            exact ⟨List.mem_cons_of_mem y hys.1, hys.2⟩
        · have hys := ih (List.mem_cons_of_mem first hlater) hx
          exact ⟨List.mem_cons_of_mem y hys.1, hys.2⟩

/-- An empty text has no lines, not even an empty one. -/
theorem lines_nil : lines [] = [] :=
  rfl

/-- A line without its carriage return is part of the line: whatever is known of all characters of a
line is known of what is read of it. -/
theorem dropReturn_sublist (line : List Char) : (dropReturn line).Sublist line := by
  unfold dropReturn
  split
  next => exact List.dropLast_sublist line
  next => exact List.Sublist.refl line

/-- **The first line feed ends the first line**, and a carriage return before it belongs to the
ending.  All facts about lines below go back to this one. -/
theorem lines_append (h : '\n' ∉ line) :
    lines (line ++ '\n' :: rest) = dropReturn line :: lines rest := by
  obtain ⟨first, later, hpieces⟩ := List.exists_cons_of_ne_nil (List.splitOn_ne_nil '\n' rest)
  rw [lines, lines, List.splitOn_append_cons_self_of_not_mem h, hpieces]
  simp only [List.dropLast_cons_cons, List.map_cons, List.getLast?_cons_cons]
  split
  next hlast => simp at hlast
  next last _ => split <;> rfl

/-- A text without a line feed is one line. -/
theorem lines_of_not_mem (h : '\n' ∉ line) (hne : line ≠ []) : lines line = [line] := by
  rw [lines, List.splitOn_eq_singleton h]
  simp [hne]

/-! ## Written lines -/

/-- A line without an ending of its own. -/
structure IsLine (line : List Char) : Prop where
  no_feed : '\n' ∉ line
  no_return : line.getLast? ≠ some '\r'

variable {ls : List (List Char)}

/-- A line without an ending of its own loses nothing when its ending is taken off. -/
theorem IsLine.dropReturn_eq (h : IsLine line) : dropReturn line = line :=
  if_neg h.no_return

/-- Lines that are ended are read one by one. -/
theorem lines_flatMap_append (h : ∀ line ∈ ls, '\n' ∉ line) (rest : List Char) :
    lines (ls.flatMap (· ++ ['\n']) ++ rest) = ls.map dropReturn ++ lines rest := by
  induction ls with
  | nil => rfl
  | cons line ls ih =>
      have hrest := ih fun l hl => h l (List.mem_cons_of_mem line hl)
      rw [List.flatMap_cons, List.append_assoc, List.append_assoc, List.singleton_append,
        lines_append (h line List.mem_cons_self), hrest, List.map_cons, List.cons_append]

/-- Lines without endings of their own are read again. -/
theorem lines_flatMap_append_of_isLine (h : ∀ line ∈ ls, IsLine line) (rest : List Char) :
    lines (ls.flatMap (· ++ ['\n']) ++ rest) = ls ++ lines rest := by
  have hsame : ls.map dropReturn = ls :=
    (List.map_congr_left fun line hline => (h line hline).dropReturn_eq).trans (List.map_id ls)
  rw [lines_flatMap_append fun line hline => (h line hline).no_feed, hsame]

/-- Ending each line is putting line feeds between them, and one at the end.  The two ways of
writing lines differ by that last one. -/
theorem flatMap_eq_intercalate (hne : ls ≠ []) :
    ls.flatMap (· ++ ['\n']) = ['\n'].intercalate ls ++ ['\n'] := by
  induction ls with
  | nil => exact absurd rfl hne
  | cons line ls ih =>
      cases ls with
      | nil => simp
      | cons next ls =>
          rw [List.flatMap_cons, ih (List.cons_ne_nil next ls), List.intercalate_cons_cons]
          simp only [List.append_assoc]

/-- Lines with line feeds between them are read again, if the last one is not empty.  An empty last
line would be taken for the end of the one before. -/
theorem lines_intercalate (h : ∀ line ∈ ls, IsLine line) (hlast : ls.getLast? ≠ some []) :
    lines (['\n'].intercalate ls) = ls := by
  induction ls with
  | nil => rfl
  | cons line ls ih =>
      have hline := h line List.mem_cons_self
      cases ls with
      | nil =>
          rw [List.intercalate_singleton]
          exact lines_of_not_mem hline.no_feed fun hnil => hlast (by rw [hnil]; rfl)
      | cons next ls =>
          have hrest := ih (fun l hl => h l (List.mem_cons_of_mem line hl))
            (by rwa [List.getLast?_cons_cons] at hlast)
          rw [List.intercalate_cons_cons, List.append_assoc, List.singleton_append,
            lines_append hline.no_feed, hrest, hline.dropReturn_eq]

/-! ## Lines of a longer text -/

/-- What stands before a line of a text and behind it.  The line begins the text or comes after a
line feed, and it ends the text or has an ending behind it. -/
structure Surrounds (before after : List Char) : Prop where
  begins : ∀ c ∈ before.getLast?, c = '\n'
  ends : after = [] ∨ ∃ rest, after = '\n' :: rest ∨ after = '\r' :: '\n' :: rest

variable {before after : List Char}

/-- A text that has an ending behind its last line consists of lines with endings.  The text is
taken apart from its front; a line feed there opens an empty line, any other character goes to the
line behind it. -/
theorem exists_flatMap_eq (h : ∀ c ∈ before.getLast?, c = '\n') :
    ∃ ls : List (List Char), (∀ line ∈ ls, '\n' ∉ line) ∧ ls.flatMap (· ++ ['\n']) = before := by
  induction before with
  | nil => exact ⟨[], nofun, rfl⟩
  | cons c rest ih =>
      have hrest : ∀ d ∈ rest.getLast?, d = '\n' := by
        intro d hd
        refine h d ?_
        rw [List.getLast?_cons, Option.mem_def.mp hd]
        rfl
      obtain ⟨ls, hls, rfl⟩ := ih hrest
      by_cases hc : c = '\n'
      · exact ⟨[] :: ls, List.forall_mem_cons.mpr ⟨nofun, hls⟩, by rw [hc]; rfl⟩
      · cases ls with
        | nil => exact absurd (h c rfl) hc
        | cons first later =>
            rw [List.forall_mem_cons] at hls
            have hfirst : '\n' ∉ c :: first := List.not_mem_cons_of_ne_of_not_mem (Ne.symm hc) hls.1
            exact ⟨(c :: first) :: later, List.forall_mem_cons.mpr ⟨hfirst, hls.2⟩, rfl⟩

/-- Such a text is read before what follows it. -/
theorem lines_append_of_ended (h : ∀ c ∈ before.getLast?, c = '\n') (rest : List Char) :
    lines (before ++ rest) = lines before ++ lines rest := by
  obtain ⟨ls, hls, rfl⟩ := exists_flatMap_eq h
  have hbefore := lines_flatMap_append hls []
  rw [List.append_nil, lines_nil, List.append_nil] at hbefore
  rw [lines_flatMap_append hls, hbefore]

/-- Line feeds between lines, with the last line set apart: every other line has its ending behind
it. -/
theorem intercalate_concat (init : List (List Char)) (last : List Char) :
    ['\n'].intercalate (init ++ [last]) = init.flatMap (· ++ ['\n']) ++ last := by
  have hne : init ++ [last] ≠ [] := by simp
  have h := flatMap_eq_intercalate hne
  rw [List.flatMap_append, List.flatMap_singleton, ← List.append_assoc] at h
  exact (List.append_cancel_right h).symm

/-- **Lines between others** are read again, and so are the others, whatever stands there.  An empty
line is none where nothing follows it. -/
theorem Surrounds.exists_lines_eq (h : Surrounds before after) :
    ∃ below, ∀ ls ≠ [], (∀ line ∈ ls, IsLine line) → (after = [] → ls.getLast? ≠ some []) →
      lines (before ++ ['\n'].intercalate ls ++ after) = lines before ++ (ls ++ below) := by
  -- A line with an ending is followed by the lines of the rest.
  have hended : ∀ ending rest : List Char, (ending = [] ∨ ending = ['\r']) →
      after = ending ++ '\n' :: rest → ∀ ls ≠ [], (∀ line ∈ ls, IsLine line) →
        lines (before ++ ['\n'].intercalate ls ++ after) = lines before ++ (ls ++ lines rest) := by
    intro ending rest hending hafter ls hne hls
    obtain ⟨init, last, rfl⟩ : ∃ init last, ls = init ++ [last] :=
      ⟨_, _, (List.dropLast_concat_getLast hne).symm⟩
    obtain ⟨hinit, hlast⟩ := List.forall_mem_append.mp hls
    have hline := hlast last (List.mem_singleton_self last)
    have hfeed : '\n' ∉ last ++ ending := by
      rcases hending with rfl | rfl <;> simp [hline.no_feed]
    have hdrop : dropReturn (last ++ ending) = last := by
      rcases hending with rfl | rfl
      · rw [List.append_nil, hline.dropReturn_eq]
      · simp [dropReturn]
    rw [hafter, intercalate_concat, List.append_assoc, lines_append_of_ended h.begins,
      List.append_assoc, lines_flatMap_append_of_isLine hinit, ← List.append_assoc last,
      lines_append hfeed, hdrop, List.append_assoc init, List.singleton_append]
  rcases h.ends with hafter | ⟨rest, hafter | hafter⟩
  · refine ⟨[], fun ls hne hls hlast => ?_⟩
    rw [hafter, List.append_nil, lines_append_of_ended h.begins, lines_intercalate hls (hlast hafter),
      List.append_nil]
  · exact ⟨lines rest, fun ls hne hls _ => hended [] rest (.inl rfl) hafter ls hne hls⟩
  · exact ⟨lines rest, fun ls hne hls _ => hended ['\r'] rest (.inr rfl) hafter ls hne hls⟩

/-! ## Ends of texts -/

/-- Nothing is dropped behind a character that is to stay. -/
theorem dropEndWhile_eq_self {p : Char → Bool} {text : List Char} {c : Char}
    (h : text.getLast? = some c) (hc : p c = false) : dropEndWhile p text = text := by
  obtain ⟨init, rfl⟩ := List.getLast?_eq_some_iff.mp h
  simp [dropEndWhile, hc]

/-- What is dropped at the end is dropped, however much of it there is. -/
theorem dropEndWhile_append_of_pos {p : Char → Bool} {text dropped : List Char}
    (h : ∀ c ∈ dropped, p c) : dropEndWhile p (text ++ dropped) = dropEndWhile p text := by
  rw [dropEndWhile, List.reverse_append, List.dropWhile_append_of_pos, dropEndWhile]
  exact fun c hc => h c (List.mem_reverse.mp hc)

/-- The last character of lines with line feeds between them is that of the last line. -/
theorem getLast?_intercalate {c : Char} (hlast : ls.getLast? = some line)
    (hline : line.getLast? = some c) : (['\n'].intercalate ls).getLast? = some c := by
  obtain ⟨init, rfl⟩ := List.getLast?_eq_some_iff.mp hlast
  induction init with
  | nil => simpa using hline
  | cons first init ih =>
      have hrest := ih (List.getLast?_concat ..)
      rw [List.cons_append, List.intercalate_cons_of_ne_nil (by simp), List.getLast?_append, hrest]
      rfl

/-! ## Blanks around a text -/

/-- A text with blanks around it. -/
def Pads (core text : List Char) : Prop :=
  ∃ left right, (∀ c ∈ left, isBlank c) ∧ (∀ c ∈ right, isBlank c) ∧ text = left ++ core ++ right

variable {core text : List Char}

/-- A text has blanks around itself, namely none. -/
theorem Pads.refl (text : List Char) : Pads text text :=
  ⟨[], [], nofun, nofun, by simp⟩

/-- What is stripped at both ends is stripped, however much of it there is on either side. -/
theorem stripWhile_append {p : Char → Bool} {left right : List Char} (hleft : ∀ c ∈ left, p c)
    (hright : ∀ c ∈ right, p c) : stripWhile p (left ++ core ++ right) = stripWhile p core := by
  rw [stripWhile, List.append_assoc, List.dropWhile_append_of_pos hleft, List.dropWhile_append]
  split
  next hnone =>
    rw [List.isEmpty_iff] at hnone
    rw [List.dropWhile_eq_nil_iff.mpr hright, stripWhile, hnone]
  next => rw [dropEndWhile_append_of_pos hright, stripWhile]

/-- **Blanks around a text** make no difference to what it is without them.  Items and keys are
compared in this form, so they may be spelled with blanks. -/
theorem Pads.strip_eq (h : Pads core text) : strip text = strip core := by
  obtain ⟨left, right, hleft, hright, rfl⟩ := h
  exact stripWhile_append hleft hright

/-- A text is what it is without blanks at both ends, with those blanks around it. -/
theorem pads_strip (text : List Char) : Pads (strip text) text := by
  refine ⟨text.takeWhile isBlank, ((text.dropWhile isBlank).reverse.takeWhile isBlank).reverse,
    fun c hc => List.mem_takeWhile_imp hc,
    fun c hc => List.mem_takeWhile_imp (List.mem_reverse.mp hc), ?_⟩
  rw [strip, stripWhile, dropEndWhile, List.append_assoc, ← List.reverse_append,
    List.takeWhile_append_dropWhile, List.reverse_reverse, List.takeWhile_append_dropWhile]

/-- A text of blanks is empty without them, and no other text is.  Items are skipped by this test.
-/
theorem strip_eq_nil_iff : strip text = [] ↔ ∀ c ∈ text, isBlank c := by
  constructor
  · intro h
    obtain ⟨left, right, hleft, hright, htext⟩ := pads_strip text
    rw [h, List.append_nil] at htext
    rw [htext]
    exact List.forall_mem_append.mpr ⟨hleft, hright⟩
  · intro h
    rw [strip, stripWhile, List.dropWhile_eq_nil_iff.mpr h]
    rfl

/-- Nothing is dropped where nothing is of the kind. -/
theorem dropWhile_eq_self {p : Char → Bool} (h : ∀ c ∈ text, p c = false) :
    text.dropWhile p = text := by
  cases text with
  | nil => rfl
  | cons c rest => exact List.dropWhile_cons_of_neg (by simp [h c List.mem_cons_self])

/-- A text without blanks stays as it is. -/
theorem strip_eq_self (h : ∀ c ∈ text, isBlank c = false) : strip text = text := by
  rw [strip, stripWhile, dropWhile_eq_self h, dropEndWhile, dropWhile_eq_self,
    List.reverse_reverse]
  exact fun c hc => h c (List.mem_reverse.mp hc)

/-! ## Case -/

/-- Behind the capitals there is nothing that lower case changes. -/
theorem toLower_eq_self {c : Char} (h : 'Z'.toNat < c.toNat) : c.toLower = c :=
  dif_neg fun hcase => Nat.not_lt.mpr (UInt32.le_iff_toNat_le.mp hcase.2) h

/-- What holds of the first characters can be checked one by one. -/
theorem forall_char_le {P : Char → Prop} {last : Nat} (h : ∀ n < last + 1, P (Char.ofNat n))
    (c : Char) (hc : c.toNat ≤ last) : P c := by
  have hall := h c.toNat (Nat.lt_succ_of_le hc)
  rwa [Char.ofNat_toNat] at hall

/-- Blanks are blanks in lower case.  The capitals are tried one by one, and no other character
changes. -/
theorem isBlank_toLower (c : Char) : isBlank c.toLower = isBlank c := by
  rcases Nat.lt_or_ge 'Z'.toNat c.toNat with hbehind | hfirst
  · rw [toLower_eq_self hbehind]
  · exact forall_char_le (P := fun c => isBlank c.toLower = isBlank c) (by decide) c hfirst

/-- Digits are no blanks. -/
theorem isBlank_of_isDigit {c : Char} (h : c.isDigit) : isBlank c = false := by
  rw [Char.isDigit, Bool.and_eq_true, decide_eq_true_eq, decide_eq_true_eq] at h
  have hlast : c.toNat ≤ '9'.toNat := UInt32.le_iff_toNat_le.mp h.2
  exact forall_char_le (P := fun c => c.isDigit → isBlank c = false) (by decide) c hlast
    (by simpa [Char.isDigit] using h)

/-- Blanks have no case. -/
theorem strip_map_toLower (text : List Char) :
    strip (text.map Char.toLower) = (strip text).map Char.toLower := by
  have hblank : isBlank ∘ Char.toLower = isBlank := funext isBlank_toLower
  rw [strip, strip, stripWhile, stripWhile, dropEndWhile, dropEndWhile, List.dropWhile_map, hblank,
    ← List.map_reverse, List.dropWhile_map, hblank, List.map_reverse]

end Sokoban.Text
