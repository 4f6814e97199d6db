import Sokoban.Json
import Sokoban.Proofs.Decimal.Text

/-! # The layout of JSON texts

A value can be written compactly or with a line for each element.  The two texts differ in their
layout only: whoever skips the blanks between the tokens of a laid out text is left with the compact
one (`Json.squeezed_pretty`), so both are texts of the same value.

Blanks inside strings are no layout.  Skipping has to know where strings begin and end, and a quote
that is escaped ends none; this is why an escaped character is passed over as a whole (`squeezed`).
Everything else that is written outside of strings is either a token without blanks, which stays, or
layout, which goes.  `Squeezes` says this of a text in front of any other, so that the texts of the
parts of a value can be put together as `Json.write` puts them together.
-/

namespace Sokoban.Json

/-- The blanks that may stand between the tokens of a JSON text. -/
def isSpace (c : Char) : Bool :=
  c == ' ' || c == '\n' || c == '\t' || c == '\r'

/-- Whether a character stays outside of strings and begins none. -/
def isPlain (c : Char) : Bool :=
  c != '"' && !isSpace c

/-- A text without the blanks that stand outside of strings.  The flag says whether the text begins
inside of one. -/
def squeezed : Bool → List Char → List Char
  | _, [] => []
  | true, '\\' :: c :: rest => '\\' :: c :: squeezed true rest
  | true, '"' :: rest => '"' :: squeezed false rest
  | true, c :: rest => c :: squeezed true rest
  | false, '"' :: rest => '"' :: squeezed true rest
  | false, c :: rest => if isSpace c then squeezed false rest else c :: squeezed false rest

/-- A text between tokens leaves a shorter text when blanks are skipped, whatever follows it. -/
def Squeezes (text short : String) : Prop :=
  ∀ rest, squeezed false (text.toList ++ rest) = short.toList ++ squeezed false rest

variable {text short other less : String} {layout : Layout} {c : Char}

/-! ## Tokens and layout -/

/-- Texts that are put together leave what their parts leave. -/
theorem Squeezes.append (h : Squeezes text short) (hother : Squeezes other less) :
    Squeezes (text ++ other) (short ++ less) := by
  intro rest
  rw [String.toList_append, String.toList_append, List.append_assoc, h, hother, List.append_assoc]

/-- Outside of strings, a character that is neither a quote nor a blank stays. -/
theorem squeezed_cons (h : isPlain c) (rest : List Char) :
    squeezed false (c :: rest) = c :: squeezed false rest := by
  obtain ⟨hquote, hspace⟩ : c ≠ '"' ∧ isSpace c = false := by simpa [isPlain] using h
  simp [squeezed, hspace]

/-- **Tokens stay**: what has neither quotes nor blanks, such as a number or a bracket.  By
induction on the characters, each of which stays by itself. -/
theorem Squeezes.of_token (h : text.toList.all isPlain) : Squeezes text text := by
  intro rest
  generalize text.toList = cs at h
  induction cs with
  | nil => rfl
  | cons c cs ih =>
      obtain ⟨hc, hcs⟩ := Bool.and_eq_true_iff.mp h
      rw [List.cons_append, squeezed_cons hc, ih hcs, List.cons_append]

/-- **Layout goes**: what consists of blanks leaves nothing.  It is said of blanks in any number, as
the depth of a value decides how far it is indented. -/
theorem Squeezes.of_spaces (h : ∀ c ∈ text.toList, isSpace c) : Squeezes text "" := by
  intro rest
  generalize text.toList = cs at h
  induction cs with
  | nil => rfl
  | cons c cs ih =>
      obtain ⟨hc, hcs⟩ := List.forall_mem_cons.mp h
      have hquote : c ≠ '"' := by
        rintro rfl
        exact absurd hc (by decide)
      have hskip : ∀ rest, squeezed false (c :: rest) = squeezed false rest := by
        simp [squeezed, hc]
      rw [List.cons_append, hskip]
      exact ih hcs

/-! ## Strings -/

/-- Inside of a string every character stays that neither ends it nor escapes another. -/
theorem squeezed_true_cons (hslash : c ≠ '\\') (hquote : c ≠ '"') (rest : List Char) :
    squeezed true (c :: rest) = c :: squeezed true rest := by
  simp [squeezed, hslash]

/-- An escaped character stays, whichever it is. -/
theorem squeezed_true_slash (c : Char) (rest : List Char) :
    squeezed true ('\\' :: c :: rest) = '\\' :: c :: squeezed true rest := by
  rw [squeezed]

/-- The digits of a character code are not taken for the end of a string. -/
theorem digitChar_ne {n : Nat} (h : n < 16) : n.digitChar ≠ '\\' ∧ n.digitChar ≠ '"' := by
  revert n
  decide

/-- A character of a string is written as a backslash and one more character, as a backslash and the
hexadecimal digits of its code, or as it is. -/
theorem escape_cases (c : Char) :
    (∃ d, escape c = ['\\', d]) ∨
      (c.toNat < 32 ∧ escape c = ['\\', 'u', '0', '0'] ++ hexPair c.toNat) ∨
      (c ≠ '"' ∧ c ≠ '\\' ∧ escape c = [c]) := by
  unfold escape
  split_ifs with hquote hslash _ _ _ _ _ hcontrol
  any_goals exact .inl ⟨_, rfl⟩
  · exact .inr (.inl ⟨hcontrol, rfl⟩)
  · exact .inr (.inr ⟨by simpa using hquote, by simpa using hslash, rfl⟩)

/-- **A character of a string** stays as it is written, and the string goes on behind it.  An
escaped quote does not end it, as the backslash keeps the next character. -/
theorem squeezed_escape (c : Char) (rest : List Char) :
    squeezed true (escape c ++ rest) = escape c ++ squeezed true rest := by
  rcases escape_cases c with ⟨d, heq⟩ | ⟨hcontrol, heq⟩ | ⟨hquote, hslash, heq⟩
  · rw [heq]
    exact squeezed_true_slash d rest
  · have hhigh := digitChar_ne (n := c.toNat / 16) (by omega)
    have hlow := digitChar_ne (n := c.toNat % 16) (by omega)
    rw [heq, hexPair]
    simp only [List.cons_append, List.nil_append]
    rw [squeezed_true_slash, squeezed_true_cons (by decide) (by decide),
      squeezed_true_cons (by decide) (by decide), squeezed_true_cons hhigh.1 hhigh.2,
      squeezed_true_cons hlow.1 hlow.2]
  · rw [heq]
    exact squeezed_true_cons hslash hquote rest

/-- **Strings stay**, with all the blanks in them.  The first quote opens the string and the last
closes it, so what follows is outside again. -/
theorem squeezes_quote (s : String) : Squeezes (quote s) (quote s) := by
  have hinside : ∀ cs : List Char, ∀ rest,
      squeezed true (cs.flatMap escape ++ '"' :: rest) =
        cs.flatMap escape ++ '"' :: squeezed false rest := by
    intro cs rest
    induction cs with
    | nil => simp [squeezed]
    | cons c cs ih =>
        rw [List.flatMap_cons, List.append_assoc, squeezed_escape, ih, List.append_assoc]
  have hquote : (quote s).toList = '"' :: (s.toList.flatMap escape ++ ['"']) := by
    simp [quote]
  intro rest
  rw [hquote, List.cons_append, List.append_assoc, List.cons_append, List.nil_append, squeezed, hinside]
  simp

/-! ## Numbers -/

/-- The characters that numbers are written with. -/
def IsNumeric (c : Char) : Prop :=
  c.isDigit ∨ c = '.' ∨ c = 'e' ∨ c = '+' ∨ c = '-'

/-- No character of a number is taken for the beginning of a string or for layout. -/
theorem IsNumeric.isPlain (h : IsNumeric c) : isPlain c := by
  have hdigit : ∀ d : Char, c.isDigit → d.isDigit = false → c ≠ d := by
    rintro d hc hd rfl
    rw [hc] at hd
    cases hd
  rcases h with h | rfl | rfl | rfl | rfl
  · simp [Json.isPlain, isSpace, hdigit _ h]
  all_goals decide

/-- A text of such characters is a token. -/
theorem Squeezes.of_numeric (h : ∀ c ∈ text.toList, IsNumeric c) : Squeezes text text :=
  .of_token (List.all_eq_true.mpr fun c hc => (h c hc).isPlain)

/-- The digits of a whole number are characters of numbers. -/
theorem isNumeric_toDigits (n : Nat) : ∀ c ∈ Nat.toDigits 10 n, IsNumeric c :=
  fun c hc => .inl (Decimal.isDigit_toDigits n c hc)

/-- The sign of a whole number is one of the characters of numbers as well, so a whole number is one
token with it. -/
theorem isNumeric_int (i : Int) : ∀ c ∈ (toString i).toList, IsNumeric c := by
  intro c hc
  cases i with
  | ofNat n =>
      rw [show (toString (Int.ofNat n)).toList = Nat.toDigits 10 n by simp [toString, Int.repr]] at hc
      exact isNumeric_toDigits n c hc
  | negSucc n =>
      rw [show (toString (Int.negSucc n)).toList = '-' :: Nat.toDigits 10 (n + 1) by
        simp [toString, Int.repr]] at hc
      rcases List.mem_cons.mp hc with rfl | hc
      · simp [IsNumeric]
      · exact isNumeric_toDigits _ c hc

/-- The digits of a binary number are digits, however many of them it takes.  They are found by
trying more and more of them, which does not matter here. -/
theorem isNumeric_shortest (x : Binary64) : ∀ c ∈ x.shortest.digits, IsNumeric c := by
  intro c hc
  unfold Binary64.shortest at hc
  simp only at hc
  generalize hfound : List.findSome? _ (List.range 17) = found? at hc
  cases found? with
  | none =>
      obtain rfl := List.mem_singleton.mp hc
      simp [IsNumeric]
  | some found =>
      obtain ⟨more, -, hmore⟩ := List.exists_of_findSome?_eq_some hfound
      obtain ⟨units, -, rfl⟩ := Option.map_eq_some_iff.mp hmore
      refine isNumeric_toDigits units c ?_
      have hdropped := List.mem_reverse.mp hc
      exact List.mem_reverse.mp ((List.dropWhile_sublist _).subset hdropped)

/-- Digits that are laid out, with a point or with a power behind them, are characters of numbers.
One case for each of the layouts. -/
theorem isNumeric_text {d : Binary64.Digits} (h : ∀ c ∈ d.digits, IsNumeric c)
    (form : Binary64.Layout) : ∀ c ∈ d.text form, IsNumeric c := by
  have hzeros : ∀ n, ∀ c ∈ List.replicate n '0', IsNumeric c := by
    intro n c hc
    obtain rfl := List.eq_of_mem_replicate hc
    simp [IsNumeric]
  have hdrop : ∀ n, ∀ c ∈ d.digits.drop n, IsNumeric c := fun n c hc => h c (List.mem_of_mem_drop hc)
  have htake : ∀ n, ∀ c ∈ d.digits.take n, IsNumeric c := fun n c hc => h c (List.mem_of_mem_take hc)
  have hpower : ∀ c ∈ Nat.toDigits 10 d.power.natAbs, IsNumeric c := isNumeric_toDigits _
  have hsign : IsNumeric (if d.power < 0 then '-' else '+') := by
    split <;> simp [IsNumeric]
  have hmark : IsNumeric '0' ∧ IsNumeric '.' ∧ IsNumeric 'e' := by simp [IsNumeric]
  unfold Binary64.Digits.text
  split
  next =>
    have hplaces : ∀ c ∈ if d.digits.tail.isEmpty then [] else '.' :: d.digits.tail, IsNumeric c := by
      split
      next => exact nofun
      next => exact List.forall_mem_cons.mpr ⟨hmark.2.1, fun c hc => h c (List.mem_of_mem_tail hc)⟩
    simp only [List.forall_mem_append, List.forall_mem_cons]
    exact ⟨⟨htake 1, hplaces⟩, hmark.2.2, hsign, hpower⟩
  next =>
    split
    next =>
      simp only [List.cons_append, List.forall_mem_append, List.forall_mem_cons]
      exact ⟨hmark.1, hmark.2.1, hzeros _, h⟩
    next =>
      have hplaces : ∀ c ∈ if d.digits.length ≤ d.power.toNat + 1 then ['0'] else
          d.digits.drop (d.power.toNat + 1), IsNumeric c := by
        split
        next => exact List.forall_mem_singleton.mpr hmark.1
        next => exact hdrop _
      simp only [List.forall_mem_append, List.forall_mem_cons]
      exact ⟨⟨htake _, hzeros _⟩, hmark.2.1, hplaces⟩

/-- **The text of a binary number** has nothing but the characters of numbers, in every form.  So it
is a token, whether or not it has a point or an exponent. -/
theorem isNumeric_toText (x : Binary64) (form : Binary64.Layout) :
    ∀ c ∈ x.toText form, IsNumeric c := by
  unfold Binary64.toText
  split
  next => simp [IsNumeric]
  next => exact isNumeric_text (isNumeric_shortest x) form

/-! ## Values -/

/-- A layout puts nothing but blanks between tokens: before elements and brackets, and behind the
colon of a member. -/
structure Layout.IsBlank (layout : Layout) : Prop where
  newline : ∀ depth, ∀ c ∈ (layout.newline depth).toList, isSpace c
  colon : Squeezes layout.colon ":"

/-- A line for each element is a blank layout: line feeds and the blanks that set a line in, and one
blank behind each colon. -/
theorem Layout.isBlank_lines : Layout.lines.IsBlank where
  newline := by
    intro depth c hc
    rcases List.mem_cons.mp (String.toList_ofList ▸ hc) with rfl | hc
    · rfl
    · obtain rfl := List.eq_of_mem_replicate hc
      rfl
  colon := fun rest => by simp [Layout.lines, squeezed, isSpace]

/-- What stands between elements goes, and the compact layout has nothing there either.  The depths
need not agree, as they do not matter to the compact layout. -/
theorem Layout.IsBlank.squeezes_newline (h : layout.IsBlank) (depth deep : Nat) :
    Squeezes (layout.newline depth) (Layout.compact.newline deep) :=
  .of_spaces (h.newline depth)

/-- A colon with a blank behind it is a colon without it. -/
theorem Layout.IsBlank.squeezes_colon (h : layout.IsBlank) :
    Squeezes layout.colon Layout.compact.colon :=
  h.colon

/-- A comma with a gap behind it is a comma without it. -/
theorem squeezes_comma : Squeezes "," "," :=
  .of_token (by decide)

mutual

/-- **A value in a blank layout** leaves the compact value.  The texts in front of it may be any that
leave one another, since each part of a value is written behind those before it. -/
theorem squeezes_write (h : layout.IsBlank) : ∀ (v : Json) (depth deep : Nat) {text short : String},
    Squeezes text short → Squeezes (v.write layout depth text) (v.write .compact deep short)
  | null, _, _, _, _, htext => htext.append (.of_token (by decide))
  | bool value, _, _, _, _, htext => htext.append (.of_token (by cases value <;> decide))
  | int value, _, _, _, _, htext => htext.append (.of_numeric (isNumeric_int value))
  | real negative magnitude, _, _, _, _, htext => by
    have hsign : Squeezes (if negative then "-" else "") (if negative then "-" else "") :=
      .of_token (by cases negative <;> decide)
    refine (htext.append hsign).append (.of_numeric ?_)
    rw [String.toList_ofList]
    exact isNumeric_toText magnitude numberLayout
  | str value, _, _, _, _, htext => htext.append (squeezes_quote value)
  | arr [], _, _, _, _, htext => htext.append (.of_token (by decide))
  | arr (item :: rest), depth, deep, _, _, htext => by
    have hbracket : Squeezes "[" "[" := .of_token (by decide)
    have hopen := (htext.append hbracket).append (h.squeezes_newline (depth + 1) (deep + 1))
    have hitems := squeezes_writeItems h rest (depth + 1) (deep + 1)
      (squeezes_write h item (depth + 1) (deep + 1) hopen)
    exact (hitems.append (h.squeezes_newline depth deep)).append (.of_token (by decide))
  | obj [], _, _, _, _, htext => htext.append (.of_token (by decide))
  | obj ((name, value) :: rest), depth, deep, _, _, htext => by
    have hbrace : Squeezes "\x7b" "\x7b" := .of_token (by decide)
    have hopen := (htext.append hbrace).append (h.squeezes_newline (depth + 1) (deep + 1))
    have hname := (hopen.append (squeezes_quote name)).append h.squeezes_colon
    have hmembers := squeezes_writeMembers h rest (depth + 1) (deep + 1)
      (squeezes_write h value (depth + 1) (deep + 1) hname)
    exact (hmembers.append (h.squeezes_newline depth deep)).append (.of_token (by decide))

/-- The items of an array after the first leave themselves, with their commas. -/
theorem squeezes_writeItems (h : layout.IsBlank) : ∀ (items : List Json) (depth deep : Nat)
    {text short : String}, Squeezes text short →
      Squeezes (writeItems layout depth text items) (writeItems .compact deep short items)
  | [], _, _, _, _, htext => htext
  | item :: rest, depth, deep, _, _, htext => by
    have hcomma := (htext.append squeezes_comma).append (h.squeezes_newline depth deep)
    exact squeezes_writeItems h rest depth deep (squeezes_write h item depth deep hcomma)

/-- The members of an object after the first leave themselves; of what stands behind a name, only the
colon stays. -/
theorem squeezes_writeMembers (h : layout.IsBlank) : ∀ (members : List (String × Json))
    (depth deep : Nat) {text short : String}, Squeezes text short →
      Squeezes (writeMembers layout depth text members) (writeMembers .compact deep short members)
  | [], _, _, _, _, htext => htext
  | (name, value) :: rest, depth, deep, _, _, htext => by
    have hcomma := (htext.append squeezes_comma).append (h.squeezes_newline depth deep)
    have hname := (hcomma.append (squeezes_quote name)).append h.squeezes_colon
    exact squeezes_writeMembers h rest depth deep (squeezes_write h value depth deep hname)

end

/-- **The laid out text of a value** is its compact text, apart from blanks outside of strings.  A
reader that skips those reads the same value from both. -/
theorem squeezed_pretty (v : Json) : squeezed false v.pretty.toList = v.compact.toList := by
  have hempty : Squeezes "" "" := fun _ => rfl
  have hwritten := squeezes_write Layout.isBlank_lines v 0 0 hempty []
  rwa [List.append_nil, squeezed, List.append_nil] at hwritten

end Sokoban.Json
