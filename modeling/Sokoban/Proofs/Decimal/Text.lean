import Mathlib.Data.List.Basic
import Sokoban.Decimal.Text

/-! # Decimals that are read again

The text of a decimal has a digit before the point, as many digits behind it as the decimal has
places, and a minus where it is below nought.  It is made from the digits of the mantissa, with
noughts in front of them if there are too few for the places, and the point is put among them
(`insertPoint`).

Reading takes one digit after the other into a mantissa and counts the places behind the point.  It
stops taking digits when the mantissa is full, which is where a longer text would be rounded.  As
the mantissa and the places of a decimal fit, this never happens on its own text (`foldlM_step`), so
nothing is rounded: a decimal is read as it was written (`ofText?_toText`).  Only nought loses its
sign, for the text has a minus only in front of a number below nought.

The invariant of the reading is about the state that the digits lead to: its mantissa is the number
that all digits so far stand for, and its places are the digits since the point.  A mantissa only
grows with more digits (`le_ofDigitChars`), so the bound on the whole of it is one on each state on
the way.
-/

namespace Sokoban.Decimal

variable {s : Digits} {c : Char} {cs : List Char} {mantissa places : Nat}

/-! ## Digits -/

/-- A mantissa is written with the digits of the decimal system only. -/
theorem isDigit_toDigits (n : Nat) : ∀ c ∈ Nat.toDigits 10 n, c.isDigit := by
  intro c hc
  exact Nat.isDigit_of_mem_toDigits (by decide) (by decide) hc

/-- Digits with noughts in front of them, so that a point can stand before the last `places`, are
digits still.  This is what the reader is given on both sides of the point. -/
theorem isDigit_padded (mantissa places : Nat) :
    ∀ c ∈ List.replicate (places + 1 - (Nat.toDigits 10 mantissa).length) '0' ++
      Nat.toDigits 10 mantissa, c.isDigit := by
  intro c hc
  rcases List.mem_append.mp hc with hzero | hdigit
  · rw [List.eq_of_mem_replicate hzero]
    decide
  · exact isDigit_toDigits mantissa c hdigit

/-- There are more digits than places, so that at least one digit stands before the point:  `0.5`
and not `.5`. -/
theorem length_padded (mantissa places : Nat) :
    places + 1 ≤ (List.replicate (places + 1 - (Nat.toDigits 10 mantissa).length) '0' ++
      Nat.toDigits 10 mantissa).length := by
  rw [List.length_append, List.length_replicate]
  omega

/-- Noughts in front of the digits do not change the number that is read. -/
theorem ofDigitChars_padded (n mantissa : Nat) :
    Nat.ofDigitChars 10 (List.replicate n '0' ++ Nat.toDigits 10 mantissa) 0 = mantissa := by
  induction n with
  | zero => exact Nat.ofDigitChars_toDigits (by decide) (by decide)
  | succ n ih => exact ih

/-- More digits make no smaller number.  So a mantissa that fits at the end has fitted after each of
its digits. -/
theorem le_ofDigitChars (cs : List Char) (n : Nat) : n ≤ Nat.ofDigitChars 10 cs n := by
  induction cs generalizing n with
  | nil => exact Nat.le_refl n
  | cons c cs ih =>
      rw [Nat.ofDigitChars_cons]
      exact Nat.le_trans (by omega) (ih _)

/-! ## Reading -/

/-- One digit more, where there is room for it: the mantissa takes the digit at its end, and behind
the point there is one place more. -/
theorem step_digit (hc : c.isDigit) (hfull : s.full = false)
    (hroom : 10 * s.mantissa + (c.toNat - '0'.toNat) < twoPow 96)
    (hplaces : s.pointed → s.scale < 28) :
    s.step c = some { s with
      mantissa := 10 * s.mantissa + (c.toNat - '0'.toNat)
      scale := if s.pointed then s.scale + 1 else s.scale
      started := true } := by
  have hrange : '0' ≤ c ∧ c ≤ '9' := by
    rw [Char.isDigit, Bool.and_eq_true, decide_eq_true_eq, decide_eq_true_eq] at hc
    exact hc
  rw [Digits.step, if_pos hrange]
  generalize c.toNat - '0'.toNat = digit at hroom ⊢
  rw [Nat.mul_comm] at hroom
  unfold Digits.digit
  simp only [hfull, Bool.false_eq_true, if_false, Nat.mul_comm 10]
  cases hpoint : s.pointed with
  | true => simp [hroom, hplaces hpoint]
  | false => simp [hroom]

/-- **Digits** are read one after the other.  By induction on them: the room that is left for all
digits is room for the first, and what remains of it is the room for the others. -/
theorem foldlM_step (hcs : ∀ c ∈ cs, c.isDigit) (hfull : s.full = false)
    (hroom : Nat.ofDigitChars 10 cs s.mantissa < twoPow 96)
    (hplaces : s.pointed → s.scale + cs.length ≤ 28) :
    cs.foldlM Digits.step s = some { s with
      mantissa := Nat.ofDigitChars 10 cs s.mantissa
      scale := if s.pointed then s.scale + cs.length else s.scale
      started := s.started || !cs.isEmpty } := by
  induction cs generalizing s with
  | nil => cases s; simp
  | cons c cs ih =>
      obtain ⟨hc, hrest⟩ := List.forall_mem_cons.mp hcs
      rw [Nat.ofDigitChars_cons] at hroom ⊢
      rw [List.length_cons] at hplaces
      let next : Digits := { s with
        mantissa := 10 * s.mantissa + (c.toNat - '0'.toNat)
        scale := if s.pointed then s.scale + 1 else s.scale
        started := true }
      have hnext : s.step c = some next :=
        step_digit hc hfull (Nat.lt_of_le_of_lt (le_ofDigitChars cs _) hroom) fun hpoint => by
          have hall := hplaces hpoint
          omega
      have hlater : next.pointed → next.scale + cs.length ≤ 28 := fun hpoint => by
        have hall := hplaces hpoint
        simp only [next, show s.pointed = true from hpoint, if_true]
        omega
      rw [List.foldlM_cons, hnext, Option.bind_eq_bind, Option.bind_some,
        ih (s := next) hrest hfull hroom hlater]
      cases hpoint : s.pointed <;> simp [next, hpoint, Nat.add_assoc, Nat.add_comm 1]

/-- The digits of a mantissa are read with the point among them.  What stands before the point is
read as a number, the point starts the count of places, and what stands behind it is read on. -/
theorem foldlM_insertPoint (hmantissa : mantissa < twoPow 96) (hplaces : places ≤ 28) :
    (insertPoint (Nat.toDigits 10 mantissa) places).foldlM Digits.step {} =
      some { mantissa, scale := places, started := true, pointed := places != 0 } := by
  unfold insertPoint
  split
  next hnone =>
    have hvalue : Nat.ofDigitChars 10 (Nat.toDigits 10 mantissa) 0 = mantissa :=
      Nat.ofDigitChars_toDigits (by decide) (by decide)
    rw [foldlM_step (isDigit_toDigits mantissa) rfl (hvalue.symm ▸ hmantissa) (by simp), hvalue]
    simp [hnone]
  next hsome =>
    have hlength := length_padded mantissa places
    have hdigits := isDigit_padded mantissa places
    have hvalue := ofDigitChars_padded (places + 1 - (Nat.toDigits 10 mantissa).length) mantissa
    simp only
    generalize List.replicate (places + 1 - (Nat.toDigits 10 mantissa).length) '0' ++
      Nat.toDigits 10 mantissa = digits at hlength hdigits hvalue ⊢
    -- The point stands in front of the last places, and behind one digit at least.
    obtain ⟨whole, rest, rfl, hrest⟩ : ∃ whole rest, digits = whole ++ rest ∧
        rest.length = places :=
      ⟨_, _, (List.take_append_drop (digits.length - places) digits).symm, by simp; omega⟩
    have hwhole : whole ≠ [] := by
      rintro rfl
      rw [List.nil_append, hrest] at hlength
      omega
    rw [List.forall_mem_append] at hdigits
    rw [Nat.ofDigitChars_append] at hvalue
    have hshort : Nat.ofDigitChars 10 whole 0 < twoPow 96 :=
      Nat.lt_of_le_of_lt (hvalue ▸ le_ofDigitChars rest _) hmantissa
    have hpoint : ∀ s : Digits, s.pointed = false →
        s.step '.' = some { s with pointed := true } := by
      intro s hs
      simp [Digits.step, hs]
    rw [List.length_append, hrest, Nat.add_sub_cancel, List.take_left, List.drop_left,
      List.foldlM_append, foldlM_step hdigits.1 rfl hshort (by simp), Option.bind_eq_bind,
      Option.bind_some, List.foldlM_cons, hpoint _ rfl, Option.bind_eq_bind, Option.bind_some,
      foldlM_step hdigits.2 rfl (hvalue.symm ▸ hmantissa) (by simpa [hrest] using hplaces)]
    simp [hvalue, hrest, hsome, hwhole]

/-- A number without its sign begins with a digit.  So the sign can be told from what follows, and
the text is never empty. -/
theorem exists_insertPoint (mantissa places : Nat) :
    ∃ c rest, insertPoint (Nat.toDigits 10 mantissa) places = c :: rest ∧ c.isDigit := by
  unfold insertPoint
  split
  next =>
    obtain ⟨c, rest, hdigits⟩ := List.exists_cons_of_ne_nil (Nat.toDigits_ne_nil (b := 10) (n := mantissa))
    exact ⟨c, rest, hdigits, isDigit_toDigits mantissa c (hdigits ▸ List.mem_cons_self)⟩
  next =>
    have hlength := length_padded mantissa places
    have hdigits := isDigit_padded mantissa places
    simp only
    generalize List.replicate (places + 1 - (Nat.toDigits 10 mantissa).length) '0' ++
      Nat.toDigits 10 mantissa = digits at hlength hdigits ⊢
    obtain ⟨c, rest, rfl⟩ : ∃ c rest, digits = c :: rest :=
      List.exists_cons_of_length_pos (by omega)
    obtain ⟨n, hn⟩ : ∃ n, (c :: rest).length - places = n + 1 :=
      Nat.exists_eq_succ_of_ne_zero (by omega)
    exact ⟨c, _, by rw [hn, List.take_succ_cons]; rfl, hdigits c List.mem_cons_self⟩

/-- No sign is taken from a text that begins with a digit, since a digit is neither of the two signs
that could stand there. -/
theorem splitSign_of_isDigit (hc : c.isDigit) : splitSign (c :: cs) = (false, c :: cs) := by
  unfold splitSign
  split
  next heq =>
    obtain ⟨rfl, -⟩ := List.cons.inj heq
    cases hc
  next heq =>
    obtain ⟨rfl, -⟩ := List.cons.inj heq
    cases hc
  next => rfl

/-- **A decimal** is read as it was written, but for the sign of nought.  The sign is taken off
first, and then the digits are read with the point among them; all fit, so nothing is rounded. -/
theorem ofText?_toText (d : Decimal) :
    ofText? d.toText.toList = some { d with negative := d.isNegative } := by
  have hread := foldlM_insertPoint d.mantissa_lt d.scale_le
  have hparts : ofParts? d.isNegative d.mantissa d.scale =
      some { d with negative := d.isNegative } := dif_pos ⟨d.mantissa_lt, d.scale_le⟩
  have hsplit : splitSign d.toText.toList =
      (d.isNegative, insertPoint (Nat.toDigits 10 d.mantissa) d.scale) := by
    obtain ⟨c, rest, htext, hc⟩ := exists_insertPoint d.mantissa d.scale
    rw [toText, htext]
    cases d.isNegative with
    | true => simp [splitSign]
    | false => simpa using splitSign_of_isDigit hc
  rw [ofText?, readPlain?, hsplit]
  simp only [hread, Option.bind_eq_bind, Option.bind_some, if_true, hparts]
  rfl

/-- The text of a decimal consists of digits, a point and a minus.  None of them stands for anything
else in a list of items, so the text may be put into one. -/
theorem mem_toText {d : Decimal} (h : c ∈ d.toText.toList) : c.isDigit ∨ c = '.' ∨ c = '-' := by
  have hmagnitude : ∀ c ∈ insertPoint (Nat.toDigits 10 d.mantissa) d.scale,
      c.isDigit ∨ c = '.' ∨ c = '-' := by
    intro c hc
    unfold insertPoint at hc
    split at hc
    next => exact .inl (isDigit_toDigits d.mantissa c hc)
    next =>
      have hdigits := isDigit_padded d.mantissa d.scale c
      simp only at hc
      rcases List.mem_append.mp hc with hwhole | hrest
      · exact .inl (hdigits (List.mem_of_mem_take hwhole))
      · rcases List.mem_cons.mp hrest with rfl | hplace
        · exact .inr (.inl rfl)
        · exact .inl (hdigits (List.mem_of_mem_drop hplace))
  rw [toText] at h
  cases hsign : d.isNegative with
  | false =>
      rw [hsign] at h
      exact hmagnitude c (by simpa using h)
  | true =>
      rw [hsign] at h
      rcases List.mem_cons.mp (show c ∈ '-' :: insertPoint (Nat.toDigits 10 d.mantissa) d.scale by
        simpa using h) with rfl | hmore
      · exact .inr (.inr rfl)
      · exact hmagnitude c hmore

end Sokoban.Decimal
