import Mathlib.Data.List.Flatten
import Sokoban.Proofs.RunLength.Sequence

/-! # Reading a sequence

The decoder reads one character after the other, with the groups that are open on a stack.  In
whatever groups a sequence stands, reading its text adds what it stands for to what has been
written; or reading fails, at the character with which the first item that does not fit is complete
(`Sequence.reads`).

`FailsAt` says at which character reading fails, and not only that it does.  This is needed because
a text may have several faults: what is reported is what turns out first, and a fault that a reader
of the text finds has to be compared with that place.

`Reads` tells what reading comes to by the items of a sequence, and three lemmas put it together:
what is read before everything (`Reads.prepend`), an item that has to fit (`Reads.limited`), and a
group, whose own items come before it (`Reads.inside`).  The induction over sequences only has to
pick one of them for each kind of item.
-/

namespace Sokoban.RunLength

/-- Reading a text, which begins in the first column, fails at the character before `stop`. -/
inductive FailsAt : State → Nat → List Char → Nat → Fault → Prop
  | here {s : State} {column : Nat} {c : Char} {fault : Fault} (rest : List Char)
      (h : step s column c = .error fault) : FailsAt s column (c :: rest) (column + 1) fault
  | later {s after : State} {column stop : Nat} {c : Char} {rest : List Char} {fault : Fault}
      (h : step s column c = .ok after) (hrest : FailsAt after (column + 1) rest stop fault) :
      FailsAt s column (c :: rest) stop fault

/-- What is written once more characters are. -/
def Written.extend (w : Written) (added : List Char) : Written :=
  ⟨added.reverse ++ w.reversed, w.bytes + String.utf8Len added⟩

/-- What reading a text comes to whose items are known: the first of them that does not fit is
refused when it is complete, and if all fit then the text is read and characters are added. -/
def Reads (s : State) (column : Nat) (text : List Char) (items : List Item) (added : List Char) :
    Prop :=
  match items.find? Item.exceeds with
  | none => ∃ count?, run s column text = .ok ⟨s.groups, s.written.extend added, count?⟩
  | some item => FailsAt s column text item.stop (.countTooLarge item.column)

/-- The state inside a group that is opened: its count, if there is one, begins in this column. -/
def State.inside (s : State) (column : Nat) (count? : Option Numeral) : State :=
  ⟨⟨column + (digitsOf count?).length, count?.map fun count => ⟨column, count.value⟩, s.written⟩ ::
    s.groups, .empty, none⟩

variable {s after : State} {column stop : Nat} {text a b added more digits : List Char}
  {fault : Fault} {c : Char} {items first : List Item} {item : Item}

/-! ## Where reading fails -/

/-- Two texts are read one after the other, the second in the columns behind the first.  The first
one has to be read without a fault for this; otherwise the second is not read at all. -/
theorem run_append (h : run s column a = .ok after) (b : List Char) :
    run s column (a ++ b) = run after (column + a.length) b := by
  induction a generalizing s column with
  | nil =>
      obtain rfl := Except.ok.inj h
      rfl
  | cons c rest ih =>
      rw [run] at h
      rw [List.cons_append, run]
      cases hstep : step s column c with
      | error fault => simp [hstep] at h
      | ok next =>
          rw [hstep] at h
          simp only [ih h, List.length_cons, Nat.add_assoc, Nat.add_comm 1]

namespace FailsAt

/-- Where reading fails at some character, it fails. -/
theorem run_eq (h : FailsAt s column text stop fault) : run s column text = .error fault := by
  induction h with
  | here rest h => rw [run, h]
  | later h _ ih =>
      rw [run, h]
      exact ih

/-- The character that reading fails at is one of the text. -/
theorem stop_le (h : FailsAt s column text stop fault) :
    column < stop ∧ stop ≤ column + text.length := by
  induction h with
  | here rest h => simp
  | later h _ ih =>
      rw [List.length_cons]
      omega

/-- Reading fails no later where more follows, because the rest is not looked at. -/
theorem append (h : FailsAt s column a stop fault) (b : List Char) :
    FailsAt s column (a ++ b) stop fault := by
  induction h with
  | here rest h => exact .here (rest ++ b) h
  | later h _ ih => exact .later h ih

/-- Reading fails where it does also behind a text that has been read, in columns that much further
down. -/
theorem prepend (h : FailsAt after (column + a.length) b stop fault)
    (hrun : run s column a = .ok after) : FailsAt s column (a ++ b) stop fault := by
  induction a generalizing s column with
  | nil =>
      obtain rfl := Except.ok.inj hrun
      exact h
  | cons c rest ih =>
      rw [run] at hrun
      cases hstep : step s column c with
      | error fault => simp [hstep] at hrun
      | ok next =>
          rw [hstep] at hrun
          refine .later hstep (ih ?_ hrun)
          rwa [List.length_cons, Nat.add_comm rest.length, ← Nat.add_assoc] at h

/-- Reading fails once, at one item and one column; what follows is not read. -/
theorem unique {stop' : Nat} {fault' : Fault} (h : FailsAt s column text stop fault)
    (h' : FailsAt s column text stop' fault') : stop = stop' ∧ fault = fault' := by
  induction h with
  | here rest h =>
      cases h' with
      | here _ h' => exact ⟨rfl, Except.error.inj (h.symm.trans h')⟩
      | later h' _ => cases h.symm.trans h'
  | later h _ ih =>
      cases h' with
      | here _ h' => cases h.symm.trans h'
      | later h' hrest' =>
          obtain rfl := Except.ok.inj (h.symm.trans h')
          exact ih hrest'

end FailsAt

/-- Where reading is refused, there is a character that it fails at: the first for which there is no
next state. -/
theorem exists_failsAt (h : run s column text = .error fault) :
    ∃ stop, FailsAt s column text stop fault := by
  induction text generalizing s column with
  | nil => cases h
  | cons c rest ih =>
      rw [run] at h
      cases hstep : step s column c with
      | error other =>
          rw [hstep] at h
          obtain rfl := Except.error.inj h
          exact ⟨_, .here rest hstep⟩
      | ok next =>
          rw [hstep] at h
          obtain ⟨stop, hrest⟩ := ih h
          exact ⟨stop, .later hstep hrest⟩

/-! ## What is written -/

/-- What is written in two parts might be written in one. -/
theorem Written.extend_extend (w : Written) (added more : List Char) :
    (w.extend added).extend more = w.extend (added ++ more) := by
  simp [extend, Nat.add_assoc]

/-- Copies of a text take up as many bytes each as the text does. -/
theorem utf8Len_copies (times : Nat) (added : List Char) :
    String.utf8Len (List.replicate times added).flatten = times * String.utf8Len added := by
  induction times with
  | zero => simp
  | succ times ih =>
      rw [List.replicate_succ, List.flatten_cons, String.utf8Len_append, ih, Nat.succ_mul, Nat.add_comm]

/-- Copies of a character take up as many bytes each as the character does. -/
theorem utf8Len_replicate (times : Nat) (c : Char) :
    String.utf8Len (List.replicate times c) = times * c.utf8Size := by
  have hbytes : String.utf8Len [c] = c.utf8Size := Nat.zero_add _
  rw [← List.flatten_replicate_singleton, utf8Len_copies, hbytes]

/-- **Copies of what a group has written** are written behind what was there before, bytes and all.
-/
theorem Written.append_times (w : Written) (added : List Char) (times : Nat) :
    w.append ((empty.extend added).times times) =
      w.extend (List.replicate times added).flatten := by
  have hreverse : (List.replicate times added).flatten.reverse =
      (List.replicate times added.reverse).flatten := by
    rw [List.reverse_flatten, List.map_replicate, List.reverse_replicate]
  by_cases hnil : added = []
  · simp [hnil, extend, empty, Written.times, append]
  · simp [hnil, extend, empty, Written.times, append, utf8Len_copies, hreverse]

/-- Copies of an item are written if they fit. -/
theorem write_extend (w : Written) (added : List Char) (times column : Nat) :
    write w (Written.empty.extend added) times column =
      if w.bytes + times * String.utf8Len added ≤ maxBytes then
        .ok (w.extend (List.replicate times added).flatten)
      else .error (.countTooLarge column) := by
  have hbytes : (Written.empty.extend added).bytes = String.utf8Len added := Nat.zero_add _
  rw [write, hbytes, Written.append_times]

/-! ## Steps -/

/-- The value of a decimal digit is its distance from the digit nought. -/
theorem digit?_eq_some {d : Nat} (h : digit? c = some d) : d = c.toNat - '0'.toNat ∧ d ≤ 9 := by
  unfold digit? at h
  split at h
  next hrange =>
    obtain rfl := Option.some.inj h
    have hle : c.toNat ≤ '9'.toNat := hrange.2
    have hnine : '9'.toNat = 57 := rfl
    have hzero : '0'.toNat = 48 := rfl
    exact ⟨rfl, by omega⟩
  next => cases h

/-- A digit makes the count in front of an item one digit longer, or begins one, and writes nothing.
-/
theorem step_digit {d : Nat} (h : digit? c = some d) (s : State) (column : Nat) :
    step s column c = .ok { s with count? := some (Count.next s.count? column d) } := by
  have hopen : c ≠ '(' := by
    rintro rfl
    cases h
  have hclose : c ≠ ')' := by
    rintro rfl
    cases h
  rw [step, if_neg hopen, if_neg hclose, h]

/-- More digits of a count.  A count that is cut off at the largest one stays there, whichever
digits follow, so cutting off in the end comes to the same. -/
theorem run_more_digits (hdigits : ∀ c ∈ digits, (digit? c).isSome) (s : State)
    (start column value : Nat) :
    run { s with count? := some ⟨start, min value maxCount⟩ } column digits =
      .ok { s with count? := some ⟨start, min (Nat.ofDigitChars 10 digits value) maxCount⟩ } := by
  induction digits generalizing column value with
  | nil => rfl
  | cons c rest ih =>
      obtain ⟨d, hd⟩ := Option.isSome_iff_exists.mp (hdigits c List.mem_cons_self)
      have hrest := fun e he => hdigits e (List.mem_cons_of_mem c he)
      have hvalue : min (min value maxCount * 10 + d) maxCount =
          min (10 * value + (c.toNat - '0'.toNat)) maxCount := by
        rw [(digit?_eq_some hd).1]
        omega
      rw [run, step_digit hd]
      simp only [Count.next, hvalue, ih hrest, Nat.ofDigitChars_cons]

/-- **A count** is read and waits for what it repeats.  Its digits are added up with a bound, so a
count that is too large counts as the largest. -/
theorem run_digitsOf (hs : s.count? = none) (count? : Option Numeral) (column : Nat) :
    run s column (digitsOf count?) =
      .ok { s with count? := count?.map fun count => ⟨column, count.value⟩ } := by
  cases count? with
  | none => rw [Option.map_none, ← hs]; rfl
  | some count =>
      obtain ⟨digits, hne, hdigits⟩ := count
      obtain ⟨c, rest, rfl⟩ := List.exists_cons_of_ne_nil hne
      obtain ⟨d, hd⟩ := Option.isSome_iff_exists.mp (hdigits c List.mem_cons_self)
      have hrest := fun e he => hdigits e (List.mem_cons_of_mem c he)
      obtain ⟨hvalue, hle⟩ := digit?_eq_some hd
      have hlarge : 9 ≤ maxCount := by decide
      have hmin : d = min (10 * 0 + (c.toNat - '0'.toNat)) maxCount := by omega
      have hnext : Count.next s.count? column d =
          ⟨column, min (10 * 0 + (c.toNat - '0'.toNat)) maxCount⟩ := by
        rw [hs, ← hmin]
        rfl
      rw [digitsOf, Option.elim_some, run, step_digit hd, hnext]
      exact run_more_digits hrest s column (column + 1) _

/-- A literal behind a count is written as often as it says. -/
theorem step_counted (c : Literal) {count : Count} (hs : s.count? = some count) (column : Nat) :
    step s column c.val =
      if s.written.bytes + count.value * c.val.utf8Size ≤ maxBytes then
        .ok ⟨s.groups, s.written.extend (List.replicate count.value c.val), none⟩
      else .error (.countTooLarge count.column) := by
  have hsingle : Written.single c.val = Written.empty.extend [c.val] := by
    simp [Written.single, Written.extend, Written.empty]
  have hbytes : String.utf8Len [c.val] = c.val.utf8Size := Nat.zero_add _
  rw [step, if_neg c.ne_open, if_neg c.ne_close, c.digit?_eq_none, hs]
  simp only [hsingle, write_extend, hbytes, List.flatten_replicate_singleton]
  split <;> rfl

/-- A bracket opens a group, whose count waits with what has been written before it. -/
theorem run_open (hs : s.count? = none) (column : Nat) (count? : Option Numeral) :
    run s column (digitsOf count? ++ ['(']) = .ok (s.inside column count?) := by
  rw [run_append (run_digitsOf hs count? column)]
  rfl

/-- Closing the group writes what is inside it, as often as the count says. -/
theorem step_close (s : State) (column : Nat) (count? : Option Numeral) (added : List Char)
    (dangling? : Option Count) (last : Nat) :
    step ⟨(s.inside column count?).groups, Written.empty.extend added, dangling?⟩ last ')' =
      if s.written.bytes + timesOf count? * String.utf8Len added ≤ maxBytes then
        .ok ⟨s.groups, s.written.extend (List.replicate (timesOf count?) added).flatten, none⟩
      else .error (.countTooLarge column) := by
  have hcount : (count?.map fun count => (⟨column, count.value⟩ : Count)).getD
      ⟨column + (digitsOf count?).length, 1⟩ = ⟨column, timesOf count?⟩ := by
    cases count? <;> rfl
  rw [step, if_neg (by decide), if_pos rfl, close]
  simp only [State.inside, hcount, write_extend]
  split <;> rfl

/-! ## Sequences -/

namespace Reads

/-- What is read before everything, and writes something, but calls for no item to fit. -/
theorem prepend (hrun : run s column a = .ok ⟨s.groups, s.written.extend added, none⟩)
    (h : Reads ⟨s.groups, s.written.extend added, none⟩ (column + a.length) b items more) :
    Reads s column (a ++ b) items (added ++ more) := by
  unfold Reads at h ⊢
  cases hfind : items.find? Item.exceeds with
  | none =>
      simp only [hfind] at h ⊢
      obtain ⟨count?, hb⟩ := h
      exact ⟨count?, by rw [run_append hrun, hb, Written.extend_extend]⟩
  | some item =>
      simp only [hfind] at h ⊢
      exact h.prepend hrun

/-- **An item that is complete with the next character** and has to fit then: if it does not,
reading fails at that character, and otherwise it goes on behind it. -/
theorem limited (hrun : run s column a = .ok after) (hstop : item.stop = column + a.length + 1)
    (hstep : step after (column + a.length) c =
      if item.bytes ≤ maxBytes then .ok ⟨s.groups, s.written.extend added, none⟩
      else .error (.countTooLarge item.column))
    (h : Reads ⟨s.groups, s.written.extend added, none⟩ item.stop b items more) :
    Reads s column (a ++ c :: b) (item :: items) (added ++ more) := by
  by_cases hfits : item.bytes ≤ maxBytes
  · have hitem : ¬item.exceeds := by simpa [Item.exceeds] using hfits
    have hnext : run s column (a ++ [c]) = .ok ⟨s.groups, s.written.extend added, none⟩ := by
      rw [run_append hrun, run, hstep, if_pos hfits]
      rfl
    rw [hstop] at h
    have hrest := prepend hnext (by simpa [Nat.add_assoc] using h)
    rw [List.append_assoc, List.singleton_append] at hrest
    rwa [Reads, List.find?_cons_of_neg hitem]
  · have hitem : item.exceeds := by simpa [Item.exceeds] using hfits
    rw [if_neg hfits] at hstep
    have hfails : FailsAt s column (a ++ c :: b) item.stop (.countTooLarge item.column) := by
      rw [hstop]
      exact (FailsAt.here b hstep).prepend hrun
    rwa [Reads, List.find?_cons_of_pos hitem]

/-- **Items inside a group** come before the group, as they are complete before it is.  So the first
item that does not fit may lie inside one that would not fit either. -/
theorem inside (hrun : run s column a = .ok after)
    (hbody : Reads after (column + a.length) b first added)
    (h : first.find? Item.exceeds = none → Reads s column (a ++ (b ++ text)) items more) :
    Reads s column (a ++ (b ++ text)) (first ++ items) more := by
  rw [Reads, List.find?_append]
  cases hfind : first.find? Item.exceeds with
  | none => exact h hfind
  | some item =>
      simp only [Reads, hfind] at hbody
      exact (hbody.append text).prepend hrun

end Reads

/-- The bytes of copies of a group are counted once for each copy. -/
theorem Written.bytes_extend_flatten (w : Written) (times : Nat) (added : List Char) :
    (w.extend (List.replicate times added).flatten).bytes =
      w.bytes + times * String.utf8Len added := by
  rw [extend, utf8Len_copies]

/-- The bytes of copies of a character are counted once for each copy. -/
theorem Written.bytes_extend_copies (w : Written) (times : Nat) (c : Char) :
    (w.extend (List.replicate times c)).bytes = w.bytes + times * c.utf8Size := by
  rw [extend, utf8Len_replicate]

/-- **Reading a sequence**, wherever it stands, adds what the sequence stands for; or it fails with
the first item of the sequence to be complete that does not fit. -/
theorem Sequence.reads (q : Sequence) (hs : s.count? = none) (column : Nat) :
    Reads s column q.text (q.limited column s.written.bytes) q.expand := by
  induction q generalizing s column with
  | done dangling? => exact ⟨_, run_digitsOf hs dangling? column⟩
  | char count? c rest ih =>
      cases count? with
      | none =>
          have hrun : run s column [c.val] = .ok ⟨s.groups, s.written.extend [c.val], none⟩ := by
            rw [run, step_literal c.property hs, hs]
            simp [run, Written.append, Written.single, Written.extend]
          have hrest := ih (s := ⟨s.groups, s.written.extend [c.val], none⟩) rfl (column + 1)
          rw [show [c.val] = List.replicate 1 c.val from rfl, Written.bytes_extend_copies,
            Nat.one_mul] at hrest
          have hreads : Reads s column ([c.val] ++ rest.text) _ ([c.val] ++ rest.expand) :=
            .prepend hrun hrest
          exact hreads
      | some count =>
          have hdigits := run_digitsOf hs (some count) column
          have hstep := step_counted c (s := { s with count? := some ⟨column, count.value⟩ }) rfl
            (column + count.digits.length)
          have hrest := ih (s := ⟨s.groups, s.written.extend (List.replicate count.value c.val), none⟩)
            rfl (column + count.digits.length + 1)
          rw [Written.bytes_extend_copies] at hrest
          exact .limited hdigits rfl hstep hrest
  | group count? body rest ihb ihr =>
      have hopen := run_open hs column count?
      have hbody : Reads (s.inside column count?) (column + (digitsOf count? ++ ['(']).length)
          body.text (body.limited (column + (digitsOf count?).length + 1) 0) body.expand := by
        rw [List.length_append]
        exact ihb rfl (column + (digitsOf count?).length + 1)
      have hrest := ihr (s := ⟨s.groups, s.written.extend
        (List.replicate (timesOf count?) body.expand).flatten, none⟩) rfl
        (column + (digitsOf count?).length + 1 + body.text.length + 1)
      rw [Written.bytes_extend_flatten] at hrest
      have htext : (group count? body rest).text =
          (digitsOf count? ++ ['(']) ++ (body.text ++ ')' :: rest.text) := by simp [text]
      rw [htext]
      refine .inside hopen hbody fun hfits => ?_
      -- The group fits inside, so its closing bracket decides.
      simp only [Reads, hfits] at hbody
      obtain ⟨dangling?, hinner⟩ := hbody
      have hgroup : run s column ((digitsOf count? ++ ['(']) ++ body.text) =
          .ok ⟨(s.inside column count?).groups, Written.empty.extend body.expand, dangling?⟩ :=
        (run_append hopen body.text).trans hinner
      rw [← List.append_assoc]
      refine .limited hgroup ?_ (step_close s column count? body.expand dangling? _) hrest
      simp only [List.length_append, List.length_singleton]
      omega

end Sokoban.RunLength
