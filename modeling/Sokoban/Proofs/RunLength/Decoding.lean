import Sokoban.Proofs.RunLength.Brackets
import Sokoban.Proofs.RunLength.Reading

/-! # What decoding gives

The text of a sequence is decoded to what the sequence stands for, if all items that have to fit do;
otherwise the first of them to be complete that does not is reported (`decode_sequence`).  A text
whose brackets do not balance is refused, for its brackets or for an item that is complete before
the fault in them turns out (`decode_brackets`).

An item that has to fit leaves its sequence within the limit, and one that has not adds no more than
is written.  So what a text is decoded to is longer by no more than the limit
(`utf8Len_le_of_decode`).
-/

namespace Sokoban.RunLength

/-- An item of a text does not fit.  The sequence that it is part of begins where the text begins or
behind an opening bracket. -/
def Oversized (text : List Char) (item : Item) : Prop :=
  item.exceeds ∧ ∃ (outer : List Char) (q : Sequence) (rest : List Char),
    text = outer ++ q.text ++ rest ∧ (∀ c ∈ outer.getLast?, c = '(') ∧
      item ∈ q.limited outer.length 0

/-- The first item of a text to be complete that does not fit. -/
structure FirstOversized (text : List Char) (item : Item) : Prop where
  oversized : Oversized text item
  first : ∀ other, Oversized text other → item.stop ≤ other.stop
  column_eq : ∀ other, Oversized text other → other.stop = item.stop → other.column = item.column

/-- Decoding reports a fault that turns out when so much has been read, unless an item that does not
fit is complete by then. -/
def Answers (text : List Char) (fault : Fault) (read : Nat) : Prop :=
  (decode text = .error fault ∧ ∀ item, Oversized text item → read < item.stop) ∨
    ∃ item, decode text = .error (.countTooLarge item.column) ∧ FirstOversized text item ∧
      item.stop ≤ read

variable {text outer decoded : List Char} {s now : State} {column stop : Nat} {q : Sequence}
  {item other : Item} {fault : Fault} {a b : List Char}

/-! ## Items that do not fit -/

/-- An item that does not fit does not fit when more is written behind it either. -/
theorem Oversized.append (h : Oversized a item) (b : List Char) : Oversized (a ++ b) item := by
  obtain ⟨hexceeds, outer, q, rest, rfl, hlast, hmem⟩ := h
  exact ⟨hexceeds, outer, q, rest ++ b, by simp, hlast, hmem⟩

/-- A text that is read is read up to any place in it. -/
theorem exists_run_append (h : run s column (a ++ b) = .ok now) :
    ∃ middle, run s column a = .ok middle ∧ run middle (column + a.length) b = .ok now := by
  cases hrun : run s column a with
  | error fault =>
      obtain ⟨stop, hfails⟩ := exists_failsAt hrun
      cases (hfails.append b).run_eq.symm.trans h
  | ok middle =>
      rw [run_append hrun] at h
      exact ⟨middle, rfl, h⟩

/-- At the beginning, and behind an opening bracket, nothing has been written and no count has been
read. -/
theorem fresh_of_run (h : run .initial 0 outer = .ok now) (hlast : ∀ c ∈ outer.getLast?, c = '(') :
    now.count? = none ∧ now.written = .empty := by
  cases hempty : outer.getLast? with
  | none =>
      rw [List.getLast?_eq_none_iff] at hempty
      subst hempty
      obtain rfl := Except.ok.inj h
      exact ⟨rfl, rfl⟩
  | some c =>
      obtain ⟨init, rfl⟩ := List.getLast?_eq_some_iff.mp hempty
      obtain rfl := hlast c hempty
      obtain ⟨middle, -, hopen⟩ := exists_run_append h
      obtain rfl := Except.ok.inj hopen
      exact ⟨rfl, rfl⟩

/-- The first item that is found is the first to be complete: any other one that does not fit is
complete further on.  So decoding stops at this one. -/
theorem Sequence.eq_or_lt_of_find? {bytes : Nat}
    (hfind : (q.limited column bytes).find? Item.exceeds = some item)
    (hmem : other ∈ q.limited column bytes) (hother : other.exceeds) :
    other = item ∨ item.stop < other.stop := by
  obtain ⟨-, before, later, hlist, hbefore⟩ := List.find?_eq_some_iff_append.mp hfind
  have hpairwise := q.pairwise_limited column bytes
  rw [hlist] at hpairwise hmem
  rcases List.mem_append.mp hmem with hmem | hmem
  · have hfits := hbefore other hmem
    simp [hother] at hfits
  · rcases List.mem_cons.mp hmem with rfl | hmem
    · exact .inl rfl
    · have hcons := (List.pairwise_append.mp hpairwise).2.1
      exact .inr ((List.pairwise_cons.mp hcons).1 other hmem)

/-- **Reading a piece** of a text, which begins where nothing has been written: at the beginning, or
behind an open bracket.  There no count is waiting for its item. -/
theorem reads_piece (hrun : run .initial 0 outer = .ok now)
    (hlast : ∀ c ∈ outer.getLast?, c = '(') (q : Sequence) :
    Reads now outer.length q.text (q.limited outer.length 0) q.expand := by
  obtain ⟨hcount, hwritten⟩ := fresh_of_run hrun hlast
  have hreads := q.reads hcount outer.length
  rwa [hwritten] at hreads

/-- **An item that does not fit** is refused when it is complete, unless something is refused
before.  What stands before its sequence is read or refused; if it is read, the sequence begins
where nothing has been written, and fails with the first of its items that does not fit. -/
theorem Oversized.exists_failsAt (h : Oversized text item) :
    ∃ stop fault, FailsAt .initial 0 text stop fault ∧
      (stop < item.stop ∨ stop = item.stop ∧ fault = .countTooLarge item.column) := by
  obtain ⟨hexceeds, outer, q, rest, rfl, hlast, hmem⟩ := h
  have hstop := (Sequence.stop_of_mem_limited hmem).1
  cases hrun : run .initial 0 outer with
  | error fault =>
      obtain ⟨stop, hfails⟩ := RunLength.exists_failsAt hrun
      have hle := hfails.stop_le.2
      exact ⟨stop, fault, (hfails.append _).append _, .inl (by omega)⟩
  | ok now =>
      have hreads := reads_piece hrun hlast q
      cases hfind : (q.limited outer.length 0).find? Item.exceeds with
      | none => exact absurd hexceeds (List.find?_eq_none.mp hfind item hmem)
      | some first =>
          rw [Reads, hfind] at hreads
          have hfails : FailsAt .initial 0 (outer ++ q.text) first.stop (.countTooLarge first.column) :=
            FailsAt.prepend (by rwa [Nat.zero_add]) hrun
          refine ⟨_, _, hfails.append rest, ?_⟩
          rcases Sequence.eq_or_lt_of_find? hfind hmem hexceeds with rfl | hlt
          · exact .inr ⟨rfl, rfl⟩
          · exact .inl hlt

/-- Wherever reading fails, it fails no later than an item that does not fit is complete. -/
theorem Oversized.stop_ge (h : Oversized text item) (hfails : FailsAt .initial 0 text stop fault) :
    stop < item.stop ∨ stop = item.stop ∧ fault = .countTooLarge item.column := by
  obtain ⟨stop', fault', hfails', hcases⟩ := h.exists_failsAt
  obtain ⟨rfl, rfl⟩ := hfails.unique hfails'
  exact hcases

/-- A fault that reading comes upon is what decoding reports. -/
theorem decode_of_failsAt (h : FailsAt .initial 0 text stop fault) : decode text = .error fault := by
  rw [decode, h.run_eq]

/-- Where decoding fails at an item that does not fit, that item is the first one. -/
theorem Answers.of_oversized {read : Nat} (h : Oversized text item)
    (hfails : FailsAt .initial 0 text item.stop (.countTooLarge item.column))
    (hread : item.stop ≤ read) : Answers text fault read := by
  refine .inr ⟨item, decode_of_failsAt hfails, ⟨h, fun other hother => ?_, fun other hother heq => ?_⟩,
    hread⟩
  · rcases hother.stop_ge hfails with hlt | ⟨heq, -⟩ <;> omega
  · rcases hother.stop_ge hfails with hlt | ⟨-, hfault⟩
    · omega
    · exact (Fault.countTooLarge.inj hfault).symm

/-- A piece is read, or an item in it does not fit.  By induction on its structure, where a group is
read before it is repeated. -/
theorem run_piece (hrun : run .initial 0 outer = .ok now)
    (hlast : ∀ c ∈ outer.getLast?, c = '(') (q : Sequence) :
    (∃ last, run .initial 0 (outer ++ q.text) = .ok last ∧ last.groups = now.groups) ∨
      ∃ item, Oversized (outer ++ q.text) item ∧
        FailsAt .initial 0 (outer ++ q.text) item.stop (.countTooLarge item.column) := by
  have hreads := reads_piece hrun hlast q
  cases hfind : (q.limited outer.length 0).find? Item.exceeds with
  | none =>
      simp only [Reads, hfind] at hreads
      obtain ⟨count?, hpiece⟩ := hreads
      have hread := run_append hrun q.text
      rw [Nat.zero_add, hpiece] at hread
      exact .inl ⟨_, hread, rfl⟩
  | some item =>
      simp only [Reads, hfind] at hreads
      have hmem := List.mem_of_find?_eq_some hfind
      refine .inr ⟨item, ⟨List.find?_some hfind, outer, q, [], by simp, hlast, hmem⟩, ?_⟩
      exact FailsAt.prepend (by rwa [Nat.zero_add]) hrun

/-! ## Texts that do not balance -/

/-- The group that is open where a text ends. -/
theorem run_open_group (hrun : run .initial 0 outer = .ok now) :
    ∃ group inside, run .initial 0 (outer ++ ['(']) = .ok inside ∧ inside.groups = group :: now.groups ∧
      group.column = outer.length := by
  refine ⟨_, _, run_append hrun ['('], rfl, ?_⟩
  exact Nat.zero_add outer.length

/-- A text that can be completed is read, or an item in it does not fit.  It is a sequence of pieces
with groups left open between them. -/
theorem Pending.run_or_oversized (h : Pending text) :
    (∃ now, run .initial 0 text = .ok now) ∨
      ∃ item, Oversized text item ∧
        FailsAt .initial 0 text item.stop (.countTooLarge item.column) := by
  induction h with
  | whole q =>
      have hrun : run .initial 0 [] = .ok .initial := rfl
      exact (run_piece hrun nofun q).imp_left fun ⟨now, hnow, _⟩ => ⟨now, hnow⟩
  | @inside outer _ q ih =>
      rcases ih with ⟨now, hrun⟩ | ⟨item, hitem, hfails⟩
      · obtain ⟨group, inside, hopen, -⟩ := run_open_group hrun
        have hpiece := run_piece hopen (by simp) q
        rw [List.append_assoc, List.singleton_append] at hpiece
        exact hpiece.imp_left fun ⟨last, hlast, _⟩ => ⟨last, hlast⟩
      · exact .inr ⟨item, hitem.append _, hfails.append _⟩

/-- **A group that is not closed** is the answer, if all items fit.  Reading comes to the end of the
text then, and finds a group open. -/
theorem Pending.answers_inside (h : Pending outer) (q : Sequence) :
    Answers (outer ++ '(' :: q.text) (.unbalancedGroup outer.length)
      (outer ++ '(' :: q.text).length := by
  rcases h.run_or_oversized with ⟨now, hrun⟩ | ⟨item, hitem, hfails⟩
  · obtain ⟨group, inside, hopen, hgroups, hcolumn⟩ := run_open_group hrun
    have hpiece := run_piece hopen (by simp) q
    rw [List.append_assoc, List.singleton_append] at hpiece
    rcases hpiece with ⟨last, hlast, hsame⟩ | ⟨item, hitem, hfails⟩
    · have hdecode : decode (outer ++ '(' :: q.text) = .error (.unbalancedGroup outer.length) := by
        rw [decode, hlast]
        simp only [State.finish, hsame, hgroups, hcolumn]
      refine .inl ⟨hdecode, fun item hitem => ?_⟩
      -- The text is read to its end, so there is no item in it that does not fit.
      obtain ⟨stop, fault, hfails, -⟩ := hitem.exists_failsAt
      cases hlast.symm.trans hfails.run_eq
    · exact .of_oversized hitem hfails (by simpa using hfails.stop_le.2)
  · have hfails' := hfails.append ('(' :: q.text)
    exact .of_oversized (hitem.append _) hfails' (by simpa using hfails'.stop_le.2)

/-- **A bracket that closes none** is the answer, if all items before it fit.  Reading stops at it,
whatever follows. -/
theorem answers_stray (q : Sequence) (rest : List Char) :
    Answers (q.text ++ ')' :: rest) (.unexpectedClose q.text.length) q.text.length := by
  have hrun : run .initial 0 [] = .ok .initial := rfl
  rcases run_piece hrun nofun q with ⟨last, hlast, hgroups⟩ | ⟨item, hitem, hfails⟩
  · rw [List.nil_append] at hlast
    have hstep : step last (0 + q.text.length) ')' = .error (.unexpectedClose q.text.length) := by
      rw [step, if_neg (by decide), if_pos rfl, close, hgroups, Nat.zero_add]
      rfl
    have hfails := (FailsAt.here rest hstep).prepend hlast
    refine .inl ⟨decode_of_failsAt hfails, fun item hitem => ?_⟩
    rcases hitem.stop_ge hfails with hlt | ⟨-, hfault⟩
    · omega
    · cases hfault
  · have hle := hfails.stop_le.2
    rw [List.nil_append] at hitem hfails hle
    exact .of_oversized (hitem.append _) (hfails.append _) (by omega)

/-- A text that does not balance has a fault in its brackets, which is the answer if all items
before it fit. -/
theorem exists_answers (h : ¬Balanced text) :
    ∃ fault read, BracketFault text fault read ∧ Answers text fault read := by
  rcases pending_or_stray text with hpending | ⟨q, rest, rfl⟩
  · cases hpending with
    | whole q => exact absurd q.matched_text.balanced h
    | inside houter q => exact ⟨_, _, houter.bracketFault_inside q, houter.answers_inside q⟩
  · exact ⟨_, _, bracketFault_stray q rest, answers_stray q rest⟩

/-- A text with a fault to answer for is not decoded. -/
theorem Answers.exists_error {read : Nat} (h : Answers text fault read) :
    ∃ other, decode text = .error other := by
  rcases h with ⟨hdecode, -⟩ | ⟨item, hdecode, -⟩
  · exact ⟨_, hdecode⟩
  · exact ⟨_, hdecode⟩

/-- What decoding reports tells the fault, unless it is an item that does not fit. -/
theorem Answers.fault_eq {read : Nat} {other : Fault} (h : Answers text fault read)
    (hdecode : decode text = .error other) (hother : ∀ column, other ≠ .countTooLarge column) :
    fault = other := by
  rcases h with ⟨hfault, -⟩ | ⟨item, hitem, -⟩
  · exact Except.error.inj (hfault.symm.trans hdecode)
  · exact absurd (Except.error.inj (hdecode.symm.trans hitem)) (hother item.column)

/-! ## Texts of sequences -/

/-- Decoding the text of a sequence gives what it stands for, or the first item that does not fit.
-/
theorem decode_text (q : Sequence) :
    decode q.text =
      match (q.limited 0 0).find? Item.exceeds with
      | none => .ok q.expand
      | some item => .error (.countTooLarge item.column) := by
  have hreads : Reads .initial 0 q.text (q.limited 0 0) q.expand := q.reads rfl 0
  cases hfind : (q.limited 0 0).find? Item.exceeds with
  | none =>
      rw [Reads, hfind] at hreads
      obtain ⟨count?, hrun⟩ := hreads
      rw [decode, hrun]
      simp [State.finish, State.initial, Written.toList, Written.extend, Written.empty]
  | some item =>
      rw [Reads, hfind] at hreads
      exact decode_of_failsAt hreads

/-- **Decoding.**  Let a text be that of a sequence of items.  If all items that have to fit do then
decoding gives the text that the sequence stands for, and otherwise it reports the column of the
first of them to be complete that does not.  Every text whose brackets balance is that of one
sequence and of no other. -/
theorem decode_sequence :
    (∀ q : Sequence, decode q.text =
      match (q.limited 0 0).find? Item.exceeds with
      | none => .ok q.expand
      | some item => .error (.countTooLarge item.column)) ∧
    ∀ text, Balanced text ↔ ∃! q : Sequence, q.text = text := by
  refine ⟨decode_text, fun text => balanced_iff_exists.trans ⟨fun h => ?_, fun h => h.exists⟩⟩
  obtain ⟨q, rfl⟩ := h
  exact ⟨q, rfl, fun r hr => Sequence.text_injective hr⟩

/-- A text that is decoded is that of a sequence whose items fit.  There is just one such sequence,
as the text can be taken apart in one way only. -/
theorem exists_of_decode (h : decode text = .ok decoded) :
    ∃ q : Sequence, q.text = text ∧ q.expand = decoded ∧
      ∀ item ∈ q.limited 0 0, ¬item.exceeds := by
  by_cases hbalanced : Balanced text
  · obtain ⟨q, rfl⟩ := balanced_iff_exists.mp hbalanced
    rw [decode_text] at h
    cases hfind : (q.limited 0 0).find? Item.exceeds with
    | none =>
        rw [hfind] at h
        exact ⟨q, rfl, Except.ok.inj h, List.find?_eq_none.mp hfind⟩
    | some item =>
        rw [hfind] at h
        cases h
  · obtain ⟨fault, read, -, hanswers⟩ := exists_answers hbalanced
    obtain ⟨other, hother⟩ := hanswers.exists_error
    cases hother.symm.trans h

/-- Items that fit make a text longer than the limit only by characters that stand in it.  A counted
item is held against the limit when it is complete; characters by themselves are not. -/
theorem Sequence.utf8Len_expand_le (q : Sequence) {column bytes : Nat}
    (h : ∀ item ∈ q.limited column bytes, ¬item.exceeds) :
    bytes + String.utf8Len q.expand ≤ max maxBytes bytes + String.utf8Len q.text := by
  induction q generalizing column bytes with
  | done dangling? =>
      simp only [expand, String.utf8Len_nil]
      omega
  | char count? c rest ih =>
      cases count? with
      | none =>
          have hrest := ih h
          simp only [expand, text, timesOf, digitsOf, Option.elim, List.nil_append,
            String.utf8Len_append, String.utf8Len_cons, List.replicate_one, String.utf8Len_nil]
          omega
      | some count =>
          obtain ⟨hfits, hlater⟩ := List.forall_mem_cons.mp h
          have hrest := ih hlater
          simp only [Item.exceeds, decide_eq_true_eq] at hfits hrest
          simp only [expand, text, timesOf, Option.elim, String.utf8Len_append, String.utf8Len_cons,
            utf8Len_replicate]
          omega
  | group count? body rest _ ih =>
      obtain ⟨-, hlater⟩ := List.forall_mem_append.mp h
      obtain ⟨hfits, hlater⟩ := List.forall_mem_cons.mp hlater
      have hrest := ih hlater
      simp only [Item.exceeds, decide_eq_true_eq] at hfits hrest
      simp only [expand, text, String.utf8Len_append, String.utf8Len_cons, utf8Len_copies]
      omega

/-- **A decoded line** is not much longer than the text it is decoded from.  What is counted fits
into the limit, and what is not counted stands in the text. -/
theorem utf8Len_le_of_decode (h : decode text = .ok decoded) :
    String.utf8Len decoded ≤ String.utf8Len text + maxBytes := by
  obtain ⟨q, rfl, rfl, hfits⟩ := exists_of_decode h
  have hle := q.utf8Len_expand_le hfits
  rw [Nat.zero_add, Nat.max_zero] at hle
  omega

/-- **Brackets.**  If the brackets of a text do not balance then decoding reports what is wrong with
them: the first closing bracket that closes none, or else the last opening bracket that is never
closed; unless an item that does not fit is complete before that turns out, for then the first such
item is reported.  No text whose brackets balance is refused for its brackets. -/
theorem decode_brackets (text : List Char) :
    (¬Balanced text → ∃ fault read, BracketFault text fault read ∧ Answers text fault read) ∧
      (Balanced text → ∀ column, decode text ≠ .error (.unexpectedClose column) ∧
        decode text ≠ .error (.unbalancedGroup column)) := by
  refine ⟨exists_answers, fun h column => ?_⟩
  obtain ⟨q, rfl⟩ := balanced_iff_exists.mp h
  rw [decode_text]
  cases (q.limited 0 0).find? Item.exceeds <;> simp

/-- Two groups are open at the end, and a bracket closes none; and two groups are closed. -/
theorem decode_brackets_nested :
    (¬Balanced "#2(3(#(-)#".toList ∧
      ∃ read, BracketFault "#2(3(#(-)#".toList (.unbalancedGroup 4) read ∧
        Answers "#2(3(#(-)#".toList (.unbalancedGroup 4) read) ∧
    (¬Balanced "2(-)#)(".toList ∧
      ∃ read, BracketFault "2(-)#)(".toList (.unexpectedClose 5) read ∧
        Answers "2(-)#)(".toList (.unexpectedClose 5) read) ∧
    (Balanced "2(3(-)#)".toList ∧ ∀ column,
      decode "2(3(-)#)".toList ≠ .error (.unexpectedClose column) ∧
        decode "2(3(-)#)".toList ≠ .error (.unbalancedGroup column)) := by
  have hopen : ¬Balanced "#2(3(#(-)#".toList := fun h => absurd h.closed_eq (by decide)
  have hstray : ¬Balanced "2(-)#)(".toList := fun h => absurd (h.closed_le 6) (by decide)
  have hbalanced : Balanced "2(3(-)#)".toList :=
    balanced_iff_exists.mpr ⟨.group (some ⟨['2'], by decide, List.all_eq_true.mp (by decide)⟩)
      (.group (some ⟨['3'], by decide, List.all_eq_true.mp (by decide)⟩)
        (.char none ⟨'-', by decide⟩ (.done none))
        (.char none ⟨'#', by decide⟩ (.done none))) (.done none), rfl⟩
  refine ⟨⟨hopen, ?_⟩, ⟨hstray, ?_⟩, hbalanced, (decode_brackets _).2 hbalanced⟩
  · obtain ⟨fault, read, hfault, hanswers⟩ := (decode_brackets _).1 hopen
    have hdecode : decode "#2(3(#(-)#".toList = .error (.unbalancedGroup 4) := by decide +kernel
    obtain rfl := hanswers.fault_eq hdecode nofun
    exact ⟨read, hfault, hanswers⟩
  · obtain ⟨fault, read, hfault, hanswers⟩ := (decode_brackets _).1 hstray
    have hdecode : decode "2(-)#)(".toList = .error (.unexpectedClose 5) := by decide +kernel
    obtain rfl := hanswers.fault_eq hdecode nofun
    exact ⟨read, hfault, hanswers⟩

end Sokoban.RunLength
