import Sokoban.Proofs.Fallible
import Sokoban.RunLength

/-! # What decoded lines are made of

Digits and brackets say what is repeated and are not written themselves; every other character is a
literal.  Whatever the decoder has written, at any level, are literals of the line, so a decoded
line holds nothing else (`mem_of_decode`).  A line of literals is decoded to itself
(`decode_literals`), however long it is.

The two together make decoding idempotent (`decode_decoded`).  The first goes by an invariant of the
decoder's state that says something about all levels at once (`State.Writes`), because what is
written in a group is written once more when the group is closed.  For the second no limit has to be
looked at, since plain characters are written without asking for the size.
-/

namespace Sokoban.RunLength

/-- Whether a character stands for itself: it is no bracket and no digit. -/
def isLiteral (c : Char) : Bool :=
  c != '(' && c != ')' && (digit? c).isNone

/-- What has been written, at all levels, are characters of a kind. -/
structure State.Writes (p : Char → Prop) (s : State) : Prop where
  inner : ∀ c ∈ s.written.reversed, p c
  outer : ∀ group ∈ s.groups, ∀ c ∈ group.before.reversed, p c

variable {p : Char → Prop} {s after : State} {written item : Written} {column count : Nat}
  {c : Char} {text decoded : List Char}

/-- A character stands for itself if it is no bracket and no decimal digit. -/
theorem isLiteral_iff : isLiteral c ↔ c ≠ '(' ∧ c ≠ ')' ∧ ¬('0' ≤ c ∧ c ≤ '9') := by
  simp only [isLiteral, digit?, Bool.and_eq_true, bne_iff_ne, and_assoc]
  split <;> simp [*]

/-- Copies of an item hold what the item holds.  With a count of nought there are no copies, and
only what stood there before is left. -/
theorem mem_append_times (h : c ∈ (written.append (item.times count)).reversed) :
    c ∈ item.reversed ∨ c ∈ written.reversed := by
  rcases List.mem_append.mp h with hitem | hwritten
  · left
    unfold Written.times at hitem
    split at hitem
    next => cases hitem
    next =>
      obtain ⟨copy, hcopy, hc⟩ := List.mem_flatten.mp hitem
      exact (List.mem_replicate.mp hcopy).2 ▸ hc
  · exact .inr hwritten

/-- What is written, if it is, are copies behind what was there before. -/
theorem write_eq_ok {result : Written} (h : write written item count column = .ok result) :
    result = written.append (item.times count) := by
  unfold write at h
  split at h
  next => exact (Except.ok.inj h).symm
  next => cases h

/-- **Closing a group** writes what is inside it behind what is before it, so the kinds of
characters on both levels have to agree. -/
theorem State.Writes.close (h : s.Writes p) (hclose : close s column = .ok after) :
    after.Writes p := by
  unfold RunLength.close at hclose
  split at hclose
  next => cases hclose
  next group outer hgroups =>
    obtain ⟨result, hwrite, rfl⟩ := map_eq_ok_iff.mp hclose
    obtain rfl := write_eq_ok hwrite
    have houter := h.outer
    rw [hgroups] at houter
    refine ⟨fun c hc => ?_, fun g hg => houter g (List.mem_cons_of_mem group hg)⟩
    rcases mem_append_times hc with hinner | hbefore
    · exact h.inner c hinner
    · exact houter group List.mem_cons_self c hbefore

/-- Copies of a character are written behind what is there. -/
theorem State.Writes.copies (h : s.Writes p) (hc : p c) :
    ∀ d ∈ (s.written.append ((Written.single c).times count)).reversed, p d := by
  intro d hd
  rcases mem_append_times hd with hsingle | hwritten
  · exact List.mem_singleton.mp hsingle ▸ hc
  · exact h.inner d hwritten

/-- **One step.** Only literals are written: an opening bracket sets a level aside, a closing one
joins two of them, a digit writes nothing, and any other character is a literal. -/
theorem State.Writes.step (h : s.Writes p) (hc : isLiteral c → p c)
    (hstep : step s column c = .ok after) : after.Writes p := by
  unfold RunLength.step at hstep
  split at hstep
  next =>
    obtain rfl := Except.ok.inj hstep
    refine ⟨nofun, fun group hgroup => ?_⟩
    rcases List.mem_cons.mp hgroup with rfl | hgroup
    · exact h.inner
    · exact h.outer group hgroup
  next hopen =>
    split at hstep
    next => exact h.close hstep
    next hclose =>
      split at hstep
      next =>
        obtain rfl := Except.ok.inj hstep
        exact ⟨h.inner, h.outer⟩
      next hdigit =>
        have hliteral : p c := hc (by simp [isLiteral, hopen, hclose, hdigit])
        split at hstep
        next =>
          obtain rfl := Except.ok.inj hstep
          refine ⟨fun d hd => ?_, h.outer⟩
          rcases List.mem_append.mp hd with hsingle | hwritten
          · exact List.mem_singleton.mp hsingle ▸ hliteral
          · exact h.inner d hwritten
        next =>
          obtain ⟨result, hwrite, rfl⟩ := map_eq_ok_iff.mp hstep
          obtain rfl := write_eq_ok hwrite
          exact ⟨h.copies hliteral, h.outer⟩

/-- **The whole line.** Only literals of the line are written, by induction along the line.  The
invariant is about all open levels, as any of them may be closed later. -/
theorem State.Writes.run (h : s.Writes p) (htext : ∀ c ∈ text, isLiteral c → p c)
    (hrun : run s column text = .ok after) : after.Writes p := by
  induction text generalizing s column with
  | nil =>
      obtain rfl := Except.ok.inj hrun
      exact h
  | cons c rest ih =>
      rw [RunLength.run] at hrun
      split at hrun
      next next hstep =>
        have hnext := h.step (htext c List.mem_cons_self) hstep
        exact ih hnext (fun d hd => htext d (List.mem_cons_of_mem c hd)) hrun
      next => cases hrun

/-- **A decoded line** holds literals of the line and nothing else.  The kind of character in the
invariant is that of literals that occur in the line. -/
theorem mem_of_decode (h : decode text = .ok decoded) (hc : c ∈ decoded) :
    c ∈ text ∧ isLiteral c := by
  unfold decode at h
  split at h
  next s hrun =>
    have hinitial : State.initial.Writes fun c => c ∈ text ∧ isLiteral c := ⟨nofun, nofun⟩
    have hwrites := hinitial.run (fun c hmem hliteral => ⟨hmem, hliteral⟩) hrun
    unfold State.finish at h
    split at h
    next =>
      obtain rfl := Except.ok.inj h
      exact hwrites.inner c (List.mem_reverse.mp hc)
    next => cases h
  next => cases h

/-- A literal that nothing counts is written as it is. -/
theorem step_literal (hc : isLiteral c) (hcount : s.count? = none) :
    step s column c = .ok { s with written := s.written.append (.single c) } := by
  simp only [isLiteral, Bool.and_eq_true, bne_iff_ne, Option.isNone_iff_eq_none] at hc
  obtain ⟨⟨hopen, hclose⟩, hdigit⟩ := hc
  rw [step, if_neg hopen, if_neg hclose, hdigit, hcount]

/-- Literals that nothing counts are written one behind the other, as they stand; only the count of
bytes is not told, since it does not matter to what is written. -/
theorem run_literals (htext : ∀ c ∈ text, isLiteral c) (hcount : s.count? = none) :
    ∃ bytes, run s column text =
      .ok { s with written := ⟨text.reverse ++ s.written.reversed, bytes⟩ } := by
  induction text generalizing s column with
  | nil => exact ⟨s.written.bytes, rfl⟩
  | cons c rest ih =>
      have hrest : ∀ d ∈ rest, isLiteral d := fun d hd => htext d (List.mem_cons_of_mem c hd)
      obtain ⟨bytes, hrun⟩ : ∃ bytes, run { s with written := s.written.append (.single c) }
          (column + 1) rest = .ok { s with written := ⟨rest.reverse ++ c :: s.written.reversed, bytes⟩ } :=
        ih hrest hcount
      refine ⟨bytes, ?_⟩
      rw [run, step_literal (htext c List.mem_cons_self) hcount]
      simpa [Written.append, Written.single] using hrun

/-- **Literals** are decoded to themselves.  Without a digit or a bracket every step writes the
character that it reads, and no check is made. -/
theorem decode_literals (htext : ∀ c ∈ text, isLiteral c) : decode text = .ok text := by
  obtain ⟨bytes, hrun⟩ : ∃ bytes, run .initial 0 text =
      .ok { State.initial with written := ⟨text.reverse ++ [], bytes⟩ } := run_literals htext rfl
  rw [decode, hrun]
  simp [State.finish, State.initial, Written.empty, Written.toList]

/-- **A decoded line** is decoded to itself, since it consists of literals.  So nothing is gained or
lost by decoding a document once more. -/
theorem decode_decoded (h : decode text = .ok decoded) : decode decoded = .ok decoded :=
  decode_literals fun _ hc => (mem_of_decode h hc).2

end Sokoban.RunLength
