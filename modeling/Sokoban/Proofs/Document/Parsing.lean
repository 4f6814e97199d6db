import Sokoban.Proofs.Document.Blocks
import Sokoban.Proofs.Fallible

/-! # What reading a document gives

A document whose lines can all be decoded gives the levels that its blocks with one player draw, in
the order of the document; every other block is skipped with a warning, for it has no player or
several of them.  A row consists of marks and the player stands on a floor cell of the board, so
nothing else can be wrong with a block.  What a document gives is thus settled by two things, the
first refusal and the levels that are drawn (`parse_eq_outcome`).

Numbers of blocks count from one and go through all of them, those with a level as well, so a
warning can be found again in the document.  Each block makes a level or a warning, and that is why
the two are as many as blocks together (`length_filter_add_length_skip`).
-/

namespace Sokoban.Document

/-- The warning for a numbered block that does not have one player. -/
def skip? : List Row × Nat → Option Log.Record
  | (block, number) =>
    match playerCount block with
    | 0 => some (skipped number .noPlayer)
    | 1 => none
    | _ + 2 => some (skipped number .multiplePlayers)

variable {bs : List (List Row)} {block : List Row} {text : List Char}

/-- **A block makes a level or is skipped**, depending on its players: one of them draws a level,
and none or several are the two faults that remain for rows that may stand on a board. -/
theorem BoardRows.levelOfRows_cases (h : BoardRows block) (number : Nat) :
    (∃ l, playerCount block = 1 ∧ levelOfRows block = .ok l ∧ Draws block l) ∨
      ∃ fault, playerCount block ≠ 1 ∧ levelOfRows block = .error fault ∧
        skip? (block, number) = some (skipped number fault) := by
  cases hcount : playerCount block with
  | zero =>
      right
      refine ⟨.noPlayer, by omega, levelOfRows_of_none h.isMark hcount, ?_⟩
      simp only [skip?, hcount]
  | succ count =>
      cases count with
      | zero =>
          left
          obtain ⟨l, hlevel, hdraws⟩ := exists_levelOfRows h.isMark hcount
          exact ⟨l, rfl, hlevel, hdraws⟩
      | succ more =>
          right
          refine ⟨.multiplePlayers, by omega, levelOfRows_of_many h.isMark (by omega), ?_⟩
          simp only [skip?, hcount]

/-- **The levels** are drawn by the blocks with one player, in the same order.  Blocks without one
are skipped and change no other level. -/
theorem forall₂_draws_levels (h : ∀ block ∈ bs, BoardRows block) :
    List.Forall₂ Draws (bs.filter (playerCount · == 1)) (levels (bs.map levelOfRows)) := by
  induction bs with
  | nil => exact .nil
  | cons block bs ih =>
      have hrest := ih fun b hb => h b (List.mem_cons_of_mem block hb)
      rcases (h block List.mem_cons_self).levelOfRows_cases 0 with
        ⟨l, hone, hlevel, hdraws⟩ | ⟨fault, hcount, hlevel, -⟩
      · rw [List.filter_cons, if_pos (beq_iff_eq.mpr hone), List.map_cons, hlevel]
        exact .cons hdraws hrest
      · rw [List.filter_cons, if_neg (hcount ∘ beq_iff_eq.mp), List.map_cons, hlevel]
        exact hrest

/-- **The warnings** are those for the blocks without one player.  Each has the number of its block,
counted over all blocks and not over those with a level. -/
theorem warnings_eq (h : ∀ block ∈ bs, BoardRows block) :
    warnings (bs.map levelOfRows) = (bs.zipIdx 1).filterMap skip? := by
  rw [warnings, List.zipIdx_map, List.filterMap_map]
  refine List.filterMap_congr fun z hz => ?_
  obtain ⟨block, number⟩ := z
  have hblock := h block (List.fst_mem_of_mem_zipIdx hz)
  rcases hblock.levelOfRows_cases number with
    ⟨l, hone, hlevel, -⟩ | ⟨fault, -, hlevel, hskip⟩
  · simp only [Function.comp_apply, Prod.map_apply, hlevel, skip?, hone]
  · simp only [Function.comp_apply, Prod.map_apply, id_eq, hlevel, hskip]

/-- Every block makes a level or a warning, and none makes both.  So the two numbers add up to that
of the blocks. -/
theorem length_filter_add_length_skip (bs : List (List Row)) (number : Nat) :
    (bs.filter (playerCount · == 1)).length + ((bs.zipIdx number).filterMap skip?).length =
      bs.length := by
  induction bs generalizing number with
  | nil => rfl
  | cons block bs ih =>
      have hrest := ih (number + 1)
      rw [List.zipIdx_cons, List.filterMap_cons, List.filter_cons, List.length_cons]
      cases hcount : playerCount block with
      | zero => simp [skip?, hcount]; omega
      | succ count =>
          cases count with
          | zero => simp [skip?, hcount]; omega
          | succ more => simp [skip?, hcount]; omega

/-- Skipping a block is a warning, so all of these records are found among the warnings of the log.
-/
theorem severity_of_mem_skip {record : Log.Record} {numbered : List (List Row × Nat)}
    (h : record ∈ numbered.filterMap skip?) : record.severity = .warning := by
  obtain ⟨z, -, hskip⟩ := List.mem_filterMap.mp h
  unfold skip? at hskip
  split at hskip
  next block number =>
    split at hskip
    next => exact Option.some.inj hskip ▸ rfl
    next => cases hskip
    next => exact Option.some.inj hskip ▸ rfl

/-! ## The whole document -/

/-- **A line that cannot be decoded** refuses the document, whatever comes before it.  Blocks that
were complete by then may have been warned about. -/
theorem read_of_refusal {fault : Fault} (h : (contentLines text).findSome? refusal? = some fault) :
    (read text).result = .error fault ∧
      (read text).log <+: ((blocks text).zipIdx 1).filterMap skip? := by
  obtain ⟨later, hblocks⟩ := complete_collect_isPrefix {} (contentLines text)
  rw [complete_foldl_add_initial] at hblocks
  have hboard : ∀ block ∈ (collect {} (contentLines text)).1.complete, BoardRows block := by
    intro block hblock
    exact .of_mem_blocks (hblocks ▸ List.mem_append_left later hblock)
  have hfault : (collect {} (contentLines text)).2 = some fault :=
    (snd_collect ..).trans h
  rw [← hblocks, List.zipIdx_append, List.filterMap_append, ← warnings_eq hboard]
  simp only [read, hfault]
  exact ⟨trivial, List.prefix_append _ _⟩

/-- **Otherwise the blocks decide**: on the levels, on the warnings, and on whether there are levels
at all. -/
theorem read_of_no_refusal (h : (contentLines text).findSome? refusal? = none) :
    List.Forall₂ Draws ((blocks text).filter (playerCount · == 1))
        (levels ((blocks text).map levelOfRows)) ∧
      (read text).result = (if levels ((blocks text).map levelOfRows) = [] then .error .noLevels
        else .ok (levels ((blocks text).map levelOfRows))) ∧
      (read text).log.filter (·.severity == .warning) =
        ((blocks text).zipIdx 1).filterMap skip? := by
  have hboard : ∀ block ∈ blocks text, BoardRows block := fun block hblock => .of_mem_blocks hblock
  have hfault : (collect {} (contentLines text)).2 = none := (snd_collect ..).trans h
  have hblocks : (collect {} (contentLines text)).1.complete = blocks text := by
    rw [fst_collect _ h, complete_foldl_add_initial]
  have hskip : (((blocks text).zipIdx 1).filterMap skip?).filter (·.severity == .warning) =
      ((blocks text).zipIdx 1).filterMap skip? := by
    refine List.filter_eq_self.mpr fun record hrecord => ?_
    simpa using severity_of_mem_skip hrecord
  refine ⟨forall₂_draws_levels hboard, ?_⟩
  simp only [read, hfault, hblocks, warnings_eq hboard]
  cases hlevels : levels ((blocks text).map levelOfRows) with
  | nil => exact ⟨rfl, hskip⟩
  | cons l ls =>
      refine ⟨rfl, ?_⟩
      rw [List.filter_append, hskip]
      simp

/-- What a document gives, from the first refusal that its lines call for and the levels that its
blocks draw. -/
def outcome : Option Fault → List Level → Except Fault (List Level)
  | some fault, _ => .error fault
  | none, [] => .error .noLevels
  | none, l :: ls => .ok (l :: ls)

/-- The levels that the blocks of a document draw, whether or not a line refuses it. -/
def drawnLevels (text : List Char) : List Level :=
  levels ((blocks text).map levelOfRows)

/-- **Reading** is looking for a refusal, and then for levels.  The two do not get in each other's
way, so what is said of documents is said of refusals and of blocks apart. -/
theorem parse_eq_outcome (text : List Char) :
    parse text = outcome ((contentLines text).findSome? refusal?) (drawnLevels text) := by
  cases hrefusal : (contentLines text).findSome? refusal? with
  | some fault => exact (read_of_refusal hrefusal).1
  | none =>
      rw [parse, (read_of_no_refusal hrefusal).2.1, ← drawnLevels]
      cases drawnLevels text <;> rfl

/-- A document has levels if no line refuses it and there are blocks that draw them, and then the
levels are those that they draw. -/
theorem parse_eq_ok_iff {ls : List Level} :
    parse text = .ok ls ↔
      (contentLines text).findSome? refusal? = none ∧ drawnLevels text = ls ∧ ls ≠ [] := by
  rw [parse_eq_outcome]
  cases (contentLines text).findSome? refusal? with
  | some fault => exact ⟨nofun, nofun⟩
  | none =>
      cases drawnLevels text with
      | nil => exact ⟨nofun, fun h => absurd h.2.1.symm h.2.2⟩
      | cons l later =>
          constructor
          · intro h
            obtain rfl := Except.ok.inj h
            exact ⟨rfl, rfl, List.cons_ne_nil l later⟩
          · rintro ⟨-, rfl, -⟩
            rfl

/-- A document that has levels is not refused. -/
theorem no_refusal_of_parse {ls : List Level} (h : parse text = .ok ls) :
    (contentLines text).findSome? refusal? = none :=
  (parse_eq_ok_iff.mp h).1

/-- A document that has levels has one at least. -/
theorem ne_nil_of_parse {ls : List Level} (h : parse text = .ok ls) : ls ≠ [] :=
  (parse_eq_ok_iff.mp h).2.2

/-- **Reading a document.**  The first line that is written in board characters and cannot be
decoded refuses it.  If there is none, the document gives one level for each block with one player,
the one that the block draws; and every other block is skipped with a warning for its players, so
that levels and warnings together are as many as blocks. -/
theorem parse_blocks (text : List Char) :
    match (contentLines text).findSome? refusal? with
    | some fault =>
      parse text = .error fault ∧ (read text).log <+: ((blocks text).zipIdx 1).filterMap skip?
    | none => ∃ ls,
      List.Forall₂ Draws ((blocks text).filter (playerCount · == 1)) ls ∧
      parse text = (if ls = [] then .error .noLevels else .ok ls) ∧
      (read text).log.filter (·.severity == .warning) = ((blocks text).zipIdx 1).filterMap skip? ∧
      ls.length + ((read text).log.filter (·.severity == .warning)).length =
        (blocks text).length := by
  cases h : (contentLines text).findSome? refusal? with
  | some fault => exact read_of_refusal h
  | none =>
      obtain ⟨hdraws, hresult, hlog⟩ := read_of_no_refusal h
      refine ⟨_, hdraws, hresult, hlog, ?_⟩
      rw [hlog, ← hdraws.length_eq]
      exact length_filter_add_length_skip (blocks text) 1

end Sokoban.Document
