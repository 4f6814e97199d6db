import Sokoban.Proofs.Invariant

/-! # The encodings have the same behaviour

Two models are bisimilar if their initial states are related and related states can do the same:
each enabled command of one is matched by one of the other, with the same action and the same
probabilities, and branch by branch they lead to related states again.

Two faithful encodings of a level give bisimilar models: states are related if they depict the same
scene, since turns and slides do the same to a scene in every encoding.  For the tile and the box
encoding this relation can be read off the variables (`SameBoxes`), and so
`tile_box_bisimulation` is a statement about the variables alone.
-/

namespace Sokoban

/-- Two commands have the same action and the same probabilities, and their branches lead pairwise
to related states. -/
structure Command.Matches (R : Valuation → Valuation → Prop) (s t : Valuation) (c d : Command) :
    Prop where
  action : c.action? = d.action?
  probabilities : c.branches.map (·.probability?) = d.branches.map (·.probability?)
  branches : List.Forall₂ (fun a b => ∃ s' t', a.next? s = some s' ∧ b.next? t = some t' ∧ R s' t')
    c.branches d.branches

/-- Related states can do the same, and agree about the goal. -/
structure Model.IsBisimulation (m n : Model) (R : Valuation → Valuation → Prop) : Prop where
  initial : R m.initial n.initial
  forth : ∀ s t, R s t → ∀ c ∈ m.enabled s, ∃ d ∈ n.enabled t, c.Matches R s t d
  back : ∀ s t, R s t → ∀ d ∈ n.enabled t, ∃ c ∈ m.enabled s, c.Matches R s t d
  goal : ∀ s t, R s t → ∃ b, m.goal.eval s = some (.bool b) ∧ n.goal.eval t = some (.bool b)

variable {l : Level} {mode : Mode} {turns : List Turn} {drifts : Bool} {s t : Valuation}

section Faithful

variable {e f : Encoding} {m n : Model} {R : Valuation → Valuation → Prop} {c d : Command}
  {ShowsE ShowsF : Valuation → Finset Nat → Prop} {sc : Scene}

/-- Commands match in both directions, with the relation turned around. -/
theorem Command.Matches.symm (h : c.Matches R s t d) : d.Matches (fun t s => R s t) t s c := by
  refine ⟨h.action.symm, h.probabilities.symm, h.branches.flip.imp fun a b hab => ?_⟩
  obtain ⟨s', t', hs', ht', hR⟩ := hab
  exact ⟨t', s', ht', hs', hR⟩

/-- Commands with one certain branch match if their actions are the same and they lead to related
states. -/
theorem matches_of_leadsTo {s' t' : Valuation} (haction : c.action? = d.action?)
    (hc : c.LeadsTo s s') (hd : d.LeadsTo t t') (hR : R s' t') : c.Matches R s t d := by
  obtain ⟨as, hcs, hs'⟩ := hc
  obtain ⟨bs, hds, ht'⟩ := hd
  refine ⟨haction, by rw [hcs, hds]; rfl, ?_⟩
  rw [hcs, hds]
  exact .cons ⟨s', t', hs', ht', hR⟩ .nil

/-- Two states depict the same scene. -/
def DepictSame (ShowsE ShowsF : Valuation → Finset Nat → Prop) (drifts : Bool) (s t : Valuation) :
    Prop :=
  ∃ sc, Depicts ShowsE drifts s sc ∧ Depicts ShowsF drifts t sc

/-- The commands of an open turn match in all encodings: what its outcomes do to a scene is the
same. -/
theorem Turn.matches {u : Turn} (he : e.Faithful l ShowsE) (hf : f.Faithful l ShowsF)
    (hs : Depicts ShowsE drifts s sc) (ht : Depicts ShowsF drifts t sc) (hu : u.Sound l drifts)
    (hopen : u.isOpen sc) :
    (u.command e).Matches (DepictSame ShowsE ShowsF drifts) s t (u.command f) := by
  refine ⟨rfl, by simp [Turn.command, Function.comp_def, branchOf], ?_⟩
  rw [Turn.command, Turn.command, List.forall₂_map_left_iff, List.forall₂_map_right_iff]
  refine List.forall₂_same.mpr fun o ho => ?_
  have hgate := (Bool.and_eq_true_iff.mp hopen).2
  obtain ⟨s', hs', hdepicts⟩ := Outcome.exists_next he hs (hu.outcomes o ho) hgate
  obtain ⟨t', ht', hdepicts'⟩ := Outcome.exists_next hf ht (hu.outcomes o ho) hgate
  exact ⟨s', t', hs', ht', _, hdepicts, hdepicts'⟩

/-- Every enabled command of one encoding is matched in another.  The open turns are the same; a
slide of the adversary is matched by one of the same box between the same cells. -/
theorem Model.IsMade.exists_matches (hm : m.IsMade l e mode turns) (hn : n.IsMade l f mode turns)
    (he : e.Faithful l ShowsE) (hf : f.Faithful l ShowsF)
    (hturns : ∀ u ∈ turns, u.Sound l mode.drifts) (hs : Depicts ShowsE mode.drifts s sc)
    (ht : Depicts ShowsF mode.drifts t sc) (hc : c ∈ m.enabled s) :
    ∃ d ∈ n.enabled t, c.Matches (DepictSame ShowsE ShowsF mode.drifts) s t d := by
  simp only [hn.mem_enabled hf hturns ht]
  rcases (hm.mem_enabled he hturns hs).mp hc with ⟨u, hu, hopen, rfl⟩ | ⟨hdrifts, hmem, hguard⟩
  · exact ⟨u.command f, .inl ⟨u, hu, hopen, rfl⟩, u.matches he hf hs ht (hturns u hu) hopen⟩
  · -- The adversary may need another command for the same slide: the box encoding has one for every
    -- box, the tile encoding one for every pair of cells.
    rw [hdrifts] at hs ht ⊢
    obtain ⟨hdrifting, haction, rfl | ⟨source, target, s', hslides, hleads, hdepicts, -⟩⟩ :=
      Commands.cases_of_enabled he hs hmem hguard
    · refine ⟨Commands.restCommand,
        .inr ⟨rfl, Commands.mem_driftCommands.mpr (.inr rfl), ?_⟩, ?_⟩
      · exact (Commands.eval_drift ht).trans (by rw [hdrifting])
      · exact matches_of_leadsTo rfl (Commands.restCommand_leadsTo s)
          (Commands.restCommand_leadsTo t)
          ⟨_, he.depicts_update hs false, hf.depicts_update ht false⟩
    · obtain ⟨d, hd, hopen, haction', t', hleads', hdepicts', -⟩ :=
        Commands.exists_slideCommand hf ht hdrifting hslides
      exact ⟨d, .inr ⟨rfl, hd, hopen⟩, matches_of_leadsTo (haction.trans haction'.symm) hleads
        hleads' ⟨_, hdepicts, hdepicts'⟩⟩

/-- **Faithful encodings** of a level give bisimilar models.  Both directions are the lemma above,
for the two models in either order. -/
theorem Model.IsMade.isBisimulation (hm : m.IsMade l e mode turns) (hn : n.IsMade l f mode turns)
    (he : e.Faithful l ShowsE) (hf : f.Faithful l ShowsF)
    (hturns : ∀ u ∈ turns, u.Sound l mode.drifts) :
    m.IsBisimulation n (DepictSame ShowsE ShowsF mode.drifts) where
  initial := ⟨.start l, hm.depicts_initial he, hn.depicts_initial hf⟩
  forth := by
    intro s t h c hc
    obtain ⟨sc, hs, ht⟩ := h
    exact hm.exists_matches hn he hf hturns hs ht hc
  back := by
    intro s t h d hd
    obtain ⟨sc, hs, ht⟩ := h
    obtain ⟨c, hc, hmatches⟩ := hn.exists_matches hm hf he hturns ht hs hd
    refine ⟨c, hc, ?_⟩
    have hsame : (fun s t => DepictSame ShowsF ShowsE mode.drifts t s) =
        DepictSame ShowsE ShowsF mode.drifts := by
      funext s t
      exact propext (exists_congr fun _ => and_comm)
    exact hsame ▸ hmatches.symm
  goal := by
    intro s t h
    obtain ⟨sc, hs, ht⟩ := h
    rw [hm.goal, hn.goal]
    exact ⟨_, he.goal hs.boxes, hf.goal ht.boxes⟩

end Faithful

/-- A state of the tile encoding and one of the box encoding agree about the player, about drift
where it is declared, and about the boxes: these are at different reachable positions, and the
variable of a cell holds just where one of them is. -/
structure SameBoxes (l : Level) (drifts : Bool) (s t : Valuation) : Prop where
  position : ∃ cell : Nat, s positionName = some (.num cell) ∧ t positionName = some (.num cell)
  drift : drifts → ∃ b, s driftName = some (.bool b) ∧ t driftName = some (.bool b)
  boxes : ∃ cells : List Nat, cells.length = (Encoding.movable l).length ∧ cells.Nodup ∧
    (∀ cell ∈ cells, l.reachable.contains cell) ∧
    (∀ index cell : Nat, cells[index]? = some cell → t (boxName index) = some (.num cell)) ∧
    ∀ cell, l.reachable.contains cell → s (boxName cell) = some (.bool (decide (cell ∈ cells)))

/-- States with the same boxes are those that depict the same scene.  In one direction the scene is
put together from the list of positions; in the other the box encoding gives such a list, and the
tile encoding holds just on its cells. -/
theorem sameBoxes_iff :
    SameBoxes l drifts s t ↔
      DepictSame (Encoding.Kind.tile.Shows l) (Encoding.Kind.box.Shows l) drifts s t := by
  constructor
  · intro h
    obtain ⟨cell, hs, ht⟩ := h.position
    obtain ⟨cells, hlength, hnodup, hreach, hpositions, htiles⟩ := h.boxes
    have hdrift : ∃ b, drifts → s driftName = some (.bool b) ∧ t driftName = some (.bool b) := by
      cases hdrifts : drifts with
      | true => exact (h.drift hdrifts).imp fun _ hb _ => hb
      | false => exact ⟨false, nofun⟩
    obtain ⟨b, hb⟩ := hdrift
    refine ⟨⟨cell, cells.toFinset, b⟩, ⟨hs, ⟨?_, ?_⟩, fun hd => (hb hd).1⟩,
      ⟨ht, ⟨cells, ⟨hlength, hnodup, hreach, hpositions⟩, rfl⟩, fun hd => (hb hd).2⟩⟩
    · exact fun cell hcell => hreach cell (List.mem_toFinset.mp hcell)
    · intro cell hcell
      rw [htiles cell hcell]
      simp
  · intro h
    obtain ⟨sc, hs, ht⟩ := h
    obtain ⟨cells, hshows, hcells⟩ := ht.boxes
    refine ⟨⟨sc.player, hs.position, ht.position⟩, fun hd => ⟨sc.drifting, hs.drift hd, ht.drift hd⟩,
      cells, hshows.length_eq, hshows.nodup, hshows.reachable, hshows.value, fun cell hcell => ?_⟩
    have hvalue := hs.boxes.value cell hcell
    rw [← hcells] at hvalue
    simpa using hvalue

/-- **The tile and the box encoding are bisimilar**, for every level whose goals lie on the board
and in every mode.  Two states are related if they show the player on one cell, boxes on the same
cells and the same turn; from such states the two models have the same actions with the same
probabilities, lead to related states, and agree on the goal. -/
theorem tile_box_bisimulation (l : Level) (hgoals : ∀ goal ∈ l.goals, goal < l.size)
    (c : Configuration) (hmode : c.mode.Accepted) :
    ∃ m n, Model.ofLevel l { c with encoding := .tile } = .ok m ∧
      Model.ofLevel l { c with encoding := .box } = .ok n ∧
      m.IsBisimulation n (SameBoxes l c.mode.drifts) := by
  obtain ⟨turns, hturns, hmade⟩ := Model.exists_isMade l c hmode
  obtain ⟨m, hm, hmade_m⟩ := hmade (.tile l)
  obtain ⟨n, hn, hmade_n⟩ := hmade (.box l)
  refine ⟨m, n, Model.ofLevel_eq hgoals hm, Model.ofLevel_eq hgoals hn, ?_⟩
  have hsame : SameBoxes l c.mode.drifts =
      DepictSame (Encoding.Kind.tile.Shows l) (Encoding.Kind.box.Shows l) c.mode.drifts := by
    funext s t
    exact propext sameBoxes_iff
  rw [hsame]
  exact hmade_m.isBisimulation hmade_n (Encoding.faithful_tile l) (Encoding.faithful_box l) hturns

/-- Both models of a corridor in which the box drifts. -/
theorem tile_box_bisimulation_corridor :
    ∃ m n, Model.ofLevel .corridor { mode := .fixed .rightOrDrift, encoding := .tile } = .ok m ∧
      Model.ofLevel .corridor { mode := .fixed .rightOrDrift, encoding := .box } = .ok n ∧
      m.IsBisimulation n (SameBoxes .corridor true) :=
  tile_box_bisimulation .corridor (by decide) { mode := .fixed .rightOrDrift }
    ProbabilityMap.accepted_rightOrDrift

end Sokoban
