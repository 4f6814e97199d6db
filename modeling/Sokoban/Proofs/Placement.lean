import Sokoban.Placement
import Sokoban.Proofs.Target

/-! # Batches of levels

Each level of a batch has a turn.  In its turn either its text is stored, or an error is reported
that is the level's own; besides that, folders are made.  `Turn` is the relation between the files
before and after that says so, and `placeLevel_turn` is the step lemma: whatever the configuration,
the policy and the machine, placing a level is a turn.

What a turn leaves as it is follows from the relation alone (`Turn.node`, `Turn.folder`,
`Turn.reaches`).  Turns do not undo one another, because numbered paths have different targets.  So
by induction on the number of levels everything but the targets that are written is as it was, or is
a folder that was missing (`Turns.node`).

A batch as it is run is a sequence of turns (`turn_machineAfter`): the report is that of the levels
so far, and the machine is the one that the last turn has left.
-/

namespace Sokoban

/-- The machine with other files. -/
def Machine.withFiles (m : Machine) (files : FileTree) : Machine :=
  { m with files }

/-- A change to the files is a change to nothing else of the machine. -/
theorem Machine.onFiles_run (change : StateM FileTree (Except FileFault Unit)) (m : Machine) :
    onFiles change m = ((change m.files).1, m.withFiles (change m.files).2) :=
  rfl

namespace Placement

open FileTree (Grows)

/-- Whether a text has been stored: it is what is read under its path, and under the strict policy
there was nothing before. -/
def Stored (policy : Overwriting) (path : Path) (text : String) (before after : FileTree) : Prop :=
  after.read path = .ok text.toUTF8 ∧ (policy = .strict → before.find? path = none)

/-- The errors that a level can have in its turn.  Each names the level's own path or the cause that
its own model has; a fault of the files can have any cause. -/
inductive Blames (c : Configuration) (policy : Overwriting) (path : Path) (l : Level)
    (before : FileTree) : PlacementError → Prop
  | model {cause : ModelError} (hgenerate : generate l c = .error cause) :
    Blames c policy path l before (.model cause)
  | collision (hstrict : policy = .strict) (hpresent : (before.find? path).isSome) :
    Blames c policy path l before (.collision path)
  | io (cause : FileFault) : Blames c policy path l before (.io path.toString cause)

/-- What a turn of a level can do to the files.  A text is stored at the target, in folders that
have been made on the way or were there; or the turn fails with an error of the level, and then its
text has not been stored. -/
inductive Turn (c : Configuration) (policy : Overwriting) (base : Path) (index : Nat) (l : Level)
    (t : FileTree) : Option PlacementError → FileTree → Prop
  | stored {g : Generated} {t' : FileTree} (hgenerate : generate l c = .ok g)
    (hgrows : Grows (t.Along base.folder) t t') (hreaches : t'.Reaches base)
    (hnode : t'.node? (t.target base index) ≠ some .folder)
    (hstrict : policy = .strict → t.find? (base.indexed index) = none) :
    Turn c policy base index l t none (t'.put (t.target base index) (.file g.text.toUTF8))
  | failed {cause : PlacementError} {t' : FileTree} (hgrows : Grows (t.Along base.folder) t t')
    (hblames : Blames c policy (base.indexed index) l t cause)
    (hnot : ∀ g, generate l c = .ok g → ¬Stored policy (base.indexed index) g.text t t') :
    Turn c policy base index l t (some cause) t'

variable {c : Configuration} {policy : Overwriting} {base : Path} {index : Nat} {l : Level}
  {ls levels : List Level} {m : Machine} {t t' : FileTree} {text : String}

/-! ## One turn -/

/-- **Making the folder of a batch** fails if the batch is not reached then.  Folders may have been
made on the way in both cases. -/
theorem ensureParent_cases (base : Path) (index : Nat) (m : Machine) :
    ∃ t', Grows (m.files.Along base.folder) m.files t' ∧
      ((ensureParent (base.indexed index) : StateM Machine _) m = (.ok (), m.withFiles t') ∨
        ∃ fault, (ensureParent (base.indexed index) : StateM Machine _) m =
          (.error fault, m.withFiles t') ∧ ¬t'.Reaches base) := by
  obtain ⟨above, hparent, hroute, habsolute⟩ := base.exists_parent?_indexed index
  have horigin : ∀ t : FileTree, t.origin above = t.origin base.folder := fun t => by
    rw [FileTree.origin, FileTree.origin, habsolute]
  by_cases hempty : above.chars = []
  · refine ⟨m.files, .refl _ _, .inl ?_⟩
    rw [ensureParent, hparent, Option.filter_some, if_neg (by simp [hempty])]
    rfl
  · have hspec := FileTree.ensureChain_spec above.chars.length hempty m.files
    rw [FileTree.isFolder_iff hempty, horigin, hroute] at hspec
    rw [ensureParent, hparent, Option.filter_some, if_pos (by simpa using hempty)]
    obtain ⟨hgrows, hiff⟩ := hspec
    refine ⟨_, hgrows.mono fun place halong => ?_, ?_⟩
    · obtain ⟨ns, hns, rfl⟩ := halong
      exact ⟨ns, hroute ▸ hns, by rw [horigin]⟩
    · cases hresult : (ensureChain FileTree.ensureFolder (above.chain above.chars.length) m.files).1 with
      | ok => exact .inl (Prod.ext hresult rfl)
      | error fault =>
          refine .inr ⟨fault, Prod.ext hresult rfl, fun hreaches => ?_⟩
          rw [hiff.mpr hreaches] at hresult
          cases hresult

/-- **Storing a text** fails if it cannot be read then, or it puts a file at the target.  The folder
is made first, so a failure may be one of the folders. -/
theorem store_cases (base : Path) (index : Nat) (text : String) (m : Machine) :
    ∃ t', Grows (m.files.Along base.folder) m.files t' ∧
      ((∃ fault, (store (base.indexed index) text : StateM Machine _) m =
          (.error fault, m.withFiles t') ∧
            ∀ old, t'.read (base.indexed index) ≠ .ok old) ∨
        (store (base.indexed index) text : StateM Machine _) m =
            (.ok (), m.withFiles (t'.put (m.files.target base index) (.file text.toUTF8))) ∧
          t'.Reaches base ∧ t'.node? (m.files.target base index) ≠ some .folder) := by
  obtain ⟨t', hgrows, hparent | ⟨fault, hparent, hreaches⟩⟩ := ensureParent_cases base index m
  · refine ⟨t', hgrows, ?_⟩
    rw [store, FileTree.bind_run, hparent]
    rcases FileTree.write_cases (base.indexed index) text.toUTF8 t' with
      ⟨fault, hwrite, hread⟩ | ⟨place, hlocate, hnode, hwrite⟩
    · refine .inl ⟨fault, ?_, hread⟩
      apply (Machine.onFiles_run ..).trans
      rw [Machine.withFiles, hwrite]
      rfl
    · obtain ⟨hreaches, rfl⟩ := FileTree.locate_indexed_eq_ok_iff.mp hlocate
      rw [FileTree.target_eq hgrows.current] at hnode hwrite
      refine .inr ⟨?_, hreaches, hnode⟩
      apply (Machine.onFiles_run ..).trans
      rw [Machine.withFiles, hwrite]
      rfl
  · refine ⟨t', hgrows, .inl ⟨fault, ?_, fun old hread => hreaches (FileTree.reaches_of_read hread)⟩⟩
    rw [store, FileTree.bind_run, hparent]
    rfl

/-- **Placing a text** is storing it, unless the policy forbids that: under the strict policy
whatever is found under the path forbids it, and nothing is touched then. -/
theorem placeText_cases (policy : Overwriting) (path : Path) (text : String) (m : Machine) :
    policy = .strict ∧ (m.files.find? path).isSome ∧
        (placeText policy path text : StateM Machine _) m = ((.error (.collision path), []), m) ∨
      (policy = .strict → m.files.find? path = none) ∧ ∃ log,
        (placeText policy path text : StateM Machine _) m =
          (((((store path text : StateM Machine _) m).1).mapError (.io path.toString), log),
            ((store path text : StateM Machine _) m).2) := by
  by_cases hcollision : policy = .strict ∧ (m.files.find? path).isSome
  · left
    obtain ⟨hstrict, hpresent⟩ := hcollision
    refine ⟨hstrict, hpresent, ?_⟩
    have hboth : ((m.files.find? path).isSome && policy == .strict) = true := by
      rw [hstrict, hpresent]
      rfl
    rw [placeText, FileTree.bind_run]
    exact congrFun (if_pos hboth) m
  · right
    have hboth : ¬((m.files.find? path).isSome && policy == .strict) = true := by
      rw [Bool.and_eq_true, beq_iff_eq, and_comm]
      exact hcollision
    refine ⟨fun hstrict => ?_, ?_⟩
    · rw [← Option.not_isSome_iff_eq_none]
      exact fun hpresent => hcollision ⟨hstrict, hpresent⟩
    · let warnings :=
        if (m.files.find? path).isSome && policy == .warn then [overwritten path] else []
      rw [placeText, FileTree.bind_run]
      cases hresult : ((store path text : StateM Machine _) m).1 with
      | ok =>
          refine ⟨warnings ++ [written path], (congrFun (if_neg hboth) m).trans ?_⟩
          rw [FileTree.bind_run, hresult]
          rfl
      | error fault =>
          refine ⟨warnings, (congrFun (if_neg hboth) m).trans ?_⟩
          rw [FileTree.bind_run, hresult]
          rfl

/-- **The turn of a level.** A level without a model fails before the files are touched; one with a
model has its text placed. -/
theorem placeLevel_turn (c : Configuration) (base : Path) (policy : Overwriting) (index : Nat)
    (l : Level) (m : Machine) :
    ∃ fate t', Turn c policy base index l m.files fate t' ∧
      ((placeLevel c base policy index l : StateM Machine _) m).1.failures = fate.toList ∧
      ((placeLevel c base policy index l : StateM Machine _) m).2 = m.withFiles t' := by
  rw [placeLevel]
  cases hgenerate : generate l c with
  | error cause =>
      refine ⟨some (.model cause), m.files, .failed (.refl _ _) (.model hgenerate) ?_, rfl, rfl⟩
      intro g hg
      rw [hgenerate] at hg
      cases hg
  | ok g =>
      dsimp only
      rw [FileTree.bind_run]
      rcases placeText_cases policy (base.indexed index) g.text m with
        ⟨hstrict, hpresent, hplace⟩ | ⟨hstrict, log, hplace⟩
      · rw [hplace]
        refine ⟨some (.collision (base.indexed index)), m.files,
          .failed (.refl _ _) (.collision hstrict hpresent) ?_, rfl, rfl⟩
        intro g' hg' hstored
        rw [hstored.2 hstrict] at hpresent
        cases hpresent
      · rw [hplace]
        obtain ⟨t', hgrows, ⟨fault, hstore, hread⟩ | ⟨hstore, hreaches, hnode⟩⟩ :=
          store_cases base index g.text m
        · rw [hstore]
          refine ⟨some (.io (base.indexed index).toString fault), t', .failed hgrows (.io fault) ?_,
            rfl, rfl⟩
          exact fun g' hg' hstored => hread _ hstored.1
        · rw [hstore]
          exact ⟨none, _, .stored hgenerate hgrows hreaches hnode hstrict, rfl, rfl⟩

/-! ## What a turn leaves as it is -/

namespace Turn

variable {fate : Option PlacementError} {q : Place} (h : Turn c policy base index l t fate t')

include h

/-- Paths begin where they did. -/
theorem current : t'.current = t.current := by
  cases h with
  | stored _ hgrows => exact hgrows.current
  | failed hgrows => exact hgrows.current

/-- **Besides the target of a level** only folders are new, on the way to the folder of the
batch. -/
theorem node (hq : fate = none → q ≠ t.target base index) :
    t'.node? q = t.node? q ∨
      t.node? q = none ∧ t'.node? q = some .folder ∧ t.Along base.folder q := by
  cases h with
  | stored _ hgrows =>
      rw [FileTree.node?_put (FileTree.target_ne_nil t base index), if_neg (hq rfl)]
      exact hgrows.node q
  | failed hgrows => exact hgrows.node q

/-- Folders stay.  A text is never stored in place of one. -/
theorem folder (hq : t.node? q = some .folder) : t'.node? q = some .folder := by
  cases h with
  | stored _ hgrows _ hnode =>
      have hq' := hgrows.node_some hq
      rw [FileTree.node?_put (FileTree.target_ne_nil t base index), if_neg, hq']
      rintro rfl
      exact hnode hq'
  | failed hgrows => exact hgrows.node_some hq

/-- A batch that is reached stays so, because folders do. -/
theorem reaches (ht : t.Reaches base) : t'.Reaches base := by
  rw [FileTree.Reaches, FileTree.origin, h.current, ← FileTree.origin]
  exact fun ns hns => h.folder (ht ns hns)

end Turn

/-- A text that is stored is found at its target, and under the strict policy nothing was found
under the path before. -/
theorem Turn.reaches_and_node (h : Turn c policy base index l t none t') :
    t'.Reaches base ∧ ∃ g, generate l c = .ok g ∧
      t'.node? (t.target base index) = some (.file g.text.toUTF8) ∧
      (policy = .strict → t.find? (base.indexed index) = none) := by
  cases h with
  | @stored g grown hgenerate hgrows hreaches hnode hstrict =>
      have hput : ∀ q, (grown.put (t.target base index) (.file g.text.toUTF8)).node? q =
          if q = t.target base index then some (.file g.text.toUTF8) else grown.node? q :=
        FileTree.node?_put (FileTree.target_ne_nil t base index)
      refine ⟨fun ns hns => ?_, g, hgenerate, by rw [hput, if_pos rfl], hstrict⟩
      have hfolder := hreaches ns hns
      refine (hput _).trans ((if_neg fun heq => hnode ?_).trans hfolder)
      rw [← heq]
      exact hfolder

/-- **A level does not fail** just if its text is stored in its turn.  What is stored is what is
read, so the outcome can be told from the files. -/
theorem Turn.eq_none_iff {fate : Option PlacementError} (h : Turn c policy base index l t fate t') :
    fate = none ↔ ∃ g, generate l c = .ok g ∧
      Stored policy (base.indexed index) g.text t t' := by
  constructor
  · rintro rfl
    obtain ⟨hreaches, g, hgenerate, hnode, hstrict⟩ := h.reaches_and_node
    refine ⟨g, hgenerate, FileTree.read_indexed_of_reaches hreaches ?_, hstrict⟩
    rwa [FileTree.target_eq h.current]
  · intro hstored
    obtain ⟨g, hgenerate, hstored⟩ := hstored
    cases h with
    | stored => rfl
    | failed _ _ hnot => exact absurd hstored (hnot g hgenerate)

/-! ## All turns -/

/-- The turns of a batch, one after another: `files i` are the files when `i` levels have had their
turn. -/
def Turns (c : Configuration) (policy : Overwriting) (base : Path) (levels : List Level)
    (files : Nat → FileTree) (fate : Nat → Option PlacementError) : Prop :=
  ∀ i l, levels[i]? = some l → Turn c policy base i l (files i) (fate i) (files (i + 1))

namespace Turns

variable {files : Nat → FileTree} {fate : Nat → Option PlacementError} {i j : Nat} {q : Place}
  (h : Turns c policy base levels files fate)

include h

/-- Paths begin where they did, whatever number of levels have had their turn. -/
theorem current (hj : j ≤ levels.length) : (files j).current = (files 0).current := by
  induction j with
  | zero => rfl
  | succ j ih => exact (h j _ (List.getElem?_eq_getElem hj)).current.trans (ih (by omega))

/-- The targets are those of the files at the beginning. -/
theorem target_eq (hj : j ≤ levels.length) (k : Nat) :
    (files j).target base k = (files 0).target base k :=
  FileTree.target_eq (h.current hj) base k

/-- A batch that is reached at some turn is reached at all later ones. -/
theorem reaches (hij : i ≤ j) (hj : j ≤ levels.length) (hi : (files i).Reaches base) :
    (files j).Reaches base := by
  induction j, hij using Nat.le_induction with
  | base => exact hi
  | succ j hij ih =>
      apply (h j _ (List.getElem?_eq_getElem hj)).reaches
      exact ih (by omega)

/-- **Besides the targets that are written** only folders are new.  By induction on the turns
between the two. -/
theorem node (hij : i ≤ j) (hj : j ≤ levels.length)
    (hq : ∀ k, i ≤ k → k < j → fate k = none → q ≠ (files 0).target base k) :
    (files j).node? q = (files i).node? q ∨
      (files i).node? q = none ∧ (files j).node? q = some .folder ∧
        (files 0).Along base.folder q := by
  induction j, hij using Nat.le_induction with
  | base => exact .inl rfl
  | succ j hij ih =>
      have hbefore := ih (by omega) fun k hik hkj => hq k hik (by omega)
      have hturn := (h j _ (List.getElem?_eq_getElem hj)).node (q := q) fun hfate => by
        rw [h.target_eq (by omega)]
        exact hq j hij (by omega) hfate
      have halong : (files j).Along base.folder q → (files 0).Along base.folder q := by
        rw [FileTree.Along, FileTree.origin, h.current (by omega), ← FileTree.origin]
        exact id
      rcases hbefore with hsame | ⟨hnone, hfolder, hmade⟩ <;>
        rcases hturn with hsame' | ⟨hnone', hfolder', hmade'⟩
      · exact .inl (hsame'.trans hsame)
      · exact .inr ⟨hsame ▸ hnone', hfolder', halong hmade'⟩
      · exact .inr ⟨hnone, hsame'.trans hfolder, hmade⟩
      · exact .inr ⟨hnone, hfolder', hmade⟩

end Turns

/-! ## Runs -/

/-- Without a path there is room for one level only.  Any other number is refused, and nothing is
written anywhere. -/
theorem place_ambiguous (hlength : levels.length ≠ 1) (c : Configuration) (policy : Overwriting)
    (m : Machine) :
    (place levels c none policy : StateM Machine Report) m =
      (⟨[.ambiguousOutput levels.length], []⟩, m) := by
  match levels, hlength with
  | [], _ => rfl
  | [_], hlength => exact absurd rfl hlength
  | _ :: _ :: _, _ => rfl

/-- Placing levels is placing the first of them and then the others, with the next number. -/
theorem placeFrom_cons (c : Configuration) (base : Path) (policy : Overwriting) (index : Nat)
    (l : Level) (ls : List Level) (m : Machine) :
    (placeFrom c base policy index (l :: ls) : StateM Machine Report) m =
      let turn := (placeLevel c base policy index l : StateM Machine Report) m
      let rest := (placeFrom c base policy (index + 1) ls : StateM Machine Report) turn.2
      (turn.1.append rest.1, rest.2) :=
  rfl

/-- **Placing one level more** is placing the others and then it.  The program goes from the front;
this turns the recursion around, so that the machine after some levels is the one that the next
level meets. -/
theorem placeFrom_concat (c : Configuration) (base : Path) (policy : Overwriting) (index : Nat)
    (ls : List Level) (l : Level) (m : Machine) :
    let before := (placeFrom c base policy index ls : StateM Machine Report) m
    let turn := (placeLevel c base policy (index + ls.length) l : StateM Machine Report) before.2
    let after := (placeFrom c base policy index (ls ++ [l]) : StateM Machine Report) m
    after.1.failures = before.1.failures ++ turn.1.failures ∧ after.2 = turn.2 := by
  induction ls generalizing index m with
  | nil => exact ⟨List.append_nil _, rfl⟩
  | cons first ls ih =>
      have hrest := ih (index + 1) ((placeLevel c base policy index first : StateM Machine Report) m).2
      rw [Nat.add_right_comm, Nat.add_assoc] at hrest
      rw [List.cons_append, placeFrom_cons, placeFrom_cons]
      exact ⟨(congrArg _ hrest.1).trans (List.append_assoc ..).symm, hrest.2⟩

/-- The machine when some levels of a batch have had their turn. -/
def machineAfter (levels : List Level) (c : Configuration) (base : Path) (policy : Overwriting)
    (m : Machine) (count : Nat) : Machine :=
  ((place (levels.take count) c (some base) policy : StateM Machine Report) m).2

/-- What becomes of a level in its turn: an error, or nothing if it is placed. -/
def fateOf (levels : List Level) (c : Configuration) (base : Path) (policy : Overwriting)
    (m : Machine) (index : Nat) : Option PlacementError :=
  levels[index]?.bind fun l =>
    ((placeLevel c base policy index l : StateM Machine Report)
      (machineAfter levels c base policy m index)).1.failures.head?

/-- **A batch is its turns.** The level's failure is added to the report, and the machine differs in
its files only. -/
theorem turn_machineAfter (c : Configuration) (base : Path) (policy : Overwriting) (m : Machine)
    {i : Nat} (hl : levels[i]? = some l) :
    let before := machineAfter levels c base policy m i
    let after := machineAfter levels c base policy m (i + 1)
    Turn c policy base i l before.files (fateOf levels c base policy m i) after.files ∧
      after = before.withFiles after.files ∧
      ((place (levels.take (i + 1)) c (some base) policy : StateM Machine Report) m).1.failures =
        ((place (levels.take i) c (some base) policy : StateM Machine Report) m).1.failures ++
          (fateOf levels c base policy m i).toList := by
  have hlt : i < levels.length := (List.getElem?_eq_some_iff.mp hl).1
  have htake : levels.take (i + 1) = levels.take i ++ [l] := by
    rw [List.take_add_one, hl, Option.toList_some]
  have hconcat := placeFrom_concat c base policy 0 (levels.take i) l m
  rw [Nat.zero_add, List.length_take_of_le hlt.le, ← htake] at hconcat
  obtain ⟨fate, t', hturn, hfailures, hmachine⟩ :=
    placeLevel_turn c base policy i l (machineAfter levels c base policy m i)
  have hfate : fateOf levels c base policy m i = fate := by
    rw [fateOf, hl, Option.bind_some, hfailures]
    cases fate <;> rfl
  have hafter : machineAfter levels c base policy m (i + 1) =
      (machineAfter levels c base policy m i).withFiles t' := hconcat.2.trans hmachine
  dsimp only
  rw [hfate, hafter]
  exact ⟨hturn, rfl, hconcat.1.trans (congrArg _ hfailures)⟩

end Placement

end Sokoban
