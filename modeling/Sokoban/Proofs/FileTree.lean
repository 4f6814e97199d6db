import Sokoban.FileTree
import Sokoban.Proofs.Path

/-! # Trees that grow

Where a path leads depends on its route alone (`walk`): a name goes down, two dots go back up, and
names that stand for nothing are passed over.  Whether it leads there depends on the folders along
the route (`Open`), because every name on the way is looked up.  Keeping the two apart is what makes
the theorems about batches possible: the place is known before anything is written, and what is
written can only change whether it is reached.

Making the folders of a path puts folders where nothing was, at places along the route, and changes
nothing else (`Grows`).  It begins with the folder itself and goes to the one above where that is
missing, so a failure may leave some of the folders behind; it succeeds just if the path leads to a
folder in the end (`ensureChain_spec`).  Storing a content fails, or it puts one file where the path
leads (`write_cases`).

`Grows` is reflexive and transitive, so what one step does carries over to all steps of a batch.
-/

namespace Sokoban.FileTree

/-- Goes on from a place by a name: two dots lead back to the place above, at the root to the root.
-/
def descend (place : Place) (name : List Char) : Place :=
  if name = ['.', '.'] then place.dropLast else place ++ [name]

/-- Goes on from a place by names, whatever stands on the way. -/
def walk (place : Place) (names : List (List Char)) : Place :=
  names.foldl descend place

/-- The names that are followed from where a path begins.  A slash at the end is followed like a
dot: it asks for a folder. -/
def followed (p : Path) : List (List Char) :=
  (p.chars.splitOn '/').filter (!·.isEmpty) ++
    if p.chars.getLast? = some '/' then [['.']] else []

/-- Where a path begins. -/
def origin (t : FileTree) (p : Path) : Place :=
  if p.isAbsolute then [] else t.current

/-- Whether there are folders along some names, from a place to where they lead.  Both ends are
among them. -/
def Open (t : FileTree) (place : Place) (names : List (List Char)) : Prop :=
  ∀ ns, ns <+: names → t.node? (walk place ns) = some .folder

/-- A tree and one with more folders, at places of a kind.  Whatever stood somewhere stands there
still, and the place to begin at is the same. -/
structure Grows (made : Place → Prop) (t t' : FileTree) : Prop where
  current : t'.current = t.current
  node : ∀ place, t'.node? place = t.node? place ∨
    t.node? place = none ∧ t'.node? place = some .folder ∧ made place

variable {t t' : FileTree} {place q : Place} {name last : List Char} {names ns : List (List Char)}
  {p : Path} {content : ByteArray} {node : Node}

/-- One step and then another.  The second sees the tree that the first leaves. -/
theorem bind_run {σ α β : Type} (x : StateM σ α) (f : α → StateM σ β) (s : σ) :
    (x >>= f) s = f (x s).1 (x s).2 :=
  rfl

/-! ## Setting a node -/

/-- The first entry of a list of nodes hides those behind it at its own place. -/
theorem lookup_cons (entry : Place × Node) (rest : List (Place × Node)) (q : Place) :
    (entry :: rest).lookup q = if q = entry.1 then some entry.2 else rest.lookup q := by
  rw [List.lookup_cons]
  by_cases h : q = entry.1
  · rw [if_pos h, beq_iff_eq.mpr h]
  · rw [if_neg h, beq_eq_false_iff_ne.mpr h]

/-- Setting a node changes what is found at its place, and nothing else.  Whether the place was
listed before makes no difference. -/
theorem lookup_setNode (place q : Place) (node : Node) (nodes : List (Place × Node)) :
    (setNode place node nodes).lookup q = if q = place then some node else nodes.lookup q := by
  induction nodes with
  | nil => exact lookup_cons (place, node) [] q
  | cons entry rest ih =>
      rw [setNode]
      by_cases hentry : entry.1 = place
      · rw [if_pos hentry, lookup_cons, lookup_cons, hentry]
        by_cases h : q = place
        · rw [if_pos h, if_pos h]
        · rw [if_neg h, if_neg h, if_neg h]
      · rw [if_neg hentry, lookup_cons, lookup_cons, ih]
        by_cases h : q = entry.1
        · rw [if_pos h, if_neg (h ▸ hentry), if_pos h]
        · rw [if_neg h, if_neg h]

/-- The root is a folder, listed or not. -/
theorem node?_nil (t : FileTree) : t.node? [] = some .folder :=
  rfl

/-- What stands in a tree in which a node is set.  The root cannot be set. -/
theorem node?_put (h : place ≠ []) (q : Place) :
    (t.put place node).node? q = if q = place then some node else t.node? q := by
  rw [node?, put, node?, lookup_setNode]
  by_cases hq : q = []
  · simp [hq, h.symm]
  · simp [hq]

/-! ## Walks -/

/-- Names behind others go on from where these have led. -/
theorem walk_append (place : Place) (ns names : List (List Char)) :
    walk place (ns ++ names) = walk (walk place ns) names :=
  List.foldl_append

/-- Without names there must be a folder to begin with. -/
theorem open_nil : t.Open place [] ↔ t.node? place = some .folder := by
  constructor
  · intro h
    exact h [] List.prefix_rfl
  · intro h ns hns
    rwa [List.prefix_nil.mp hns]

/-- There is a folder to begin with, and there are folders from where the first name leads.
Recursive definitions along names are compared with `Open` by this. -/
theorem open_cons :
    t.Open place (name :: names) ↔
      t.node? place = some .folder ∧ t.Open (descend place name) names := by
  constructor
  · intro h
    refine ⟨h [] List.nil_prefix, fun ns hns => ?_⟩
    exact h (name :: ns) (List.cons_prefix_cons.mpr ⟨rfl, hns⟩)
  · intro h ns hns
    rcases List.prefix_cons_iff.mp hns with rfl | ⟨rest, rfl, hrest⟩
    · exact h.1
    · exact h.2 rest hrest

/-- Folders along names are folders along a beginning of them. -/
theorem Open.of_prefix (h : t.Open place names) (hns : ns <+: names) : t.Open place ns :=
  fun init hinit => h init (hinit.trans hns)

/-- One name more asks for one folder more, the one it leads to.  Paths are made longer at their
ends, so this is the form that they need. -/
theorem open_concat :
    t.Open place (names ++ [last]) ↔
      t.Open place names ∧ t.node? (walk place (names ++ [last])) = some .folder := by
  constructor
  · intro h
    exact ⟨h.of_prefix (List.prefix_append names [last]), h _ List.prefix_rfl⟩
  · intro h ns hns
    rcases List.prefix_concat_iff.mp hns with rfl | hshort
    · exact h.2
    · exact h.1 ns hshort

/-- Nothing can be followed from what is no folder.  Even a name that stands for nothing is looked
up. -/
theorem follow_of_not_folder (h : t.node? place ≠ some .folder) :
    t.follow place (name :: names) ≠ .ok q := by
  rw [follow]
  split
  next => exact nofun
  next => exact nofun
  next hfolder => exact absurd hfolder h

/-- A name in a folder is gone on by, unless it stands for nothing.  In that case the way goes on
from the same folder. -/
theorem follow_of_folder (h : t.node? place = some .folder) (hname : name ≠ []) :
    t.follow place (name :: names) =
      t.follow (walk place ([name].filter (!Path.isVoid ·))) names := by
  rw [follow, h]
  by_cases hdot : name = ['.']
  · simp [hdot, Path.isVoid, walk]
  · have hvoid : Path.isVoid name = false := by simp [Path.isVoid, hname, hdot]
    by_cases hup : name = ['.', '.']
    · simp [hup, Path.isVoid, walk, descend]
    · simp [hdot, hup, hvoid, walk, descend]

/-- **Following names** leads to where they walk if there are folders on the way.  The last name
need not lead to anything: it is what may be made there.  The induction is on the names, with the
place they begin at left open. -/
theorem follow_concat_eq_ok_iff (h : ∀ name ∈ names ++ [last], name ≠ []) :
    t.follow place (names ++ [last]) = .ok q ↔
      t.Open place (names.filter (!Path.isVoid ·)) ∧
        q = walk place ((names ++ [last]).filter (!Path.isVoid ·)) := by
  induction names generalizing place with
  | nil =>
      by_cases hfolder : t.node? place = some .folder
      · rw [List.nil_append, follow_of_folder hfolder (h last (List.mem_singleton_self _)), follow,
          Except.ok.injEq, eq_comm]
        exact (and_iff_right (open_nil.mpr hfolder)).symm
      · exact iff_of_false (follow_of_not_folder hfolder) fun hopen => hfolder (open_nil.mp hopen.1)
  | cons name names ih =>
      have hrest := fun n hn => h n (List.mem_cons_of_mem name hn)
      by_cases hfolder : t.node? place = some .folder
      · rw [List.cons_append, follow_of_folder hfolder (h name List.mem_cons_self), ih hrest,
          ← walk_append, ← List.filter_append]
        refine and_congr_left' ?_
        by_cases hvoid : Path.isVoid name <;> simp [hvoid, walk, open_cons, hfolder]
      · refine iff_of_false (follow_of_not_folder hfolder) fun hopen => hfolder ?_
        exact hopen.1 [] List.nil_prefix

/-! ## Where paths lead -/

/-- Empty names are among those that stand for nothing, so leaving them out first changes nothing.
-/
theorem filter_isVoid_filter (pieces : List (List Char)) :
    (pieces.filter (!·.isEmpty)).filter (!Path.isVoid ·) = pieces.filter (!Path.isVoid ·) := by
  rw [List.filter_filter]
  refine List.filter_congr fun name _ => ?_
  cases name with
  | nil => rfl
  | cons c rest => exact Bool.and_true _

/-- The names that are followed make the route, once those that stand for nothing are left out.  The
dot for a slash at the end is one of these. -/
theorem filter_followed (p : Path) : (followed p).filter (!Path.isVoid ·) = p.route := by
  rw [followed, List.filter_append, filter_isVoid_filter, Path.route]
  split
  next => exact List.append_nil _
  next => exact List.append_nil _

/-- No name that is followed is empty. -/
theorem followed_ne_nil : ∀ name ∈ followed p, name ≠ [] := by
  intro name hname
  rcases List.mem_append.mp hname with hpiece | hending
  · simpa using (List.mem_filter.mp hpiece).2
  · split at hending
    next => simp_all
    next => cases hending

/-- A path that is written at all has a last name that is followed.  The empty path leads nowhere.
-/
theorem exists_followed (h : p.chars ≠ []) : ∃ names last, followed p = names ++ [last] := by
  obtain ⟨init, c, hchars⟩ := (List.eq_nil_or_concat' p.chars).resolve_left h
  by_cases hslash : c = '/'
  · have hending : p.chars.getLast? = some '/' := by rw [hchars, hslash, List.getLast?_concat]
    exact ⟨(p.chars.splitOn '/').filter (!·.isEmpty), ['.'], by rw [followed, if_pos hending]⟩
  · obtain ⟨pieces, last, hpieces⟩ := Path.exists_splitOn_concat init hslash
    have hending : p.chars.getLast? ≠ some '/' := by
      rw [hchars, List.getLast?_concat]
      simpa using hslash
    refine ⟨pieces.filter (!·.isEmpty), last ++ [c], ?_⟩
    rw [followed, if_neg hending, hchars, hpieces, List.filter_append]
    simp

/-- **Where a path leads** is known without the tree; that it leads there takes folders along its
route, as far as the last name that is followed. -/
theorem locate_eq_ok_iff (h : p.chars ≠ []) (hfollowed : followed p = names ++ [last]) :
    t.locate p = .ok q ↔
      t.Open (t.origin p) (names.filter (!Path.isVoid ·)) ∧ q = walk (t.origin p) p.route := by
  have horigin : t.origin p = if p.chars.head? = some '/' then [] else t.current := by
    simp [origin, Path.isAbsolute]
  rw [locate, if_neg (by simpa using h), ← horigin, ← filter_followed, hfollowed]
  rw [← follow_concat_eq_ok_iff (hfollowed ▸ followed_ne_nil), ← hfollowed]
  rfl

/-- If a path leads somewhere, its route says where, whatever else is in the tree. -/
theorem eq_walk_of_locate (h : t.locate p = .ok q) : q = walk (t.origin p) p.route := by
  by_cases hchars : p.chars = []
  · simp [locate, hchars] at h
  · obtain ⟨names, last, hfollowed⟩ := exists_followed hchars
    exact ((locate_eq_ok_iff hchars hfollowed).mp h).2

/-- A path leads to a folder if that is what is found under it. -/
theorem isFolder_iff_find? : t.isFolder p ↔ t.find? p = some .folder := by
  unfold isFolder
  split
  next h => simp [h]
  next h => exact iff_of_false Bool.false_ne_true h

/-- What is found under a path stands at the place that it leads to. -/
theorem find?_eq_some_iff :
    t.find? p = some node ↔ ∃ q, t.locate p = .ok q ∧ t.node? q = some node := by
  unfold find?
  cases t.locate p with
  | ok q => simp
  | error fault => simp

/-- **A path leads to a folder** if there are folders all along its route.  The last name, which
`locate` does not ask for, is the folder that is found. -/
theorem isFolder_iff (h : p.chars ≠ []) : t.isFolder p ↔ t.Open (t.origin p) p.route := by
  obtain ⟨names, last, hfollowed⟩ := exists_followed h
  have hroute : p.route = names.filter (!Path.isVoid ·) ++ [last].filter (!Path.isVoid ·) := by
    rw [← filter_followed, hfollowed, List.filter_append]
  rw [isFolder_iff_find?, find?_eq_some_iff]
  simp only [locate_eq_ok_iff h hfollowed]
  by_cases hvoid : Path.isVoid last
  · have hsame : p.route = names.filter (!Path.isVoid ·) := by simp [hroute, hvoid]
    rw [← hsame]
    constructor
    · intro hfound
      obtain ⟨q, ⟨hopen, -⟩, -⟩ := hfound
      exact hopen
    · intro hopen
      exact ⟨_, ⟨hopen, rfl⟩, hopen _ List.prefix_rfl⟩
  · have hsame : p.route = names.filter (!Path.isVoid ·) ++ [last] := by simp [hroute, hvoid]
    rw [hsame, open_concat]
    constructor
    · intro hfound
      obtain ⟨q, ⟨hopen, rfl⟩, hnode⟩ := hfound
      exact ⟨hopen, hnode⟩
    · intro hopen
      exact ⟨_, ⟨hopen.1, rfl⟩, hopen.2⟩

/-! ## Growing -/

namespace Grows

variable {made made' : Place → Prop} {t'' : FileTree}

theorem refl (made : Place → Prop) (t : FileTree) : Grows made t t :=
  ⟨rfl, fun _ => .inl rfl⟩

/-- Places of one kind may be counted as places of a wider one. -/
theorem mono (h : Grows made t t') (hmade : ∀ place, made place → made' place) :
    Grows made' t t' :=
  ⟨h.current, fun place => (h.node place).imp_right fun hnew =>
    ⟨hnew.1, hnew.2.1, hmade place hnew.2.2⟩⟩

/-- Growing and growing again is growing: what the first step puts there stays, and the second puts
something only where nothing is. -/
theorem trans (h : Grows made t t') (h' : Grows made t' t'') : Grows made t t'' := by
  refine ⟨h'.current.trans h.current, fun place => ?_⟩
  rcases h.node place with hold | ⟨hnone, hfolder, hmade⟩ <;>
    rcases h'.node place with hsame | ⟨hnone', hfolder', hmade'⟩
  · exact .inl (hsame.trans hold)
  · exact .inr ⟨hold ▸ hnone', hfolder', hmade'⟩
  · exact .inr ⟨hnone, hsame.trans hfolder, hmade⟩
  · exact .inr ⟨hnone, hfolder', hmade⟩

/-- Paths begin where they did. -/
theorem origin_eq (h : Grows made t t') (p : Path) : t'.origin p = t.origin p := by
  rw [origin, origin, h.current]

/-- What stands somewhere stays there, files with their contents. -/
theorem node_some (h : Grows made t t') (hnode : t.node? place = some node) :
    t'.node? place = some node := by
  rcases h.node place with hold | ⟨hnone, -⟩
  · rw [hold, hnode]
  · rw [hnode] at hnone
    cases hnone

/-- Folders along names stay. -/
theorem open_of_open (h : Grows made t t') (hopen : t.Open place names) : t'.Open place names :=
  fun ns hns => h.node_some (hopen ns hns)

end Grows

/-! ## Making folders -/

/-- A path that leads somewhere leads there still.  More folders cannot turn it elsewhere. -/
theorem Grows.locate_eq_ok {made : Place → Prop} (h : Grows made t t')
    (hlocate : t.locate p = .ok q) : t'.locate p = .ok q := by
  by_cases hchars : p.chars = []
  · simp [locate, hchars] at hlocate
  · obtain ⟨names, last, hfollowed⟩ := exists_followed hchars
    rw [locate_eq_ok_iff hchars hfollowed] at hlocate ⊢
    rw [h.origin_eq]
    exact ⟨h.open_of_open hlocate.1, hlocate.2⟩

/-- A folder where nothing was.  This is the only way in which a tree grows, and everything else
that grows is a chain of such steps. -/
theorem grows_put (h : t.node? place = none) : Grows (· = place) t (t.put place .folder) := by
  have hne : place ≠ [] := by
    rintro rfl
    rw [node?_nil] at h
    cases h
  refine ⟨rfl, fun q => ?_⟩
  rw [node?_put hne]
  by_cases hq : q = place
  · rw [if_pos hq, hq]
    exact .inr ⟨h, rfl, rfl⟩
  · rw [if_neg hq]
    exact .inl rfl

/-- **Making one folder** succeeds if the path leads there then.  It fails where something else is
in the way or where the folder above is missing, and changes nothing in both cases. -/
theorem ensureFolder_spec (p : Path) (t : FileTree) :
    Grows (· = walk (t.origin p) p.route) t (ensureFolder p t).2 ∧
      ((ensureFolder p t).1 = .ok () ↔ (ensureFolder p t).2.isFolder p) := by
  have hthere : ∀ fault : FileFault,
      (if t.isFolder p then .ok () else .error fault : Except FileFault Unit) = .ok () ↔
        t.isFolder p := by
    intro fault
    by_cases h : t.isFolder p <;> simp [h]
  unfold ensureFolder makeFolder
  cases hlocate : t.locate p with
  | error fault => exact ⟨.refl _ t, hthere fault⟩
  | ok place =>
      cases hnode : t.node? place with
      | some node => simpa [hnode] using And.intro (Grows.refl _ t) (hthere .alreadyThere)
      | none =>
          have hgrows := grows_put hnode
          have hplace := eq_walk_of_locate hlocate
          simp only [hnode]
          refine ⟨hplace ▸ hgrows, iff_of_true trivial ?_⟩
          rw [isFolder_iff_find?, find?_eq_some_iff]
          refine ⟨place, hgrows.locate_eq_ok hlocate, ?_⟩
          rw [node?_put (by rintro rfl; cases hnode), if_pos rfl]

/-- The places along the route of a path, with where it leads.  They are told before any folder is
made. -/
def Along (t : FileTree) (p : Path) (place : Place) : Prop :=
  ∃ ns, ns <+: p.route ∧ place = walk (t.origin p) ns

/-- The empty path stands for a folder that need not be made, so nothing is done for it. -/
theorem ensureChain_chain_of_empty {fuel : Nat} (h : p.chars = []) :
    ensureChain ensureFolder (p.chain fuel) t = (.ok (), t) := by
  obtain ⟨rest, hchain⟩ : ∃ rest, p.chain fuel = p :: rest := by
    cases fuel with
    | zero => exact ⟨[], rfl⟩
    | succ fuel =>
        rw [Path.chain]
        cases p.parent? with
        | none => exact ⟨[], rfl⟩
        | some above => exact ⟨_, rfl⟩
  rw [hchain, ensureChain, if_pos (by rw [h]; rfl)]
  rfl

/-- The folder above is made where the folder itself cannot be.  If that succeeds the folder is
tried once more, and if not the failure is that of the folder above. -/
theorem ensureChain_cons (h : p.chars ≠ []) (rest : List Path) (t : FileTree) :
    ensureChain ensureFolder (p :: rest) t =
      if (ensureFolder p t).1 = .error .missing then
        if (ensureChain ensureFolder rest (ensureFolder p t).2).1 = .ok () then
          ensureFolder p (ensureChain ensureFolder rest (ensureFolder p t).2).2
        else ensureChain ensureFolder rest (ensureFolder p t).2
      else ensureFolder p t := by
  rw [ensureChain, if_neg (by simpa using h), bind_run]
  obtain ⟨result, made⟩ := ensureFolder p t
  dsimp only
  by_cases hmissing : result = .error .missing
  · subst hmissing
    rw [if_pos rfl]
    dsimp only
    rw [bind_run]
    obtain ⟨above, made'⟩ := ensureChain ensureFolder rest made
    cases above with
    | ok => exact (if_pos rfl).symm
    | error fault => exact (if_neg nofun).symm
  · rw [if_neg hmissing]
    split
    next => exact absurd rfl hmissing
    next => rfl

/-- As places begin where they did, the places along a route are the same in a tree that has grown.
-/
theorem Along.of_eq {made : Place → Prop} (h : Grows made t t') (halong : Along t' p place) :
    Along t p place := by
  rwa [Along, h.origin_eq] at halong

/-- What is along the route of the path above is along that of the path, for the one route begins
the other. -/
theorem Along.of_parent? {above : Path} (h : p.parent? = some above)
    (halong : Along t above place) : Along t p place := by
  obtain ⟨ns, hns, rfl⟩ := halong
  refine ⟨ns, hns.trans (Path.route_of_parent? h ▸ p.route.dropLast_prefix), ?_⟩
  rw [origin, origin, Path.isAbsolute_of_parent? h]

/-- The path above a folder leads to a folder.  So if the folders above cannot be made, the path
leads to none. -/
theorem isFolder_of_parent? {above : Path} (h : p.parent? = some above) (hchars : p.chars ≠ [])
    (habove : above.chars ≠ []) (hfolder : t.isFolder p) : t.isFolder above := by
  rw [isFolder_iff hchars] at hfolder
  rw [isFolder_iff habove, Path.route_of_parent? h, origin, Path.isAbsolute_of_parent? h]
  exact hfolder.of_prefix p.route.dropLast_prefix

/-- **Making a folder** when those above it have been tried, or are there.  The two hypotheses say
of the folders above what the theorem says of the folder, and this is the step of the induction
below. -/
theorem ensureChain_cons_spec {rest : List Path} (h : p.chars ≠ [])
    (hgrows : ∀ t, Grows (Along t p) t (ensureChain ensureFolder rest t).2)
    (hrest : ∀ t, (ensureChain ensureFolder rest t).1 ≠ .ok () →
      ¬(ensureChain ensureFolder rest t).2.isFolder p) (t : FileTree) :
    Grows (Along t p) t (ensureChain ensureFolder (p :: rest) t).2 ∧
      ((ensureChain ensureFolder (p :: rest) t).1 = .ok () ↔
        (ensureChain ensureFolder (p :: rest) t).2.isFolder p) := by
  have hone : ∀ t, Grows (Along t p) t (ensureFolder p t).2 := fun t =>
    (ensureFolder_spec p t).1.mono fun place hplace => ⟨p.route, List.prefix_rfl, hplace⟩
  have hfirst := hone t
  have habove := hfirst.trans ((hgrows _).mono fun _ halong => halong.of_eq hfirst)
  rw [ensureChain_cons h]
  split
  next =>
    split
    next =>
      exact ⟨habove.trans ((hone _).mono fun _ halong => halong.of_eq habove),
        (ensureFolder_spec p _).2⟩
    next hfailed => exact ⟨habove, iff_of_false hfailed (hrest _ hfailed)⟩
  next => exact ⟨hfirst, (ensureFolder_spec p t).2⟩

/-- **Making a folder and those above it** puts folders along the route of the path, and it succeeds
if the path leads to a folder then.  By induction on the paths above; the chain ends at the root or
at the empty path, where there is nothing to make. -/
theorem ensureChain_spec (fuel : Nat) (h : p.chars ≠ []) (t : FileTree) :
    Grows (Along t p) t (ensureChain ensureFolder (p.chain fuel) t).2 ∧
      ((ensureChain ensureFolder (p.chain fuel) t).1 = .ok () ↔
        (ensureChain ensureFolder (p.chain fuel) t).2.isFolder p) := by
  induction fuel generalizing p t with
  | zero => exact ensureChain_cons_spec h (fun t => .refl _ t) (fun t hfailed => absurd rfl hfailed) t
  | succ fuel ih =>
      rw [Path.chain]
      cases hparent : p.parent? with
      | none =>
          exact ensureChain_cons_spec h (fun t => .refl _ t) (fun t hfailed => absurd rfl hfailed) t
      | some above =>
          apply ensureChain_cons_spec h
          · intro t
            by_cases hempty : above.chars = []
            · rw [ensureChain_chain_of_empty hempty]
              exact .refl _ t
            · exact (ih hempty t).1.mono fun place halong => halong.of_parent? hparent
          · intro t hfailed hfolder
            by_cases hempty : above.chars = []
            · exact hfailed (by rw [ensureChain_chain_of_empty hempty])
            · exact hfailed ((ih hempty t).2.mpr (isFolder_of_parent? hparent h hempty hfolder))

/-! ## Writing -/

/-- Storing a content fails, or it puts a file where the path leads.  A failure leaves the tree as
it is, and then the path cannot be read either. -/
theorem write_cases (p : Path) (content : ByteArray) (t : FileTree) :
    (∃ fault, write p content t = (.error fault, t) ∧ ∀ old, t.read p ≠ .ok old) ∨
      ∃ place, t.locate p = .ok place ∧ t.node? place ≠ some .folder ∧
        write p content t = (.ok (), t.put place (.file content)) := by
  unfold write
  cases hlocate : t.locate p with
  | error fault => exact .inl ⟨fault, rfl, fun old => by simp [read, hlocate]⟩
  | ok place =>
      dsimp only
      cases hnode : t.node? place with
      | none => exact .inr ⟨place, rfl, by simp [hnode], rfl⟩
      | some node =>
          cases node with
          | folder => exact .inl ⟨.isFolder, rfl, fun old => by simp [read, hlocate, hnode]⟩
          | file old => exact .inr ⟨place, rfl, by simp [hnode], rfl⟩

end Sokoban.FileTree
