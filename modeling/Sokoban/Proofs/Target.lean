import Sokoban.Proofs.FileTree

/-! # Targets

The numbered paths of a batch lead into one folder.  If there are folders all along the route to it
(`Reaches`), each leads to a place of its own in it (`target`); otherwise none of them leads
anywhere.  So what is read under one of these paths depends on a single node, and different levels
have different nodes (`target_injective`).

Making the folders of a batch does not get in the way of its targets (`Settles.not_along`), unless a
path goes back from a folder that is only made then: behind `new/..` a target may have been there
before the folder `new` is, or may be that folder itself.  `Settles` says that this does not happen:
two dots only lead back from folders that are there already.

A tree is `Closed` if everything stands in a folder.  Every tree that comes about by making folders
and storing files is so, but a list of nodes need not be, and where a batch does not reach, only a
closed tree is known to have nothing at the targets (`Settles.node?_target`).
-/

namespace Sokoban.FileTree

/-- The place that a numbered path leads to.  It is told from the route, so it does not change while
the batch is placed. -/
def target (t : FileTree) (base : Path) (index : Nat) : Place :=
  walk (t.origin base.folder) base.folder.route ++ [base.numbered index]

/-- Whether there are folders all along the route to the folder of a batch. -/
def Reaches (t : FileTree) (base : Path) : Prop :=
  t.Open (t.origin base.folder) base.folder.route

/-- Whether a path goes back from folders that are there, and from no others. -/
def Settles (t : FileTree) (p : Path) : Prop :=
  ∃ front back, p.route = front ++ back ∧ (∃ place, t.follow (t.origin p) front = .ok place) ∧
    ['.', '.'] ∉ back

/-- Whether everything that stands anywhere stands in a folder. -/
def Closed (t : FileTree) : Prop :=
  ∀ place, place ≠ [] → t.node? place ≠ none → t.node? place.dropLast = some .folder

variable {t t' : FileTree} {base p : Path} {q place : Place} {index i j : Nat}
  {names ns : List (List Char)} {node : Node} {content : ByteArray} {made : Place → Prop}

/-! ## Numbered paths -/

/-- The numbered paths begin where the folder of the batch does. -/
theorem origin_indexed (t : FileTree) (base : Path) (index : Nat) :
    t.origin (base.indexed index) = t.origin base.folder := by
  rw [origin, origin, Path.isAbsolute_indexed]

/-- **A numbered path** leads to its target, if there are folders all along the route.  The route is
that of the folder with one name more, and that name is the last one that is followed. -/
theorem locate_indexed_eq_ok_iff :
    t.locate (base.indexed index) = .ok q ↔ t.Reaches base ∧ q = t.target base index := by
  have hslash := Path.not_mem_numbered base index
  have hvoid := Path.isVoid_numbered base index
  have hne : base.numbered index ≠ [] := by
    intro hnil
    rw [hnil] at hvoid
    contradiction
  obtain ⟨pieces, hpieces, hfolder⟩ := Path.exists_splitOn_indexed base index
  have hchars : (base.indexed index).chars ≠ [] := by
    intro hnil
    have hroute := Path.route_indexed base index
    rw [Path.route, hnil] at hroute
    simp [Path.isVoid] at hroute
  have hending : (base.indexed index).chars.getLast? ≠ some '/' := by
    rw [Path.indexed_eq]
    exact Path.getLast?_withFileName base hslash hne
  -- The numbered name stands for something and ends in no slash, so it is followed last.
  have hfollowed : followed (base.indexed index) =
      pieces.filter (!·.isEmpty) ++ [base.numbered index] := by
    rw [followed, if_neg hending, hpieces, List.filter_append]
    simp [hne]
  have htarget : t.target base index = walk (t.origin base.folder) (base.indexed index).route := by
    rw [Path.route_indexed, walk_append, target]
    simp [walk, descend, Path.numbered_ne]
  rw [locate_eq_ok_iff hchars hfollowed, filter_isVoid_filter, hfolder, origin_indexed, ← htarget,
    Reaches]

/-- Where the batch is reached, what is found under a numbered path is what stands at the target. -/
theorem find?_indexed_of_reaches (h : t.Reaches base) :
    t.find? (base.indexed index) = t.node? (t.target base index) := by
  rw [find?, locate_indexed_eq_ok_iff.mpr ⟨h, rfl⟩]

/-- Where it is not reached, nothing is found under it, even if something should stand there. -/
theorem find?_indexed_of_not_reaches (h : ¬t.Reaches base) :
    t.find? (base.indexed index) = none := by
  rw [find?]
  split
  next hlocate => exact absurd (locate_indexed_eq_ok_iff.mp hlocate).1 h
  next => rfl

/-- The content of a file at the target is what is read under the path. -/
theorem read_indexed_of_reaches (h : t.Reaches base)
    (hnode : t.node? (t.target base index) = some (.file content)) :
    t.read (base.indexed index) = .ok content := by
  rw [read, locate_indexed_eq_ok_iff.mpr ⟨h, rfl⟩]
  simp only [hnode]

/-- What can be read leads somewhere, so the batch is reached. -/
theorem reaches_of_read (h : t.read (base.indexed index) = .ok content) : t.Reaches base := by
  rw [read] at h
  split at h
  next => cases h
  next hlocate => exact (locate_indexed_eq_ok_iff.mp hlocate).1

/-- A target is never the root, so a file can be put there. -/
theorem target_ne_nil (t : FileTree) (base : Path) (index : Nat) : t.target base index ≠ [] := by
  simp [target]

/-- Targets are the same in all trees that paths begin in at the same place. -/
theorem target_eq (h : t'.current = t.current) (base : Path) (index : Nat) :
    t'.target base index = t.target base index := by
  rw [target, target, origin, origin, h]

/-- **Different numbers** make different targets: they are in one folder under different names.  The
digits of a number stand behind the last underscore, so no name is that of another number. -/
theorem target_injective (t : FileTree) (base : Path) : Function.Injective (t.target base) := by
  intro i j h
  exact base.numbered_injective (List.singleton_inj.mp (List.append_cancel_left h))

/-! ## Folders that are made for a batch -/

/-- Names without two dots lead down, each below the one before. -/
theorem walk_eq_append (h : ['.', '.'] ∉ names) (place : Place) :
    walk place names = place ++ names := by
  induction names generalizing place with
  | nil => exact (List.append_nil place).symm
  | cons name names ih =>
      rw [List.mem_cons, not_or] at h
      have hdescend : descend place name = place ++ [name] := if_neg fun hup => h.1 hup.symm
      rw [walk, List.foldl_cons, ← walk, hdescend, ih h.2, List.append_assoc, List.singleton_append]

/-- Names that can be followed lead through folders, to the last but one at least.  The last may
lead to nothing or to a file. -/
theorem node?_of_follow (hvoid : ∀ name ∈ names, Path.isVoid name = false)
    (h : t.follow place names = .ok q) (hns : ns <+: names) (hne : ns ≠ names) :
    t.node? (walk place ns) = some .folder := by
  rcases List.eq_nil_or_concat' names with rfl | ⟨init, last, rfl⟩
  · exact absurd (List.prefix_nil.mp hns) hne
  · have hkept : init.filter (!Path.isVoid ·) = init :=
      List.filter_eq_self.mpr fun name hname => by simp [hvoid name (List.mem_append_left _ hname)]
    have hwritten : ∀ name ∈ init ++ [last], name ≠ [] := by
      rintro name hname rfl
      exact absurd (hvoid [] hname) (by decide)
    have hopen := ((follow_concat_eq_ok_iff hwritten).mp h).1
    rw [hkept] at hopen
    exact hopen ns ((List.prefix_concat_iff.mp hns).resolve_left hne)

/-- The names of a route stand for something. -/
theorem isVoid_of_mem_route {name : List Char} (h : name ∈ p.route) : Path.isVoid name = false := by
  simpa using (List.mem_filter.mp h).2

/-- The places along a route that settles: folders, and then places each below the one before.  The
first part is the one with two dots in it, which is followed through folders that are there. -/
theorem Settles.cases (h : t.Settles p) (hns : ns <+: p.route) :
    t.node? (walk (t.origin p) ns) = some .folder ∨
      walk (t.origin p) ns <+: walk (t.origin p) p.route := by
  obtain ⟨front, back, hroute, ⟨place, hfollow⟩, hdown⟩ := h
  have hvoid : ∀ name ∈ front, Path.isVoid name = false := fun name hname =>
    isVoid_of_mem_route (hroute ▸ List.mem_append_left back hname)
  have hwalk := walk_eq_append hdown (walk (t.origin p) front)
  rw [← walk_append, ← hroute] at hwalk
  rw [hroute] at hns
  by_cases hfront : ns <+: front
  · by_cases heq : ns = front
    · right
      rw [heq, hwalk]
      exact List.prefix_append _ back
    · exact .inl (node?_of_follow hvoid hfollow hfront heq)
  · right
    obtain ⟨more, rfl⟩ := (List.prefix_or_prefix_of_prefix hns (List.prefix_append front back)).resolve_left hfront
    have hmore : more <+: back := (List.prefix_append_right_inj front).mp hns
    have hdown' : ['.', '.'] ∉ more := fun hmem => hdown (hmore.subset hmem)
    rw [walk_append, walk_eq_append hdown', hwalk]
    exact (List.prefix_append_right_inj _).mpr hmore

/-- **A target is not made a folder** on the way to the folder of its batch.  It stands below that
folder, and what is made stands above it or is there already. -/
theorem Settles.not_along (h : t.Settles base.folder) (hnone : t.node? (t.target base index) = none) :
    ¬t.Along base.folder (t.target base index) := by
  intro halong
  obtain ⟨ns, hns, heq⟩ := halong
  rcases h.cases hns with hfolder | hshort
  · rw [← heq, hnone] at hfolder
    cases hfolder
  · have hlength := hshort.length_le
    rw [← heq, target, List.length_append, List.length_singleton] at hlength
    omega

/-- A tree is closed if each node that is listed is in a folder, so this is decided for a tree that
is given. -/
theorem closed_of_nodes (h : ∀ entry ∈ t.nodes, t.node? entry.1.dropLast = some .folder) :
    t.Closed := by
  intro place hne hnode
  obtain ⟨node, hlookup⟩ := Option.ne_none_iff_exists'.mp hnode
  rw [node?, if_neg (by simpa using hne)] at hlookup
  obtain ⟨earlier, later, hnodes, -⟩ := List.lookup_eq_some_iff.mp hlookup
  exact h (place, node) (by simp [hnodes])

/-- In a tree that is closed, folders stand above everything, all the way up.  By induction on the
names that are between the two places. -/
theorem Closed.node?_of_prefix (h : t.Closed) (hnode : t.node? place ≠ none) (hq : q <+: place)
    (hne : q ≠ place) : t.node? q = some .folder := by
  induction place using List.reverseRecOn with
  | nil => exact absurd (List.prefix_nil.mp hq) hne
  | append_singleton init name ih =>
      have hinit := h (init ++ [name]) (by simp) hnode
      rw [List.dropLast_concat] at hinit
      have hshort := (List.prefix_concat_iff.mp hq).resolve_left hne
      by_cases heq : q = init
      · rw [heq, hinit]
      · exact ih (by simp [hinit]) hshort heq

/-- **Where a batch does not reach** nothing stands at its targets.  If something stood there, there
would be folders above it, and the route would lead through them. -/
theorem Settles.node?_target (h : t.Settles base.folder) (hclosed : t.Closed)
    (hreaches : ¬t.Reaches base) : t.node? (t.target base index) = none := by
  by_contra hnode
  refine hreaches fun ns hns => (h.cases hns).elim id fun hshort => ?_
  refine hclosed.node?_of_prefix hnode (hshort.trans (List.prefix_append _ _)) fun heq => ?_
  have hlength := hshort.length_le
  rw [heq, target, List.length_append, List.length_singleton] at hlength
  omega

end Sokoban.FileTree
