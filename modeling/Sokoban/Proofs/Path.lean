import Mathlib.Data.List.Infix
import Sokoban.Path
import Sokoban.Proofs.Text

/-! # Where paths lead

A path is a text, with slashes and dots in any places, and the operations on it are those on texts.
Of its names only some lead anywhere; these are its route.  Taking a path apart shortens the route
(`route_of_parent?`) and putting a name behind it lengthens the route (`route_withFileName`),
whatever slashes and dots there are in between: doubled slashes, single dots and a slash at the end
make different texts and the same route.

So the numbered paths of a batch differ in the last name of their routes and in nothing else
(`route_indexed`, `indexed_injective`).  The number stands between the stem and the extension of the
file name, behind a low line, so the new name is no dot and no pair of dots however the name is
chosen (`isVoid_numbered`, `numbered_ne`).  And the texts begin at the root, or do not, as the
folder does (`isAbsolute_indexed`), which is the second thing that where a path leads depends on.
-/

namespace Sokoban.Path

/-- The names that lead somewhere: a folder down, or back to the folder above. -/
def route (p : Path) : List (List Char) :=
  (p.chars.splitOn '/').filter (!isVoid ·)

/-- Whether a path begins at the root. -/
def isAbsolute (p : Path) : Bool :=
  p.chars.head? == some '/'

/-- What another last name is put behind: the path without its last name, if it has one. -/
def folder (p : Path) : Path :=
  if p.fileName?.isSome then p.parent?.getD ⟨[]⟩ else p

/-- The last name of a numbered path. -/
def numbered (p : Path) (index : Nat) : List Char :=
  (splitExtension (p.fileName?.getD [])).1 ++ '_' :: Nat.toDigits 10 index ++
    ((splitExtension (p.fileName?.getD [])).2.map ('.' :: ·)).getD []

variable {p q : Path} {name : List Char} {ns : List (List Char)} {chars : List Char}

/-! ## Names -/

/-- The pieces between slashes have no slash. -/
theorem not_mem_of_mem_splitOn (h : name ∈ chars.splitOn '/') : '/' ∉ name := by
  intro hslash
  have hcut := (Text.mem_of_mem_splitOnP h hslash).2
  simp at hcut

/-- The last character, if it is no slash, is in the last piece.  So a name that is put behind a
path is not torn apart. -/
theorem exists_splitOn_concat (init : List Char) {c : Char} (hc : c ≠ '/') :
    ∃ pieces last, (init ++ [c]).splitOn '/' = pieces ++ [last ++ [c]] := by
  induction init with
  | nil =>
      refine ⟨[], [], ?_⟩
      rw [List.nil_append, List.splitOn_eq_singleton (by simpa using hc.symm)]
      rfl
  | cons x init ih =>
      obtain ⟨pieces, last, hpieces⟩ := ih
      rw [List.cons_append, List.splitOn_cons_eq_if_modifyHead, hpieces]
      split
      next => exact ⟨[] :: pieces, last, rfl⟩
      next =>
        cases pieces with
        | nil => exact ⟨[], x :: last, rfl⟩
        | cons first later => exact ⟨(x :: first) :: later, last, rfl⟩

/-- Names are only dropped from the end. -/
theorem trimNames_isPrefix (ns : List (List Char)) : trimNames ns <+: ns := by
  rw [trimNames, ← List.reverse_suffix, List.reverse_reverse]
  exact List.dropWhile_suffix isVoid

/-- Only names that stand for nothing are dropped, so the route does not notice. -/
theorem filter_trimNames (ns : List (List Char)) :
    (trimNames ns).filter (!isVoid ·) = ns.filter (!isVoid ·) := by
  have hdropped : ∀ rest : List (List Char),
      (rest.dropWhile isVoid).filter (!isVoid ·) = rest.filter (!isVoid ·) := by
    intro rest
    induction rest with
    | nil => rfl
    | cons name rest ih => by_cases h : isVoid name <;> simp [h, ih]
  rw [trimNames, List.filter_reverse, hdropped, ← List.filter_reverse, List.reverse_reverse]

/-- The last name that is kept stands for something, if any name is kept.  So it is the last of the
route, and taking it away takes the last of the route away. -/
theorem trimNames_cases (ns : List (List Char)) :
    trimNames ns = [] ∨ ∃ init last, trimNames ns = init ++ [last] ∧ isVoid last = false := by
  rw [trimNames]
  cases hkept : ns.reverse.dropWhile isVoid with
  | nil => exact .inl rfl
  | cons last rest =>
      refine .inr ⟨rest.reverse, last, List.reverse_cons, ?_⟩
      have hhead := List.head?_dropWhile_not isVoid ns.reverse
      rw [hkept] at hhead
      simpa using hhead

/-- No name of a path has a slash, so names put together with slashes are taken apart again as they
were. -/
theorem not_mem_of_mem_names (h : name ∈ p.names) : '/' ∉ name :=
  not_mem_of_mem_splitOn ((trimNames_isPrefix _).subset h)

/-- What a path begins with is no part of its route: a slash in front makes an empty name, and a dot
stands for nothing. -/
theorem route_eq (p : Path) : p.route = p.names.filter (!isVoid ·) := by
  rw [route, names, filter_trimNames]
  unfold splitLead
  split
  next rest hchars => simp [hchars, List.splitOn_cons_eq_if_modifyHead, isVoid]
  next hchars => simp [hchars, List.splitOn_cons_eq_if_modifyHead, isVoid]
  next rest hchars => simp [hchars, List.splitOn_cons_eq_if_modifyHead, isVoid]
  next => rfl

/-! ## The path above -/

/-- Names that are put together again are the route of what they are put behind, without those that
stand for nothing. -/
theorem route_intercalate (h : ∀ name ∈ ns, '/' ∉ name) :
    (⟨['/'].intercalate ns⟩ : Path).route = ns.filter (!isVoid ·) := by
  cases ns with
  | nil => rfl
  | cons first later => rw [route, List.splitOn_intercalate '/' h (List.cons_ne_nil first later)]

/-- The route of a path with a lead: a slash or a dot in front is no part of it. -/
theorem route_lead {lead : List Char} (h : ∀ name ∈ ns, '/' ∉ name)
    (hlead : lead = [] ∨ lead = ['/'] ∨ lead = ['.'] ∧ ∀ name ∈ ns.head?, name = []) :
    (⟨lead ++ ['/'].intercalate ns⟩ : Path).route = ns.filter (!isVoid ·) := by
  have hnames := route_intercalate h
  rcases hlead with rfl | rfl | ⟨rfl, hhead⟩
  · exact hnames
  · rw [← hnames]
    simp [route, List.splitOn_cons_eq_if_modifyHead, isVoid]
  · cases ns with
    | nil => rfl
    | cons first later =>
        obtain rfl : first = [] := hhead first rfl
        rw [route, List.singleton_append, List.splitOn_cons_eq_if_modifyHead,
          List.splitOn_intercalate '/' h (List.cons_ne_nil _ later)]
        simp [isVoid]

/-- What a path begins with: nothing, a slash, or a dot with a slash behind it.  A dot that is the
beginning of a name does not count. -/
theorem splitLead_cases (chars : List Char) :
    splitLead chars = ([], chars) ∧ chars.head? ≠ some '/' ∨
      (∃ rest, chars = '/' :: rest ∧ splitLead chars = (['/'], rest)) ∨
      ∃ rest, chars = '.' :: rest ∧ splitLead chars = (['.'], rest) ∧
        ∀ name ∈ (rest.splitOn '/').head?, name = [] := by
  unfold splitLead
  split
  next rest => exact .inr (.inl ⟨rest, rfl, rfl⟩)
  next => exact .inr (.inr ⟨[], rfl, rfl, by simp⟩)
  next rest =>
    exact .inr (.inr ⟨'/' :: rest, rfl, rfl, by simp [List.splitOn_cons_eq_if_modifyHead]⟩)
  next hroot _ _ =>
    refine .inl ⟨rfl, fun hhead => ?_⟩
    obtain ⟨rest, rfl⟩ := List.head?_eq_some_iff.mp hhead
    exact hroot rest rfl

/-- What a path begins with and the rest are the whole path. -/
theorem splitLead_append (chars : List Char) :
    (splitLead chars).1 ++ (splitLead chars).2 = chars := by
  rcases splitLead_cases chars with ⟨hlead, -⟩ | ⟨rest, rfl, hlead⟩ | ⟨rest, rfl, hlead, -⟩ <;>
    rw [hlead] <;> rfl

/-- Fewer names make a shorter text.  The path above is a beginning of the path. -/
theorem intercalate_isPrefix {ms : List (List Char)} (h : ns <+: ms) :
    ['/'].intercalate ns <+: ['/'].intercalate ms := by
  obtain ⟨rest, rfl⟩ := h
  induction ns with
  | nil => exact List.nil_prefix
  | cons first later ih =>
      cases later with
      | nil =>
          rw [List.intercalate_singleton]
          cases rest with
          | nil => simp
          | cons next rest => simp [List.intercalate_cons_cons]
      | cons next later =>
          rw [List.cons_append, List.cons_append, List.intercalate_cons_cons,
            List.intercalate_cons_cons]
          exact (List.prefix_append_right_inj _).mpr ih

/-- The names of the path above: all but the last, and of those the ones at the end that stand for
nothing are dropped.  A single dot has the empty path above it. -/
theorem parent?_cases (h : p.parent? = some q) :
    p.names = [] ∧ (splitLead p.chars).1 = ['.'] ∧ q = ⟨[]⟩ ∨
      p.names ≠ [] ∧
        q = ⟨(splitLead p.chars).1 ++ ['/'].intercalate (trimNames p.names.dropLast)⟩ := by
  unfold parent? at h
  simp only [List.isEmpty_iff] at h
  split at h
  next hnames =>
    split at h
    next hlead => exact .inl ⟨hnames, hlead, (Option.some.inj h).symm⟩
    next => cases h
  next hnames => exact .inr ⟨hnames, (Option.some.inj h).symm⟩

/-- **The path above** has the route without its last name.  The last name of a path is the last of
its route, because what follows it stands for nothing. -/
theorem route_of_parent? (h : p.parent? = some q) : q.route = p.route.dropLast := by
  rcases parent?_cases h with ⟨hnames, -, rfl⟩ | ⟨hnames, rfl⟩
  · rw [route_eq p, hnames]
    rfl
  · have hshort : trimNames p.names.dropLast <+: p.names :=
      (trimNames_isPrefix _).trans p.names.dropLast_prefix
    rw [route_lead (fun name hname => not_mem_of_mem_names (hshort.subset hname)) ?_,
      filter_trimNames, route_eq p]
    · rcases trimNames_cases ((splitLead p.chars).2.splitOn '/') with hnil | ⟨init, last, hlast, hvoid⟩
      · exact absurd hnil hnames
      · have hsplit : p.names = init ++ [last] := hlast
        simp [hsplit, hvoid]
    · rcases splitLead_cases p.chars with ⟨hlead, -⟩ | ⟨rest, -, hlead⟩ | ⟨rest, -, hlead, hhead⟩
      · exact .inl (by rw [hlead])
      · exact .inr (.inl (by rw [hlead]))
      · refine .inr (.inr ⟨by rw [hlead], fun name hname => hhead name ?_⟩)
        have hpieces : p.names <+: rest.splitOn '/' := by
          rw [names, hlead]
          exact trimNames_isPrefix _
        obtain ⟨more, hmore⟩ := hshort.trans hpieces
        rw [← hmore, List.head?_append, hname, Option.some_or, Option.mem_some_iff]

/-- **The path above** begins at the root if the path does.  Dropping names leaves the lead as it
is. -/
theorem isAbsolute_of_parent? (h : p.parent? = some q) : q.isAbsolute = p.isAbsolute := by
  have happend := splitLead_append p.chars
  rcases parent?_cases h with ⟨-, hdot, rfl⟩ | ⟨-, rfl⟩
  · rw [isAbsolute, isAbsolute, ← happend, hdot]
    rfl
  · -- What is kept of the names is a beginning of the text.
    obtain ⟨more, hmore⟩ : ['/'].intercalate (trimNames p.names.dropLast) <+:
        (splitLead p.chars).2 := by
      have hnames := (trimNames_isPrefix p.names.dropLast).trans p.names.dropLast_prefix
      have hpieces := intercalate_isPrefix (hnames.trans (trimNames_isPrefix _))
      rwa [List.intercalate_splitOn] at hpieces
    rcases splitLead_cases p.chars with ⟨hlead, hroot⟩ | ⟨rest, hchars, hlead⟩ | ⟨rest, hchars, hlead, -⟩
    · have hroot' : p.isAbsolute = false := by simpa [isAbsolute] using hroot
      rw [hlead] at hmore ⊢
      rw [hroot', isAbsolute, List.nil_append]
      cases hkept : ['/'].intercalate (trimNames p.names.dropLast) with
      | nil => rfl
      | cons c kept =>
          have hchars : c :: kept ++ more = p.chars := by rw [← hkept, hmore]
          rw [isAbsolute, ← hchars] at hroot'
          exact hroot'
    · rw [isAbsolute, isAbsolute, hlead, hchars]
      rfl
    · rw [isAbsolute, isAbsolute, hlead, hchars]
      rfl

/-! ## Another last name -/

/-- Another last name is put behind the folder, with a slash between them where one is missing. -/
theorem withFileName_eq (p : Path) (name : List Char) :
    p.withFileName name =
      ⟨p.folder.chars ++ (if p.folder.chars.isEmpty || p.folder.chars.getLast? = some '/' then []
        else ['/']) ++ name⟩ := by
  have hfolder : p.folder.chars =
      if p.fileName?.isSome then (p.parent?.getD ⟨[]⟩).chars else p.chars := by
    rw [folder]
    split <;> rfl
  rw [withFileName, hfolder]

/-- A name behind a path is the last piece of its text, and the pieces before it are the route of
the folder. -/
theorem exists_splitOn_withFileName (p : Path) (hslash : '/' ∉ name) :
    ∃ pieces, (p.withFileName name).chars.splitOn '/' = pieces ++ [name] ∧
      pieces.filter (!isVoid ·) = p.folder.route := by
  rw [withFileName_eq]
  generalize p.folder = above
  split
  next h =>
    rw [Bool.or_eq_true, List.isEmpty_iff, decide_eq_true_iff] at h
    rw [List.append_nil, route]
    rcases h with hnil | hlast
    · refine ⟨[], ?_, by rw [hnil]; rfl⟩
      rw [hnil, List.nil_append, List.splitOn_eq_singleton hslash, List.nil_append]
    · obtain ⟨init, hinit⟩ := List.getLast?_eq_some_iff.mp hlast
      refine ⟨init.splitOn '/', ?_, ?_⟩
      · rw [hinit, List.append_assoc, List.singleton_append, List.splitOn_append_cons_self,
          List.splitOn_eq_singleton hslash]
      · rw [hinit, List.splitOn_append_cons_self]
        simp [isVoid]
  next =>
    refine ⟨above.chars.splitOn '/', ?_, rfl⟩
    rw [List.append_assoc, List.singleton_append, List.splitOn_append_cons_self,
      List.splitOn_eq_singleton hslash]

/-- **A name behind a path** is the last of its route.  What comes before it is the route of the
folder, whatever slashes and dots the path is written with. -/
theorem route_withFileName (hslash : '/' ∉ name) (hvoid : isVoid name = false) :
    (p.withFileName name).route = p.folder.route ++ [name] := by
  obtain ⟨pieces, hpieces, hfolder⟩ := exists_splitOn_withFileName p hslash
  rw [route, hpieces, List.filter_append, hfolder]
  simp [hvoid]

/-- A name behind a path does not change where the path begins, for a name does not begin with a
slash. -/
theorem isAbsolute_withFileName (hslash : '/' ∉ name) :
    (p.withFileName name).isAbsolute = p.folder.isAbsolute := by
  rw [withFileName_eq]
  generalize p.folder = above
  cases hchars : above.chars with
  | nil =>
      cases name with
      | nil => simp [isAbsolute, hchars]
      | cons c rest =>
          have hc : c ≠ '/' := fun h => hslash (by simp [h])
          simp [isAbsolute, hchars, hc]
  | cons c rest => simp [isAbsolute, hchars]

/-- A path with a name at its end does not end with a slash, so it asks for no folder there. -/
theorem getLast?_withFileName (p : Path) (hslash : '/' ∉ name) (hne : name ≠ []) :
    (p.withFileName name).chars.getLast? ≠ some '/' := by
  rw [withFileName_eq, List.getLast?_append_of_ne_nil _ hne]
  exact fun hlast => hslash (List.mem_of_getLast? hlast)

/-! ## Numbered paths -/

/-- A file name has no slash. -/
theorem not_mem_fileName (p : Path) : '/' ∉ p.fileName?.getD [] := by
  cases hname : p.fileName? with
  | none => exact List.not_mem_nil
  | some name =>
      rw [fileName?, Option.filter_eq_some_iff] at hname
      exact not_mem_of_mem_names (List.mem_of_getLast? hname.1)

/-- The stem and the extension have no characters of their own but the dot between them. -/
theorem mem_of_mem_splitExtension {c : Char} :
    (c ∈ (splitExtension name).1 → c ∈ name) ∧
      (c ∈ ((splitExtension name).2.map ('.' :: ·)).getD [] → c = '.' ∨ c ∈ name) := by
  rw [splitExtension]
  split
  next => exact ⟨id, fun h => absurd h List.not_mem_nil⟩
  next =>
    refine ⟨List.mem_of_mem_take, fun h => (List.mem_cons.mp h).imp_right fun hext => ?_⟩
    exact List.mem_reverse.mp ((List.takeWhile_sublist _).subset (List.mem_reverse.mp hext))

/-- A numbered name has no slash, as the name it comes from has none. -/
theorem not_mem_numbered (p : Path) (index : Nat) : '/' ∉ p.numbered index := by
  have hname := not_mem_fileName p
  rw [numbered]
  intro h
  rcases List.mem_append.mp h with h | hending
  · rcases List.mem_append.mp h with hstem | hnumber
    · exact hname (mem_of_mem_splitExtension.1 hstem)
    · rcases List.mem_cons.mp hnumber with hslash | hdigit
      · exact absurd hslash (by decide)
      · exact absurd (Nat.isDigit_of_mem_toDigits (by decide) (by decide) hdigit) (by decide)
  · rcases mem_of_mem_splitExtension.2 hending with hslash | hext
    · exact absurd hslash (by decide)
    · exact hname hext

/-- A numbered name has a low line in it, so it stands for something: what stands for nothing is
empty or a dot. -/
theorem isVoid_numbered (p : Path) (index : Nat) : isVoid (p.numbered index) = false := by
  have hmem : '_' ∈ p.numbered index := by simp [numbered]
  cases hvoid : isVoid (p.numbered index) with
  | false => rfl
  | true =>
      rw [isVoid, Bool.or_eq_true, List.isEmpty_iff, beq_iff_eq] at hvoid
      rcases hvoid with hnil | hdot
      · rw [hnil] at hmem
        cases hmem
      · rw [hdot] at hmem
        exact absurd hmem (by decide)

/-- And it leads down, for two dots have no low line. -/
theorem numbered_ne (p : Path) (index : Nat) : p.numbered index ≠ ['.', '.'] := by
  intro h
  have hmem : '_' ∈ p.numbered index := by simp [numbered]
  rw [h] at hmem
  exact absurd hmem (by decide)

/-- Different numbers make different names.  What is around the number is the same, and a number is
told by its digits. -/
theorem numbered_injective (p : Path) : Function.Injective p.numbered := by
  intro i j h
  have hcount := List.append_cancel_right h
  have hdigits := List.cons.inj (List.append_cancel_left hcount)
  rw [← Nat.ofDigitChars_ten_toDigits (n := i), hdigits.2, Nat.ofDigitChars_ten_toDigits]

/-- A numbered path is the path with another name at its end, so that all that is said of changing the
last name holds of it. -/
theorem indexed_eq (p : Path) (index : Nat) : p.indexed index = p.withFileName (p.numbered index) :=
  rfl

/-- **The route of a numbered path** is that of its folder, and its own name.  Paths with different
numbers are told apart by it, since their folders are the same. -/
theorem route_indexed (p : Path) (index : Nat) :
    (p.indexed index).route = p.folder.route ++ [p.numbered index] := by
  rw [indexed_eq]
  exact route_withFileName (not_mem_numbered p index) (isVoid_numbered p index)

/-- A numbered path begins at the root exactly if the folder of the batch does. -/
theorem isAbsolute_indexed (p : Path) (index : Nat) :
    (p.indexed index).isAbsolute = p.folder.isAbsolute := by
  rw [indexed_eq]
  exact isAbsolute_withFileName (not_mem_numbered p index)

/-- The numbered name is the last piece of a numbered path, and the pieces before it are the route
of the folder. -/
theorem exists_splitOn_indexed (p : Path) (index : Nat) :
    ∃ pieces, (p.indexed index).chars.splitOn '/' = pieces ++ [p.numbered index] ∧
      pieces.filter (!isVoid ·) = p.folder.route := by
  rw [indexed_eq]
  exact exists_splitOn_withFileName p (not_mem_numbered p index)

/-- **Different numbers make different paths**, whatever they are put behind.  They differ in the
last name of their routes. -/
theorem indexed_injective (p : Path) : Function.Injective p.indexed := by
  intro i j h
  have hroute : p.folder.route ++ [p.numbered i] = p.folder.route ++ [p.numbered j] := by
    rw [← route_indexed, h, route_indexed]
  exact numbered_injective p (List.singleton_inj.mp (List.append_cancel_left hroute))

/-- A numbered path has a path above it, which leads to the folder.  This is what is made before the
text is stored. -/
theorem exists_parent?_indexed (p : Path) (index : Nat) :
    ∃ above, (p.indexed index).parent? = some above ∧ above.route = p.folder.route ∧
      above.isAbsolute = p.folder.isAbsolute := by
  have hnames : (p.indexed index).names ≠ [] := by
    intro hnil
    have hroute := route_indexed p index
    rw [route_eq, hnil] at hroute
    simp at hroute
  have hparent : (p.indexed index).parent?.isSome := by simp [parent?, hnames]
  obtain ⟨above, habove⟩ := Option.isSome_iff_exists.mp hparent
  refine ⟨above, habove, ?_, ?_⟩
  · rw [route_of_parent? habove, route_indexed, List.dropLast_concat]
  · rw [isAbsolute_of_parent? habove, isAbsolute_indexed]

end Sokoban.Path
