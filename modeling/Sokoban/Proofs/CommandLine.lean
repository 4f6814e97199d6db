import Sokoban.CommandLine
import Sokoban.Proofs.Decimal.Range
import Sokoban.Proofs.Document.Parsing
import Sokoban.Proofs.Isolation

/-! # How a run ends

A run with options that are in order ends with success or without.  For success five things are
needed: the weights can be read, `mu` is in range, the document is a text, it has levels, and all of
them are placed (`exitCode_run`).  The first four are settled before anything is written, so a run
that fails for one of them leaves the output and the files alone.

The weights are read in every mode, also where they are not used, so a text that is no map is an
error anyway; `mu` counts with noise only.  Reading the document may use up the input, which is the
one change that such a run makes.

That all levels are placed (`Options.Placed`) is said of the files and the output themselves: each
text is read under its own path at the end, or stands at the end of the output.  It is proved to be
the same as that no failure is reported (`failures_eq_nil_iff`).
-/

namespace Sokoban.CommandLine

open Placement (Stored machineAfter)

/-- Whether the weights can be read, if any are given. -/
def Options.HasWeights (o : Options) : Prop :=
  ∀ text, o.probabilities? = some text → ∃ map, ProbabilityMap.ofText text.toList = .ok map

/-- Whether `mu` is a probability, if it is given and there is noise. -/
def Options.HasMu (o : Options) : Prop :=
  o.mode = .noise → ∀ mu, o.mu? = some mu → 0 ≤ mu.value ∧ mu.value ≤ 1

/-- The bytes of the document: those of a file or of the input. -/
def Options.document (o : Options) (m : Machine) : Except FileFault ByteArray :=
  match o.input? with
  | some path => m.files.read path
  | none => .ok m.input

/-- Whether the document is this text, in the encoding of texts as bytes. -/
def Options.Reads (o : Options) (m : Machine) (text : String) : Prop :=
  o.document m = .ok text.toUTF8

/-- The machine when the document has been read.  The input is used up, a file is not. -/
def Options.machineRead (o : Options) (m : Machine) : Machine :=
  match o.input? with
  | some _ => m
  | none => { m with input := ByteArray.empty }

/-- Whether every level has been placed: the only one on the output, or each in a file of its own. -/
def Options.Placed (o : Options) (c : Configuration) (levels : List Level) (m after : Machine) :
    Prop :=
  match o.output? with
  | some base => ∀ i l, levels[i]? = some l → ∃ g, generate l c = .ok g ∧
      Stored o.overwriting (base.indexed i) g.text
        (machineAfter levels c base o.overwriting m i).files
        (machineAfter levels c base o.overwriting m (i + 1)).files ∧
      after.files.read (base.indexed i) = .ok g.text.toUTF8
  | none => ∃ l g, levels = [l] ∧ generate l c = .ok g ∧ m.outputFault? = none ∧
      after.output = m.output ++ g.text

/-- What has to be in order before any level is placed. -/
structure Options.Ready (o : Options) (m : Machine) (text : String) (levels : List Level) : Prop where
  weights : o.HasWeights
  mu : o.HasMu
  reads : o.Reads m text
  parse_eq : Document.parse text.toList = .ok levels

variable {o : Options} {c : Configuration} {levels : List Level} {m : Machine} {text : String}
  {arguments : List String}

/-! ## The configuration -/

/-- There is a map if no weights are given, or if those that are can be read. -/
theorem exists_map_iff : (∃ map, o.map = .ok map) ↔ o.HasWeights := by
  unfold Options.map Options.HasWeights
  cases o.probabilities? with
  | none => simp
  | some text => simp

/-- `mu` alone decides whether there is noise; the residual may be anything.  A success probability
that is not given is in order, for the model then leaves it open. -/
theorem exists_make_iff {mu? : Option Decimal} {residual : Residual} :
    (∃ noise, Noise.make mu? residual = .ok noise) ↔
      ∀ mu, mu? = some mu → 0 ≤ mu.value ∧ mu.value ≤ 1 := by
  cases mu? with
  | none => simp [Noise.make]
  | some mu =>
      have hrange : (mu.lt .zero || Decimal.one.lt mu) = true ↔ ¬(0 ≤ mu.value ∧ mu.value ≤ 1) := by
        rw [Bool.or_eq_true, Decimal.lt_iff, Decimal.lt_iff, Decimal.value_zero, Decimal.value_one,
          not_and_or, not_le, not_le]
      simp only [Option.some.injEq, forall_eq']
      rw [Noise.make]
      by_cases h : 0 ≤ mu.value ∧ mu.value ≤ 1
      · rw [if_neg (by rw [hrange]; exact not_not.mpr h)]
        exact iff_of_true ⟨_, rfl⟩ h
      · rw [if_pos (hrange.mpr h)]
        exact iff_of_false (fun hmade => nomatch hmade.choose_spec) h

/-- There is a mode for a map if `mu` is in range, or is not used.  Only with noise is it looked at,
so a `mu` out of range does no harm in the other modes. -/
theorem exists_modeWith_iff (map : ProbabilityMap) :
    (∃ mode, o.modeWith map = .ok mode) ↔ o.HasMu := by
  unfold Options.modeWith Options.HasMu
  cases o.mode with
  | fixed => exact iff_of_true ⟨_, rfl⟩ nofun
  | nondeterministic => exact iff_of_true ⟨_, rfl⟩ nofun
  | noise =>
      simp only [forall_const]
      rw [← exists_make_iff]
      constructor
      · intro h
        obtain ⟨mode, hmode⟩ := h
        obtain ⟨noise, hnoise, -⟩ := map_eq_ok_iff.mp hmode
        exact ⟨noise, hnoise⟩
      · intro h
        obtain ⟨noise, hnoise⟩ := h
        exact ⟨.noise noise, map_eq_ok_iff.mpr ⟨noise, hnoise, rfl⟩⟩

/-- **There is a configuration** if the weights can be read, whatever the mode, and `mu` is in
range. -/
theorem exists_configuration_iff :
    (∃ c, o.configuration.1 = .ok c) ↔ o.HasWeights ∧ o.HasMu := by
  rw [← exists_map_iff]
  unfold Options.configuration
  cases o.map with
  | error cause => simp
  | ok map =>
      rw [← exists_modeWith_iff map]
      dsimp only
      cases o.modeWith map with
      | error cause => simp
      | ok mode => simp

/-! ## The document -/

/-- Bytes are decoded to a text exactly if they are its encoding.  So a text is told by its bytes,
and bytes that encode none are refused. -/
theorem fromUTF8?_eq_some_iff {bytes : ByteArray} :
    String.fromUTF8? bytes = some text ↔ bytes = text.toUTF8 := by
  unfold String.fromUTF8?
  constructor
  · intro h
    split at h
    next => exact Option.some.inj h ▸ rfl
    next => cases h
  · rintro rfl
    exact dif_pos text.isValidUTF8

/-- A document is one text, for an encoding of texts is decoded in one way. -/
theorem Options.Reads.unique {other : String} (h : o.Reads m text) (h' : o.Reads m other) :
    text = other :=
  String.toByteArray_inj.mp (Except.ok.inj (h.symm.trans h'))

/-- The text that bytes encode. -/
def decoded (bytes : ByteArray) : Except FileFault String :=
  match String.fromUTF8? bytes with
  | some text => .ok text
  | none => .error .notText

/-- Reading the document takes its bytes and decodes them, and changes the machine at its input
only. -/
theorem readText_run (o : Options) (m : Machine) :
    (readText o : StateM Machine (Except FileFault String)) m =
      ((o.document m).bind decoded, o.machineRead m) := by
  have hdecoded : ∀ bytes (m : Machine),
      (match String.fromUTF8? bytes with
        | some text => pure (.ok text)
        | none => pure (.error .notText) : StateM Machine (Except FileFault String)) m =
        (decoded bytes, m) := by
    intro bytes m
    rw [decoded]
    cases String.fromUTF8? bytes <;> rfl
  unfold readText Options.document Options.machineRead
  cases o.input? with
  | none => exact hdecoded m.input _
  | some path =>
      have hfile : (Host.readFile path : StateM Machine _) m = (m.files.read path, m) := rfl
      dsimp only
      rw [FileTree.bind_run, hfile]
      cases m.files.read path with
      | error fault => rfl
      | ok bytes => exact hdecoded bytes m

/-- **Reading the document** gives the text that it is, if it is one, and fails otherwise: where the
file cannot be read, or where its bytes are no text. -/
theorem readText_cases (o : Options) (m : Machine) :
    (∃ text, o.Reads m text ∧
        (readText o : StateM Machine (Except FileFault String)) m = (.ok text, o.machineRead m)) ∨
      ∃ fault, (∀ text, ¬o.Reads m text) ∧
        (readText o : StateM Machine (Except FileFault String)) m =
          (.error fault, o.machineRead m) := by
  rw [readText_run]
  unfold Options.Reads
  cases o.document m with
  | error fault => exact .inr ⟨fault, nofun, rfl⟩
  | ok bytes =>
      rw [Except.bind, decoded]
      cases htext : String.fromUTF8? bytes with
      | none =>
          refine .inr ⟨.notText, fun text hbytes => ?_, rfl⟩
          rw [fromUTF8?_eq_some_iff.mpr (Except.ok.inj hbytes)] at htext
          cases htext
      | some text => exact .inl ⟨text, congrArg _ (fromUTF8?_eq_some_iff.mp htext), rfl⟩

/-- Reading writes to no file. -/
theorem files_machineRead (o : Options) (m : Machine) : (o.machineRead m).files = m.files := by
  unfold Options.machineRead
  cases o.input? <;> rfl

theorem output_machineRead (o : Options) (m : Machine) : (o.machineRead m).output = m.output := by
  unfold Options.machineRead
  cases o.input? <;> rfl

/-! ## The levels -/

/-- **Placing in files** has no failures if each text is stored in its turn, and then all of them
are there at the end. -/
theorem failures_eq_nil_of_files (base : Path) (policy : Overwriting) (m : Machine) :
    let placed := (Placement.place levels c (some base) policy : StateM Machine Placement.Report) m
    placed.1.failures = [] ↔ ∀ i l, levels[i]? = some l → ∃ g, generate l c = .ok g ∧
      Stored policy (base.indexed i) g.text (machineAfter levels c base policy m i).files
        (machineAfter levels c base policy m (i + 1)).files ∧
      placed.2.files.read (base.indexed i) = .ok g.text.toUTF8 := by
  have hturns := Placement.turns_machineAfter levels c base policy m
  obtain ⟨hfailures, hmachine⟩ := Placement.place_eq levels c base policy m
  dsimp only
  rw [hfailures, hmachine, List.filterMap_eq_nil_iff]
  constructor
  · intro hall i l hl
    have hlt : i < levels.length := (List.getElem?_eq_some_iff.mp hl).1
    have hfate := hall i (List.mem_range.mpr hlt)
    obtain ⟨g, hgenerate, hstored⟩ := (hturns i l hl).eq_none_iff.mp hfate
    obtain ⟨g', hgenerate', hread⟩ := hturns.read_eq hl hfate
    obtain rfl : g' = g := Except.ok.inj (hgenerate'.symm.trans hgenerate)
    exact ⟨g', hgenerate, hstored, hread⟩
  · intro hall i hi
    have hl := List.getElem?_eq_getElem (List.mem_range.mp hi)
    obtain ⟨g, hgenerate, hstored, -⟩ := hall i _ hl
    exact (hturns i _ hl).eq_none_iff.mpr ⟨g, hgenerate, hstored⟩

/-- Printing a level fails if it has no model or if the output takes nothing; otherwise its text
stands at the end of the output.  No file is touched. -/
theorem printLevel_spec (c : Configuration) (l : Level) (m : Machine) :
    let printed := (Placement.printLevel c l : StateM Machine Placement.Report) m
    printed.1.failures = [] ↔ ∃ g, generate l c = .ok g ∧ m.outputFault? = none ∧
      printed.2.output = m.output ++ g.text := by
  rw [Placement.printLevel]
  cases hgenerate : generate l c with
  | error cause => exact iff_of_false nofun fun h => nomatch h.choose_spec.1
  | ok g =>
      have hprint : (Host.print g.text : StateM Machine _) m = m.print g.text := rfl
      dsimp only
      rw [FileTree.bind_run, hprint, Machine.print]
      cases hfault : m.outputFault? with
      | none => exact iff_of_true rfl ⟨g, rfl, rfl, rfl⟩
      | some fault => exact iff_of_false nofun fun h => nomatch h.choose_spec.2.1

/-- **Placing on the output** has no failures if there is one level, and the output takes it.  Any
other number of levels is one failure, and nothing is printed. -/
theorem failures_eq_nil_of_output (policy : Overwriting) (m : Machine) :
    let placed := (Placement.place levels c none policy : StateM Machine Placement.Report) m
    placed.1.failures = [] ↔ ∃ l g, levels = [l] ∧ generate l c = .ok g ∧ m.outputFault? = none ∧
      placed.2.output = m.output ++ g.text := by
  by_cases hone : ∃ l, levels = [l]
  · obtain ⟨l, rfl⟩ := hone
    apply (printLevel_spec c l m).trans
    constructor
    · intro h
      obtain ⟨g, hg⟩ := h
      exact ⟨l, g, rfl, hg⟩
    · intro h
      obtain ⟨l', g, hl, hg⟩ := h
      obtain rfl := List.singleton_inj.mp hl
      exact ⟨g, hg⟩
  · have hlength : levels.length ≠ 1 := fun h => hone (List.length_eq_one_iff.mp h)
    dsimp only
    rw [Placement.place_ambiguous hlength]
    refine iff_of_false nofun fun h => hone ?_
    obtain ⟨l, -, hl, -⟩ := h
    exact ⟨l, hl⟩

/-- **All levels are placed** if there are no failures, and otherwise not all are.  The report of
the program and the state of the machine therefore say the same. -/
theorem failures_eq_nil_iff (o : Options) (c : Configuration) (levels : List Level) (m : Machine) :
    let placed := (Placement.place levels c o.output? o.overwriting :
      StateM Machine Placement.Report) m
    placed.1.failures = [] ↔ o.Placed c levels m placed.2 := by
  unfold Options.Placed
  cases o.output? with
  | none => exact failures_eq_nil_of_output o.overwriting m
  | some base => exact failures_eq_nil_of_files base o.overwriting m

/-! ## The whole run -/

/-- Weights that cannot be read end the run before anything is read or written. -/
theorem runOptions_of_error {cause : ProbabilityError} (h : o.configuration.1 = .error cause)
    (m : Machine) :
    ∃ log, (runOptions o : StateM Machine Outcome) m = (.finished false log, m) := by
  have hpair : o.configuration = (.error cause, o.configuration.2) := Prod.ext h rfl
  rw [runOptions, hpair]
  exact ⟨_, rfl⟩

/-- With a configuration the document is read, and its levels are placed if it has any.  If it
cannot be read, or has none, the run ends there and has changed nothing but its input. -/
theorem runOptions_of_ok (h : o.configuration.1 = .ok c) (m : Machine) :
    (∃ log, (∀ text levels, o.Reads m text → Document.parse text.toList ≠ .ok levels) ∧
        (runOptions o : StateM Machine Outcome) m = (.finished false log, o.machineRead m)) ∨
      ∃ text levels log, o.Reads m text ∧ Document.parse text.toList = .ok levels ∧
        (runOptions o : StateM Machine Outcome) m =
          (placeAll o c log levels : StateM Machine Outcome) (o.machineRead m) := by
  have hpair : o.configuration = (.ok c, o.configuration.2) := Prod.ext h rfl
  rw [runOptions, hpair]
  dsimp only
  rw [FileTree.bind_run]
  rcases readText_cases o m with ⟨text, htext, hrun⟩ | ⟨fault, hnone, hrun⟩
  · rw [hrun]
    dsimp only
    cases hparse : (Document.read text.toList).result with
    | error cause =>
        refine .inl ⟨_, fun other levels hother hlevels => ?_, rfl⟩
        rw [← htext.unique hother, Document.parse, hparse] at hlevels
        cases hlevels
    | ok levels => exact .inr ⟨text, levels, _, htext, hparse, rfl⟩
  · rw [hrun]
    exact .inl ⟨_, fun text _ htext => absurd htext (hnone text), rfl⟩

/-- Placing all levels is placing them as a batch, and the outcome is whether there are failures. -/
theorem placeAll_run (o : Options) (c : Configuration) (log : List Log.Record)
    (levels : List Level) (m : Machine) :
    let placed := (Placement.place levels c o.output? o.overwriting :
      StateM Machine Placement.Report) m
    ∃ log', (placeAll o c log levels : StateM Machine Outcome) m =
      (.finished placed.1.failures.isEmpty log', placed.2) :=
  ⟨_, rfl⟩

/-- A run that finishes has one of two exit codes. -/
theorem exitCode_finished (success : Bool) (log : List Log.Record) :
    (Outcome.finished success log).exitCode = 0 ∨ (Outcome.finished success log).exitCode = 1 := by
  cases success
  · exact .inr rfl
  · exact .inl rfl

/-- The exit code is nought for success. -/
theorem exitCode_finished_eq_zero_iff {success : Bool} {log : List Log.Record} :
    (Outcome.finished success log).exitCode = 0 ↔ success := by
  cases success <;> simp [Outcome.exitCode]

/-- **The exit code** of a run with options that are in order is nought if everything is ready and
all levels are placed, and one otherwise.  If something is not ready, nothing is written: neither to
the output nor to a file, not even the model of a level that stands before the fault. -/
theorem exitCode_run (h : Options.ofArguments arguments = .ok o) (m : Machine) :
    let ran := (run arguments : StateM Machine Outcome) m
    (ran.1.exitCode = 0 ∨ ran.1.exitCode = 1) ∧
      (ran.1.exitCode = 0 ↔ ∃ text levels c, o.Ready m text levels ∧ levels ≠ [] ∧
        o.configuration.1 = .ok c ∧ o.Placed c levels (o.machineRead m) ran.2) ∧
      ((∀ text levels, ¬o.Ready m text levels) →
        ran.1.exitCode = 1 ∧ ran.2.output = m.output ∧ ran.2.files = m.files) := by
  rw [run, h]
  dsimp only
  cases hconfiguration : o.configuration.1 with
  | error cause =>
      obtain ⟨log, hrun⟩ := runOptions_of_error hconfiguration m
      rw [hrun]
      refine ⟨.inr rfl, iff_of_false nofun fun hready => ?_, fun _ => ⟨rfl, rfl, rfl⟩⟩
      obtain ⟨_, _, c, _, _, hc, _⟩ := hready
      cases hc
  | ok c =>
      obtain ⟨hweights, hmu⟩ := exists_configuration_iff.mp ⟨c, hconfiguration⟩
      rcases runOptions_of_ok hconfiguration m with
        ⟨log, hnone, hrun⟩ | ⟨text, levels, log, hreads, hparse, hrun⟩
      · rw [hrun]
        refine ⟨.inr rfl, iff_of_false nofun fun hready => ?_,
          fun _ => ⟨rfl, output_machineRead o m, files_machineRead o m⟩⟩
        obtain ⟨text, levels, -, hready, -⟩ := hready
        exact hnone text levels hready.reads hready.parse_eq
      · have hready : o.Ready m text levels := ⟨hweights, hmu, hreads, hparse⟩
        obtain ⟨log', hplaceAll⟩ := placeAll_run o c log levels (o.machineRead m)
        have hplaced := failures_eq_nil_iff o c levels (o.machineRead m)
        rw [hrun, hplaceAll]
        refine ⟨?_, ?_, fun hnone => absurd hready (hnone text levels)⟩
        · exact exitCode_finished _ _
        · apply (exitCode_finished_eq_zero_iff.trans (List.isEmpty_iff.trans hplaced)).trans
          constructor
          · intro hall
            exact ⟨text, levels, c, hready, Document.ne_nil_of_parse hparse, rfl, hall⟩
          · intro hall
            obtain ⟨text', levels', c', hready', -, hc, hall⟩ := hall
            -- The machine settles the text, and this the levels; the options settle the
            -- configuration.
            obtain rfl := hreads.unique hready'.reads
            obtain rfl := Except.ok.inj (hparse.symm.trans hready'.parse_eq)
            obtain rfl := Except.ok.inj hc
            exact hall

/-- A machine with a document of two levels. -/
def twoLevels : Machine where
  files := ⟨[], [(["levels".toList], .file "#pb.#\n\n#p*#\n".toUTF8)]⟩

/-- Two levels are read from a file and placed in files, in a folder that is made for them. -/
theorem exitCode_run_two :
    let arguments := ["-i", "levels", "--output=out/m", "-xu=1,r=3", "--strict"]
    ∃ o, Options.ofArguments arguments = .ok o ∧
      ((run arguments : StateM Machine Outcome) twoLevels).1.exitCode = 0 ∧
      ∃ text levels c, o.Ready twoLevels text levels ∧ levels ≠ [] ∧ o.configuration.1 = .ok c ∧
        o.Placed c levels (o.machineRead twoLevels)
          ((run arguments : StateM Machine Outcome) twoLevels).2 := by
  have hsome : (Options.ofArguments ["-i", "levels", "--output=out/m", "-xu=1,r=3",
      "--strict"]).toOption.any fun _ => true := by decide +kernel
  obtain ⟨o, harguments, -⟩ := exists_ok_of_any hsome
  have hexit : ((run ["-i", "levels", "--output=out/m", "-xu=1,r=3", "--strict"] :
      StateM Machine Outcome) twoLevels).1.exitCode = 0 := by decide +kernel
  exact ⟨o, harguments, hexit, (exitCode_run harguments twoLevels).2.1.mp hexit⟩

end Sokoban.CommandLine
