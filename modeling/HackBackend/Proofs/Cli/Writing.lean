import HackBackend.Proofs.Cli.Creation
import HackBackend.Proofs.Cli.Production
import Mathlib.Data.List.Sort
import Mathlib.Data.String.Basic

/-!
# All or nothing

A run changes the file tree only if it succeeds. It then has written one file, at the path that it
was told or else found, and its content is the code of one run on all sources in the order of the
arguments, where a directory stands for its sources in the order of their names.
-/

namespace HackBackend.Cli

open Codegen

variable {tree : FileTree}

/-! ### Sources -/

/-- The files that an input stands for: a file for itself, and a directory for the sources in it,
which are sorted by their names, in whatever order the directory lists them. -/
inductive StandsFor (tree : FileTree) (input : String) : List String → Prop
  | file (h : tree.isDirectory input = false) : StandsFor tree input [input]
  | directory {names sorted : List String} (h : tree.isDirectory input)
      (hnames : tree.names input = .ok names)
      (hperm : sorted.Perm (names.filter fun name => extension? name = some "vm"))
      (hsorted : sorted.Pairwise (· ≤ ·)) (hne : sorted ≠ []) :
      StandsFor tree input (sorted.map (joinPath input))

/-- Sorting gives the only sorted row of the same names. -/
theorem perm_sorted_iff {names sorted : List String} :
    sorted.Perm names ∧ sorted.Pairwise (· ≤ ·) ↔
      sorted = names.mergeSort fun a b => decide (a ≤ b) := by
  have hperm := List.mergeSort_perm names fun a b => decide (a ≤ b)
  have hpairwise : (names.mergeSort fun a b => decide (a ≤ b)).Pairwise (· ≤ ·) := by
    have hle := @List.pairwise_mergeSort String (fun a b => decide (a ≤ b))
      (by simpa using fun a b c => le_trans) (by simpa using le_total) names
    simpa using hle
  constructor
  · rintro ⟨h, hsorted⟩
    exact (h.trans hperm.symm).eq_of_pairwise' hsorted hpairwise
  · rintro rfl
    exact ⟨hperm, hpairwise⟩

section

variable {input : String}

theorem expandInput_of_file (h : tree.isDirectory input = false) :
    (expandInput tree.disk input).run = .ok [input] := by
  rw [expandInput, run_ask_bind (tree.disk.isDirectory input) h]
  rfl

theorem expandInput_of_names_error (h : tree.isDirectory input) {e : FileError}
    (hnames : tree.names input = .error e) :
    (expandInput tree.disk input).run = .error (.unreadableDirectory input e) := by
  rw [expandInput, run_ask_bind (tree.disk.isDirectory input) h, if_pos rfl,
    run_ask_bind (tree.disk.names input) hnames]
  rfl

theorem expandInput_of_names (h : tree.isDirectory input) {names : List String}
    (hnames : tree.names input = .ok names) {found : List String}
    (hfound : found = names.filter fun name => extension? name = some sourceExtension) :
    (expandInput tree.disk input).run =
      if found.isEmpty then .error (.emptyDirectory input)
      else .ok ((found.mergeSort fun a b => decide (a ≤ b)).map (joinPath input)) := by
  rw [expandInput, run_ask_bind (tree.disk.isDirectory input) h, if_pos rfl,
    run_ask_bind (tree.disk.names input) hnames, hfound]
  dsimp only
  split <;> rfl

theorem expandInput_eq_ok_iff {paths : List String} :
    (expandInput tree.disk input).run = .ok paths ↔ StandsFor tree input paths := by
  constructor
  · intro h
    cases hdir : tree.isDirectory input with
    | false =>
        obtain rfl := Except.ok.inj ((expandInput_of_file hdir).symm.trans h)
        exact .file hdir
    | true =>
        cases hnames : tree.names input with
        | error e =>
            rw [expandInput_of_names_error hdir hnames] at h
            cases h
        | ok names =>
            rw [expandInput_of_names hdir hnames rfl] at h
            split at h
            · cases h
            · next hfound =>
                obtain rfl := Except.ok.inj h
                obtain ⟨hperm, hsorted⟩ := perm_sorted_iff.mpr rfl
                apply StandsFor.directory hdir hnames hperm hsorted
                intro hnil
                rw [hnil] at hperm
                exact hfound (List.isEmpty_iff.mpr hperm.nil_eq.symm)
  · rintro (hdir | @⟨names, sorted, hdir, hnames, hperm, hsorted, hne⟩)
    · exact expandInput_of_file hdir
    · rw [expandInput_of_names hdir hnames rfl, perm_sorted_iff.mp ⟨hperm, hsorted⟩]
      apply if_neg
      intro hempty
      have hnil := hperm.trans (List.Perm.of_eq (List.isEmpty_iff.mp hempty))
      exact hne hnil.eq_nil

end

/-- The inputs are taken in their order. -/
theorem expandInputs_eq_ok_iff {inputs paths : List String} :
    (expandInputs tree.disk inputs).run = .ok paths ↔
      ∃ groups, List.Forall₂ (StandsFor tree) inputs groups ∧ paths = groups.flatten := by
  induction inputs generalizing paths with
  | nil =>
      rw [expandInputs, run_pure_eq_ok_iff]
      constructor
      · rintro rfl
        exact ⟨[], .nil, rfl⟩
      · rintro ⟨groups, hgroups, rfl⟩
        cases hgroups
        rfl
  | cons input rest ih =>
      simp only [expandInputs, run_bind_eq_ok_iff, run_pure_eq_ok_iff, expandInput_eq_ok_iff, ih]
      constructor
      · rintro ⟨group, hgroup, _, ⟨groups, hgroups, rfl⟩, rfl⟩
        exact ⟨group :: groups, .cons hgroup hgroups, rfl⟩
      · rintro ⟨_, hgroups, rfl⟩
        cases hgroups with
        | cons hgroup hgroups => exact ⟨_, hgroup, _, ⟨_, hgroups, rfl⟩, rfl⟩

/-! ### The path of the output -/

/-- The path that a run has been told to write to. Without one the output is written beside the
first input, or within it if that is a directory. -/
inductive IsOutputPath (tree : FileTree) (run : Arguments) : String → Prop
  | told {path : String} (h : run.output = some path) : IsOutputPath tree run path
  | beside {first : String} {rest : List String} (h : run.output = none)
      (hinputs : run.inputs = first :: rest) (hfile : tree.isDirectory first = false) :
      IsOutputPath tree run (withExtension first "asm")
  | within {first stem : String} {rest : List String} (h : run.output = none)
      (hinputs : run.inputs = first :: rest) (hdir : tree.isDirectory first)
      (hstem : fileStem? first = some stem) :
      IsOutputPath tree run (joinPath first (stem ++ ".asm"))

theorem defaultOutput_run (tree : FileTree) (input : String) :
    (defaultOutput tree.disk input).run =
      if tree.isDirectory input then
        (unitName input).map fun name => joinPath input (name ++ "." ++ outputExtension)
      else .ok (withExtension input outputExtension) := by
  cases h : tree.isDirectory input with
  | false =>
      rw [defaultOutput, run_ask_bind (tree.disk.isDirectory input) h]
      rfl
  | true =>
      rw [defaultOutput, run_ask_bind (tree.disk.isDirectory input) h, if_pos rfl,
        if_pos rfl]
      cases unitName input <;> rfl

theorem name_in_directory (stem : String) : stem ++ "." ++ outputExtension = stem ++ ".asm" := by
  rw [String.append_assoc]
  rfl

theorem outputPath_eq_ok_iff {run : Arguments} (hinputs : run.inputs ≠ []) {path : String} :
    outputPath tree run = .ok path ↔ IsOutputPath tree run path := by
  obtain ⟨first, rest, hfirst⟩ := List.exists_cons_of_ne_nil hinputs
  have hnone (houtput : run.output = none) : outputPath tree run =
      if tree.isDirectory first then
        (unitName first).map fun name => joinPath first (name ++ "." ++ outputExtension)
      else .ok (withExtension first outputExtension) := by
    rw [outputPath, houtput, hfirst, List.headD_cons, ← defaultOutput_run]
  constructor
  · intro h
    cases houtput : run.output with
    | some told =>
        rw [outputPath, houtput] at h
        obtain rfl := Except.ok.inj h
        exact .told houtput
    | none =>
        rw [hnone houtput] at h
        cases hdir : tree.isDirectory first with
        | false =>
            rw [hdir] at h
            obtain rfl := Except.ok.inj h
            exact .beside houtput hfirst hdir
        | true =>
            rw [hdir, if_pos rfl] at h
            obtain ⟨stem, hstem, rfl⟩ := map_eq_ok_iff.mp h
            rw [name_in_directory]
            exact .within houtput hfirst hdir (unitName_eq_ok_iff.mp hstem)
  · intro h
    cases h with
    | told h => rw [outputPath, h]
    | beside h hinputs hfile =>
        obtain ⟨rfl, -⟩ := List.cons.inj (hfirst.symm.trans hinputs)
        rw [hnone h, hfile]
        rfl
    | within h hinputs hdir hstem =>
        obtain ⟨rfl, -⟩ := List.cons.inj (hfirst.symm.trans hinputs)
        rw [hnone h, hdir, if_pos rfl, unitName_eq_ok_iff.mpr hstem, Except.map, name_in_directory]

/-! ### Requests -/

/-- Only asking for the version or for help ends the reading of a command line early. -/
theorem Arguments.ne_run_of_setFlag {args : Arguments} {f : Flag} {request : Request}
    (h : args.setFlag f = .ok (.done request)) (run : Arguments) : request ≠ .run run := by
  cases f <;> simp only [Arguments.setFlag] at h
  case version | help =>
    obtain rfl := Arguments.Progress.done.inj (Except.ok.inj h)
    exact Request.noConfusion
  case verbose => cases Except.ok.inj h
  all_goals
    split at h
    · cases h
    · cases Except.ok.inj h

theorem Arguments.ne_run_of_addItems {args : Arguments} {items : List Item} {request : Request}
    (h : args.addItems items = .ok (.done request)) (run : Arguments) : request ≠ .run run := by
  fun_induction Arguments.addItems args items
  case case5 ih => exact ih h
  case case7 ih => exact ih h
  case case8 ih => exact ih h
  case case9 => exact Arguments.ne_run_of_setFlag h run
  -- in all other cases the items end with an error, or the reading goes on
  all_goals cases h

/-- A run has an input. -/
theorem Arguments.inputs_ne_nil {args run : Arguments} {rest : List String}
    (h : args.read rest = .ok (.run run)) : run.inputs ≠ [] := by
  have hrequest {args : Arguments} (h : args.request = .ok (.run run)) : run.inputs ≠ [] := by
    rw [Arguments.request] at h
    split at h
    · cases h
    · next hinputs =>
        obtain rfl := Request.run.inj (Except.ok.inj h)
        exact fun hnil => hinputs (List.isEmpty_iff.mpr hnil)
  fun_induction Arguments.read args rest
  case case1 => exact hrequest h
  case case3 => exact hrequest h
  case case5 hdone => exact absurd (Except.ok.inj h) (Arguments.ne_run_of_addItems hdone run)
  case case6 ih => exact ih h
  case case10 ih => exact ih h
  -- in all other cases the reading ends with an error
  all_goals cases h

/-! ### Runs -/

/-- The files that a run reads and the output that it makes of them. -/
structure Completes (tree : FileTree) (run : Arguments) (groups : List (List String))
    (units : List (String × Text.Source)) (output : Output) : Prop where
  /-- Each input stands for a group of files. -/
  sources : List.Forall₂ (StandsFor tree) run.inputs groups
  /-- All these files can be read and named. -/
  isUnit : List.Forall₂ (IsUnit tree) groups.flatten units
  /-- The lines are the code of one generator that has taken all units in their order. -/
  generates : generate run.options units = .ok output.lines
  verified : run.verify → ∃ program, Asm.assemble output.lines = .ok program
  path : IsOutputPath tree run output.path

theorem produce_eq_ok_iff_completes {run : Arguments} (hinputs : run.inputs ≠ [])
    {output : Output} :
    (produce tree.disk run).run = .ok output ↔
      ∃ groups units, Completes tree run groups units output := by
  rw [produce_eq_ok_iff, outputPath_eq_ok_iff hinputs]
  constructor
  · rintro ⟨⟨paths, units, hjob⟩, hpath⟩
    obtain ⟨groups, hgroups, rfl⟩ := expandInputs_eq_ok_iff.mp hjob.expands
    exact ⟨groups, units, hgroups, hjob.isUnit, hjob.generates, hjob.verified, hpath⟩
  · rintro ⟨groups, units, h⟩
    have hpaths := expandInputs_eq_ok_iff.mpr ⟨groups, h.sources, rfl⟩
    exact ⟨⟨_, units, hpaths, h.isUnit, h.generates, h.verified⟩, h.path⟩

/-- Nothing is written where no run is asked for. -/
theorem tree_of_parse_ne_run {args : List String}
    (h : ∀ run, Arguments.parse args ≠ .ok (.run run)) : (outcome tree args).tree = tree := by
  rcases hparse : Arguments.parse args with e | run | _ | _
  case ok.run => exact absurd hparse (h run)
  all_goals
    simp only [outcome, reply, hparse]
    rfl

/-- A run leaves the tree as it is unless it succeeds. It succeeds exactly if it comes to an output
whose path can be written to, and then the content of the output at that path is all that has
changed. -/
theorem outcome_all_or_nothing (tree : FileTree) (args : List String) :
    ((outcome tree args).status ≠ 0 → (outcome tree args).tree = tree) ∧
      ((∀ run, Arguments.parse args ≠ .ok (.run run)) → (outcome tree args).tree = tree) ∧
        ∀ run, Arguments.parse args = .ok (.run run) →
          ((outcome tree args).status = 0 ↔
            ∃ groups units output place, Completes tree run groups units output ∧
              tree.Writable output.path place) ∧
          ∀ groups units output place, Completes tree run groups units output →
            tree.Writable output.path place →
              FileTree.Written tree (outcome tree args).tree output.path place output.content := by
  refine ⟨fun hstatus => ?_, tree_of_parse_ne_run, fun run hparse => ?_⟩
  · by_cases hrun : ∃ run, Arguments.parse args = .ok (.run run)
    · obtain ⟨run, hparse⟩ := hrun
      exact tree_of_status_ne_zero hparse hstatus
    · exact tree_of_parse_ne_run (not_exists.mp hrun)
  · have hinputs : run.inputs ≠ [] := Arguments.inputs_ne_nil hparse
    have hwritten {groups units output place} (h : Completes tree run groups units output)
        (hplace : tree.Writable output.path place) :
        outcome tree args = { tree := tree.put place (.file output.content) } :=
      outcome_of_create hparse ((produce_eq_ok_iff_completes hinputs).mpr ⟨groups, units, h⟩)
        (FileTree.create_eq_ok_iff.mpr ⟨place, hplace, rfl⟩)
    refine ⟨⟨fun hstatus => ?_, ?_⟩, fun groups units output place h hplace => ?_⟩
    · obtain ⟨output, hproduce, hcreate⟩ := exists_output_of_status hparse hstatus
      obtain ⟨groups, units, h⟩ := (produce_eq_ok_iff_completes hinputs).mp hproduce
      obtain ⟨place, hplace, -⟩ := FileTree.create_eq_ok_iff.mp hcreate
      exact ⟨groups, units, output, place, h, hplace⟩
    · rintro ⟨groups, units, output, place, h, hplace⟩
      rw [hwritten h hplace]
    · rw [hwritten h hplace]
      exact FileTree.written_put hplace output.content

/-- A source, and the sources of a directory that lists them in another order. -/
def firstSource : Text.Source :=
  .ofString "function A.f 0\n"

def secondSource : Text.Source :=
  .ofString "push constant 7\n"

/-- A directory of two sources, and the output of an earlier run. -/
def rebuiltProgram : FileTree :=
  ((({} : FileTree).addFile ["d", "A.vm"] firstSource.bytes).addFile ["d", "B.vm"]
    secondSource.bytes).addFile ["old.asm"] "0;JMP\n".toUTF8

theorem standsFor_rebuiltProgram : StandsFor rebuiltProgram "d" ["d/A.vm", "d/B.vm"] := by
  have hnames : rebuiltProgram.names "d" = .ok ["B.vm", "A.vm"] := by decide +kernel
  exact @StandsFor.directory rebuiltProgram "d" _ ["A.vm", "B.vm"] (by decide +kernel) hnames
    (by decide +kernel) (by decide +kernel) (by decide)

theorem exists_completes_rebuiltProgram :
    ∃ lines, Completes rebuiltProgram { inputs := ["d"], output := some "old.asm", verify := true }
      [["d/A.vm", "d/B.vm"]] [("A", firstSource), ("B", secondSource)] ⟨"old.asm", lines⟩ := by
  have hbuilt : (build {} [("A", firstSource), ("B", secondSource)]).toOption.isSome := by
    decide +kernel
  obtain ⟨program, hprogram⟩ := exists_ok_of_isSome hbuilt
  obtain ⟨lines, hlines, hassemble⟩ := bind_eq_ok_iff.mp hprogram
  have hfirst : IsUnit rebuiltProgram "d/A.vm" ("A", firstSource) := ⟨by decide +kernel, rfl⟩
  have hsecond : IsUnit rebuiltProgram "d/B.vm" ("B", secondSource) := ⟨by decide +kernel, rfl⟩
  exact ⟨lines, .cons standsFor_rebuiltProgram .nil, .cons hfirst (.cons hsecond .nil), hlines,
    fun _ => ⟨program, hassemble⟩, .told rfl⟩

/-- The old output is replaced, unless an input is missing or only help is asked for. -/
theorem outcome_all_or_nothing_rebuilt :
    ((outcome rebuiltProgram ["d", "--verify", "-oold.asm"]).status = 0 ∧
      ∃ lines, FileTree.Written rebuiltProgram
        (outcome rebuiltProgram ["d", "--verify", "-oold.asm"]).tree "old.asm" ["old.asm"]
        (Output.content ⟨"old.asm", lines⟩)) ∧
      ((outcome rebuiltProgram ["d/A.vm", "C.vm", "-oold.asm"]).status ≠ 0 ∧
        (outcome rebuiltProgram ["d/A.vm", "C.vm", "-oold.asm"]).tree = rebuiltProgram) ∧
      (outcome rebuiltProgram ["d", "--help"]).tree = rebuiltProgram := by
  refine ⟨?rebuilt, ?missing, ?help⟩
  case rebuilt =>
    have hparse : Arguments.parse ["d", "--verify", "-oold.asm"] =
        .ok (.run { inputs := ["d"], output := some "old.asm", verify := true }) := by
      decide +kernel
    have hplace : rebuiltProgram.Writable "old.asm" ["old.asm"] :=
      ⟨by decide +kernel, by rintro ⟨⟩⟩
    obtain ⟨lines, h⟩ := exists_completes_rebuiltProgram
    obtain ⟨hdone, hwritten⟩ :=
      (outcome_all_or_nothing rebuiltProgram ["d", "--verify", "-oold.asm"]).2.2 _ hparse
    exact ⟨hdone.mpr ⟨_, _, _, _, h, hplace⟩, lines, hwritten _ _ _ _ h hplace⟩
  case missing =>
    have hstatus : (outcome rebuiltProgram ["d/A.vm", "C.vm", "-oold.asm"]).status ≠ 0 := by
      decide +kernel
    exact ⟨hstatus,
      (outcome_all_or_nothing rebuiltProgram ["d/A.vm", "C.vm", "-oold.asm"]).1 hstatus⟩
  case help =>
    have hhelp : Arguments.parse ["d", "--help"] = .ok .help := by decide +kernel
    apply (outcome_all_or_nothing rebuiltProgram ["d", "--help"]).2.1
    intro run hrun
    rw [hhelp] at hrun
    cases hrun

end HackBackend.Cli
