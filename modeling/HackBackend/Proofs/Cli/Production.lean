import HackBackend.Cli.Outcome
import HackBackend.Proofs.Codegen.Translation

/-!
# What a job that succeeds has done

On a file tree a job is a chain of steps that may fail. It produces an output exactly if its inputs
stand for some files, each of these can be read and has a name, code can be generated for all of
them as units, and the code can be assembled if this is asked for.
-/

namespace HackBackend.Cli

open Codegen

/-! ### Chains of steps -/

section

variable {α β : Type}

theorem run_bind (x : ExceptT Failure Id α) (f : α → ExceptT Failure Id β) :
    (x >>= f).run = (x.run.run >>= fun a => (f a).run.run) := by
  cases x <;> rfl

theorem run_bind_of_ok {x : ExceptT Failure Id α} {a : α} (h : x.run = .ok a)
    (f : α → ExceptT Failure Id β) : (x >>= f).run = (f a).run := by
  rw [run_bind, h]
  rfl

/-- A question about files is answered, and then the job goes on. -/
theorem run_ask_bind {m : Type → Type} [Monad m] [LawfulMonad m] {a : α} (answer : m α)
    (h : answer = pure a) (f : α → ExceptT Failure m β) :
    ((liftM answer : ExceptT Failure m α) >>= f).run = (f a).run := by
  subst h
  exact (ExceptT.run_bind_lift (pure a) f).trans (pure_bind _ _)

theorem run_bind_eq_ok_iff {x : ExceptT Failure Id α} {f : α → ExceptT Failure Id β} {b : β} :
    (x >>= f).run = .ok b ↔ ∃ a, x.run = .ok a ∧ (f a).run = .ok b := by
  rw [run_bind]
  exact bind_eq_ok_iff

theorem run_pure_eq_ok_iff {a b : α} : (pure a : ExceptT Failure Id α).run = .ok b ↔ a = b := by
  show Except.ok a = .ok b ↔ _
  rw [Except.ok.injEq]

theorem run_throw_ne_ok {f : Failure} {a : α} :
    (throw f : ExceptT Failure Id α).run ≠ .ok a := by
  intro h
  cases h

end

/-- A file as a unit, which is named by the stem of its path. -/
structure IsUnit (tree : FileTree) (path : String) (unit : String × Text.Source) : Prop where
  stem : fileStem? path = some unit.1
  source : tree.read path = .ok unit.2

variable {tree : FileTree}

theorem unitName_eq_ok_iff {path name : String} :
    unitName path = .ok name ↔ fileStem? path = some name := by
  rw [unitName]
  cases fileStem? path <;> simp

theorem isUnit_iff {path name : String} {source : Text.Source} :
    IsUnit tree path (name, source) ↔ tree.read path = .ok source ∧ unitName path = .ok name := by
  rw [unitName_eq_ok_iff]
  exact ⟨fun h => ⟨h.source, h.stem⟩, fun h => ⟨h.2, h.1⟩⟩

/-- The first file is taken as a unit, and then the others. -/
theorem generateFiles_cons_eq_ok_iff {g g' : Generator} {path : String} {rest : List String} :
    (generateFiles tree.disk g (path :: rest)).run = .ok g' ↔
      ∃ name source, IsUnit tree path (name, source) ∧
        ∃ next, g.takeUnit name source = (.ok (), next) ∧
          (generateFiles tree.disk next rest).run = .ok g' := by
  constructor
  · intro h
    rw [generateFiles, run_bind_eq_ok_iff] at h
    obtain ⟨answer, hanswer, h⟩ := h
    have hread : tree.read path = answer := Except.ok.inj hanswer
    obtain e | source := answer
    · exact absurd h run_throw_ne_ok
    · obtain ⟨name, hname, h⟩ := run_bind_eq_ok_iff.mp h
      rcases htake : g.takeUnit name source with ⟨e | ⟨⟩, next⟩
      · simp only [htake] at h
        exact absurd h run_throw_ne_ok
      · simp only [htake] at h
        exact ⟨name, source, isUnit_iff.mpr ⟨hread, hname⟩, next, htake, h⟩
  · rintro ⟨name, source, hunit, next, htake, h⟩
    obtain ⟨hread, hname⟩ := isUnit_iff.mp hunit
    rw [generateFiles, run_bind_eq_ok_iff]
    refine ⟨_, congrArg Except.ok hread, run_bind_eq_ok_iff.mpr ⟨name, hname, ?_⟩⟩
    simp only [htake]
    exact h

/-- Files are taken as units one after another. -/
theorem generateFiles_eq_ok_iff {g g' : Generator} {paths : List String} :
    (generateFiles tree.disk g paths).run = .ok g' ↔
      ∃ units, List.Forall₂ (IsUnit tree) paths units ∧ g.takeUnits units = (.ok (), g') := by
  induction paths generalizing g with
  | nil =>
      rw [generateFiles, run_pure_eq_ok_iff]
      constructor
      · rintro rfl
        exact ⟨[], .nil, rfl⟩
      · rintro ⟨units, hunits, htake⟩
        cases hunits
        exact (Prod.ext_iff.mp htake).2
  | cons path rest ih =>
      rw [generateFiles_cons_eq_ok_iff]
      constructor
      · rintro ⟨name, source, hunit, next, htake, h⟩
        obtain ⟨units, hunits, hrest⟩ := ih.mp h
        refine ⟨(name, source) :: units, .cons hunit hunits, ?_⟩
        rw [Generator.takeUnits, htake]
        exact hrest
      · rintro ⟨units, hunits, htake⟩
        cases hunits with
        | @cons _ unit _ units hunit hrest =>
            obtain ⟨name, source⟩ := unit
            rw [Generator.takeUnits] at htake
            rcases hfirst : g.takeUnit name source with ⟨e | ⟨⟩, next⟩
            · simp [hfirst] at htake
            · simp only [hfirst] at htake
              exact ⟨name, source, hunit, next, hfirst, ih.mpr ⟨units, hrest, htake⟩⟩

/-! ### Jobs -/

/-- The files that the inputs of a job stand for, as units, and the code that is generated for
them. -/
structure IsJob (tree : FileTree) (args : Arguments) (paths : List String)
    (units : List (String × Text.Source)) (lines : List String) : Prop where
  expands : (expandInputs tree.disk args.inputs).run = .ok paths
  isUnit : List.Forall₂ (IsUnit tree) paths units
  generates : generate args.options units = .ok lines
  verified : args.verify → ∃ program, Asm.assemble lines = .ok program

/-- The path that a job is told to write to, or else finds next to or within its first input. -/
def outputPath (tree : FileTree) (args : Arguments) : Except Failure String :=
  match args.output with
  | some path => .ok path
  | none => (defaultOutput tree.disk (args.inputs.headD "")).run

/-- The last steps of a job: its code is verified if this is asked for, and gets a path. -/
theorem produce_of_generateFiles {args : Arguments} {output : Output} {paths : List String}
    {g : Generator} (hpaths : (expandInputs tree.disk args.inputs).run = .ok paths)
    (hg : (generateFiles tree.disk (.new args.options) paths).run = .ok g) :
    (produce tree.disk args).run = .ok output ↔
      (args.verify → ∃ program, Asm.assemble g.finish = .ok program) ∧
        outputPath tree args = .ok output.path ∧ output.lines = g.finish := by
  have hend {path : ExceptT Failure Id String} :
      (path >>= fun path => pure ⟨path, g.finish⟩).run = .ok output ↔
        path.run = .ok output.path ∧ output.lines = g.finish := by
    rw [run_bind_eq_ok_iff]
    constructor
    · rintro ⟨found, hfound, h⟩
      rw [← run_pure_eq_ok_iff.mp h]
      exact ⟨hfound, rfl⟩
    · rintro ⟨hfound, hlines⟩
      exact ⟨output.path, hfound, run_pure_eq_ok_iff.mpr (by rw [← hlines])⟩
  rw [produce, run_bind_of_ok hpaths, run_bind_of_ok hg, outputPath]
  cases hverify : args.verify with
  | false =>
      simp only [Bool.false_eq_true, if_false, false_implies, true_and]
      cases args.output with
      | none => exact hend
      | some path => exact hend
  | true =>
      simp only [if_true, true_implies]
      cases Asm.assemble g.finish with
      | error e =>
          constructor
          · exact fun h => absurd h run_throw_ne_ok
          · rintro ⟨⟨_, ⟨⟩⟩, -⟩
      | ok program =>
          simp only [Except.ok.injEq, exists_eq', true_and]
          cases args.output with
          | none => exact hend
          | some path => exact hend

/-- What a job has done that produces an output, and all that it takes to produce one. -/
theorem produce_eq_ok_iff {args : Arguments} {output : Output} :
    (produce tree.disk args).run = .ok output ↔
      (∃ paths units, IsJob tree args paths units output.lines) ∧
        outputPath tree args = .ok output.path := by
  constructor
  · intro h
    have hsteps := h
    rw [produce] at hsteps
    obtain ⟨paths, hpaths, hsteps⟩ := run_bind_eq_ok_iff.mp hsteps
    obtain ⟨g, hg, -⟩ := run_bind_eq_ok_iff.mp hsteps
    obtain ⟨hverified, hpath, hlines⟩ := (produce_of_generateFiles hpaths hg).mp h
    obtain ⟨units, hunits, htake⟩ := generateFiles_eq_ok_iff.mp hg
    have hcode : generate args.options units = .ok output.lines :=
      generate_eq_ok_iff.mpr ⟨g, htake, hlines.symm⟩
    exact ⟨⟨paths, units, hpaths, hunits, hcode, hlines ▸ hverified⟩, hpath⟩
  · rintro ⟨⟨paths, units, hpaths, hunits, hcode, hverified⟩, hpath⟩
    obtain ⟨g, htake, hlines⟩ := generate_eq_ok_iff.mp hcode
    have hg := generateFiles_eq_ok_iff.mpr ⟨units, hunits, htake⟩
    exact (produce_of_generateFiles hpaths hg).mpr ⟨hlines ▸ hverified, hpath, hlines.symm⟩

theorem exists_isJob_of_produce {args : Arguments} {output : Output}
    (h : (produce tree.disk args).run = .ok output) :
    ∃ paths units, IsJob tree args paths units output.lines :=
  (produce_eq_ok_iff.mp h).1

section

variable {args : List String} {run : Arguments}
variable (hrequest : Arguments.parse args = .ok (.run run))

include hrequest

/-- A job that fails leaves the tree as it was. -/
theorem outcome_of_produce_error {f : Failure}
    (h : (produce tree.disk run).run.run = .error f) : outcome tree args = .failed tree f := by
  have hreply : (reply tree.disk args).run = .failed f := by
    simp only [reply, hrequest, Id.run_bind, h]
    rfl
  simp only [outcome, hreply]

theorem outcome_of_produce_ok {output : Output}
    (h : (produce tree.disk run).run.run = .ok output) :
    outcome tree args =
      match tree.create output.path output.content with
      | .error e => .failed tree (.cannotCreate output.path e)
      | .ok changed => { tree := changed } := by
  have hreply : (reply tree.disk args).run = .write output := by
    simp only [reply, hrequest, Id.run_bind, h]
    rfl
  cases hcreate : tree.create output.path output.content <;>
    simp only [outcome, hreply, hcreate]

/-- A run that ends well has written the output of its job. -/
theorem exists_output_of_status (hstatus : (outcome tree args).status = 0) :
    ∃ output, (produce tree.disk run).run = .ok output ∧
      tree.create output.path output.content = .ok (outcome tree args).tree := by
  cases hproduce : (produce tree.disk run).run.run with
  | error f =>
      rw [outcome_of_produce_error hrequest hproduce] at hstatus
      cases hstatus
  | ok output =>
      refine ⟨output, hproduce, ?_⟩
      rw [outcome_of_produce_ok hrequest hproduce] at hstatus ⊢
      cases hcreate : tree.create output.path output.content with
      | error e =>
          rw [hcreate] at hstatus
          cases hstatus
      | ok changed => rfl

/-- A run whose output can be created ends well. -/
theorem outcome_of_create {output : Output} {changed : FileTree}
    (hproduce : (produce tree.disk run).run = .ok output)
    (hcreate : tree.create output.path output.content = .ok changed) :
    outcome tree args = { tree := changed } := by
  rw [outcome_of_produce_ok hrequest hproduce, hcreate]

/-- A run that does not end well has changed nothing. -/
theorem tree_of_status_ne_zero (hstatus : (outcome tree args).status ≠ 0) :
    (outcome tree args).tree = tree := by
  cases hproduce : (produce tree.disk run).run.run with
  | error f =>
      rw [outcome_of_produce_error hrequest hproduce]
      rfl
  | ok output =>
      rw [outcome_of_produce_ok hrequest hproduce] at hstatus ⊢
      cases hcreate : tree.create output.path output.content with
      | error e => rfl
      | ok changed =>
          rw [hcreate] at hstatus
          exact absurd rfl hstatus

end

end HackBackend.Cli
