import HackBackend.Proofs.Codegen.Histories
import HackBackend.Proofs.Codegen.Relocation

/-!
# The counter of instructions is an address

A generator tells instructions from labels by the first character of a line, behind which a comment
may already stand. The assembler drops the comment and all blanks before it reads the line. As long
as every line can be read, the two agree, whatever units are named and whatever comments echo. So the
counter of a generator is the address that the assembler gives to what comes next, and an address
that a comparison takes from it is that of the instruction behind the comparison.

## Implementation notes

A call may ask for a whole unit. Whether the unit is taken or not, that comes to beginning it and to
taking the commands on its lines up to the first error, so every run is a history of requests. The
comparisons of a run are found in that history, those on the lines of a unit included.
-/

namespace HackBackend

open Asm Machine Vm StackMachine Text

namespace Asm

namespace Layout

variable {texts more : List String} {layout : Layout}

/-- The first instruction behind some texts is placed at the number of their instructions. -/
theorem next_of_placeAll (h : ({} : Layout).placeAll 0 (texts ++ more) = .ok layout) :
    layout.instructions[(instructionsOf (linesOf texts)).length]? =
      (instructionsOf (linesOf more)).head? := by
  obtain ⟨-, hplaced⟩ := placeAll_eq_ok_iff.mp h
  rw [← Array.getElem?_toList, toList_instructions hplaced, linesOf_append,
    instructionsOf_append, List.getElem?_append_right (Nat.le_refl _), Nat.sub_self,
    List.head?_eq_getElem?]

/-- A label behind some texts gets the number of their instructions for its address. -/
theorem label_of_placeAll {raw name : String} (hraw : lineOf? raw = some (.label name))
    (h : ({} : Layout).placeAll 0 (texts ++ raw :: more) = .ok layout) :
    layout.labels[name]? = some (instructionsOf (linesOf texts)).length := by
  obtain ⟨-, hplaced⟩ := placeAll_eq_ok_iff.mp h
  rw [linesOf_append_cons hraw] at hplaced
  have hlabel := (assembled_of_placeLines hplaced).label
  rwa [labels_program] at hlabel

end Layout

end Asm

namespace Codegen

/-! ### Lines and their count -/

/-- A listing spells some code, and its counter is the number of the instructions of the code. -/
structure Listing.Counts (listing : Listing) (code : List Line) : Prop where
  spells : List.Forall₂ Spells listing.lines.toList code
  counter : listing.instructions = code.countP Line.isInstruction

/-- If all lines of a listing can be read, as many instructions are read as have been counted. -/
theorem Listing.Counts.length_eq {listing : Listing} {code : List Line} (h : listing.Counts code)
    (hread : ∀ raw ∈ listing.lines.toList, Asm.codeOf raw ≠ [] → (lineOf? raw).isSome) :
    (instructionsOf (linesOf listing.lines.toList)).length = listing.instructions := by
  obtain ⟨hlines, hreadable⟩ := linesOf_eq_reread h.spells
  rw [hlines, length_instructionsOf_reread (hreadable.mp hread), h.counter]

/-- The counter of a listing is the number of the instructions that are read from its lines.
Whatever comes behind them, the next instruction has that number for its address, and so has a label
in front of it. -/
structure Listing.CountsAddresses (listing : Listing) : Prop where
  count : (instructionsOf (linesOf listing.lines.toList)).length = listing.instructions
  next : ∀ more layout, ({} : Layout).placeAll 0 (listing.lines.toList ++ more) = .ok layout →
    layout.instructions[listing.instructions]? = (instructionsOf (linesOf more)).head?
  label : ∀ raw name more layout, lineOf? raw = some (.label name) →
    ({} : Layout).placeAll 0 (listing.lines.toList ++ raw :: more) = .ok layout →
      layout.labels[name]? = some listing.instructions

theorem Listing.Counts.countsAddresses {listing : Listing} {code : List Line}
    (h : listing.Counts code)
    (hread : ∀ raw ∈ listing.lines.toList, Asm.codeOf raw ≠ [] → (lineOf? raw).isSome) :
    listing.CountsAddresses := by
  have hcount := h.length_eq hread
  refine ⟨hcount, ?_, ?_⟩
  · intro more layout hplaced
    rw [← hcount]
    exact Layout.next_of_placeAll hplaced
  · intro raw name more layout hraw hplaced
    rw [← hcount]
    exact Layout.label_of_placeAll hraw hplaced

namespace Generator

theorem counts_new (options : Options) : (new options).listing.Counts (bootCode options) where
  spells := spells_new options
  counter := congrArg Counters.rom (counters_new options)

/-- The code of some operations is counted when it is added. -/
theorem Emits.counts {g g' : Generator} {ops : List Placed} {chunks : List (List Line)}
    {code : List Line} (h : Emits g ops chunks g') (hg : g.listing.Counts code) :
    g'.listing.Counts (code ++ chunks.flatten) := by
  obtain ⟨texts, htexts, hspells⟩ := h.text
  constructor
  · rw [htexts]
    exact List.rel_append hg.spells (List.rel_flatten hspells)
  · calc g'.listing.instructions
        = (g.counters.afterAll g.options ops).rom := congrArg Counters.rom h.counters
      _ = g.listing.instructions + chunks.flatten.countP Line.isInstruction :=
          (countP_of_lowerAll h.lowered).symm
      _ = (code ++ chunks.flatten).countP Line.isInstruction := by
          rw [hg.counter, List.countP_append]

/-- Whatever a generator has been asked, its counter is the number of the instructions that it has
spelled out. -/
theorem exists_counts_after (options : Options) (requests : List Request) :
    ∃ code, ((new options).after requests).listing.Counts code := by
  obtain ⟨chunks, hemits, -⟩ := (new options).emits_after requests
  exact ⟨_, hemits.counts (counts_new options)⟩

/-! ### Calls -/

/-- What may be asked of a generator: a request, or a unit as a whole. -/
inductive Call where
  | request (r : Request)
  | unit (name : String) (source : Source)

def serve (g : Generator) : Call → Except Error Unit × Generator
  | .request r => g.handle r
  | .unit name source => g.takeUnit name source

/-- The generator after some calls, whether they have failed or not. -/
def afterCalls (g : Generator) (calls : List Call) : Generator :=
  calls.foldl (fun g call => (g.serve call).2) g

def requestsOfCall (g : Generator) : Call → List Request
  | .request r => [r]
  | .unit name source => g.requestsOfUnit name source

/-- The requests that some calls come to, one after another. -/
def requestsOfCalls (g : Generator) : List Call → List Request
  | [] => []
  | call :: rest => g.requestsOfCall call ++ (g.serve call).2.requestsOfCalls rest

theorem after_requestsOfCall (g : Generator) (call : Call) :
    g.after (g.requestsOfCall call) = (g.serve call).2 := by
  cases call with
  | request r => rfl
  | unit name source => exact g.after_requestsOfUnit name source

theorem after_requestsOfCalls (g : Generator) (calls : List Call) :
    g.after (g.requestsOfCalls calls) = g.afterCalls calls := by
  induction calls generalizing g with
  | nil => rfl
  | cons call rest ih =>
      rw [requestsOfCalls, after_append, after_requestsOfCall]
      exact ih (g.serve call).2

/-! ### Comparisons -/

/-- The lines of a comparison stand in a text behind some earlier ones. In the program of the text
the instruction that loads the target has an address of its own, `own`, and the target is the address
right behind the last instruction of the comparison. -/
structure TargetsNext (texts : List String) (program : Program) (r : Relation)
    (earlier lines : List String) (own : Nat) : Prop where
  text : earlier ++ lines <+: texts
  code : linesOf lines = compareCode r (.literal (own + 5))
  address : (instructionsOf (linesOf earlier)).length + targetOffset = own
  target : program.instructions[own]? = some (.load (own + 5))
  jump : program.instructions[own + 1]? = some (.compute .nowhere (.copy .d) (relationJump r))
  last : program.instructions[own + 4]? = some (.compute .m .zero .never)
  behind : (instructionsOf (linesOf (earlier ++ lines))).length = own + 5

/-- The lines that a command adds spell the code of its operation. -/
theorem exists_spells_added {g : Generator} {c : Command} {op : Operation}
    (hop : c.operation = .ok op) (htake : (g.takeCommand c).1 = .ok ()) :
    ∃ batches, lower g.options g.listing.instructions g.site op = .ok batches ∧
      List.Forall₂ Spells (g.answer (.command c)).added (Codegen.codeOf batches) := by
  obtain ⟨same, hsame, batches, hlower, hnext⟩ :=
    takeCommand_eq_ok_iff.mp (Prod.ext htake rfl : g.takeCommand c = (.ok (), (g.takeCommand c).2))
  obtain rfl := Except.ok.inj (hsame.symm.trans hop)
  refine ⟨batches, hlower, ?_⟩
  obtain ⟨texts, htexts, hspells⟩ := (g.listing.stage c.source.text).spells_addAll batches
  have hadded := g.toList_lines_handle (.command c)
  rw [handle, ← hnext, emit, htexts, Listing.lines_stage] at hadded
  rwa [← List.append_cancel_left hadded]

/-- In the absolute style the lines of a comparison are read as its code, with the address of what
comes behind it. -/
theorem linesOf_added_compare {g : Generator} (hstyle : g.options.compare = .absolute) {c : Command}
    {r : Relation} (hop : c.operation = .ok (.compare r)) (htake : (g.takeCommand c).1 = .ok ()) :
    linesOf (g.answer (.command c)).added =
      compareCode r (.literal (g.listing.instructions + compareLength)) := by
  obtain ⟨batches, hlower, hspells⟩ := exists_spells_added hop htake
  obtain ⟨hfits, rfl⟩ := lower_compare_eq_ok_iff.mp hlower
  rw [codeOf_single] at hspells
  simp only [compareTarget, compareLabel, hstyle, List.append_nil] at hspells
  have hreadable : ∀ line ∈ compareCode r (.literal (g.listing.instructions + compareLength)),
      line.Readable := by
    rw [compareCode_eq]
    exact List.forall_mem_append.mpr ⟨readable_compareHead,
      List.forall_mem_cons.mpr ⟨hfits hstyle, readable_compareTail r⟩⟩
  exact (linesOf_of_spells hspells hreadable).1

theorem lines_prefix_after (g : Generator) (requests : List Request) :
    g.listing.lines.toList <+: (g.after requests).listing.lines.toList := by
  obtain ⟨chunks, hemits, -⟩ := g.emits_after requests
  obtain ⟨texts, htexts, -⟩ := hemits.text
  exact ⟨_, htexts.symm⟩

theorem lines_prefix_finish (g : Generator) : g.listing.lines.toList <+: g.finish := by
  obtain ⟨texts, htexts, -⟩ := g.listing.spells_add haltBatch
  exact ⟨_, htexts.symm⟩

/-- A comparison that a generator takes stands in the finished text behind what the generator has
written before, and in the program its target is the address behind it. -/
theorem targetsNext_of_counts {g : Generator} {code : List Line} (hcounts : g.listing.Counts code)
    (hstyle : g.options.compare = .absolute) {c : Command} {r : Relation}
    (hop : c.operation = .ok (.compare r)) (htake : (g.takeCommand c).1 = .ok ())
    {rest : List Request} {program : Program}
    (hassemble : assemble (g.after (.command c :: rest)).finish = .ok program) :
    TargetsNext (g.after (.command c :: rest)).finish program r g.listing.lines.toList
      (g.answer (.command c)).added (g.listing.instructions + targetOffset) := by
  have htext : g.listing.lines.toList ++ (g.answer (.command c)).added <+:
      (g.after (.command c :: rest)).finish := by
    rw [← toList_lines_handle, after_cons]
    exact (lines_prefix_after _ rest).trans (lines_prefix_finish _)
  obtain ⟨later, hlater⟩ := htext
  have hread := (assemble_eq_ok_iff.mp hassemble).1
  have hcount : (instructionsOf (linesOf g.listing.lines.toList)).length =
      g.listing.instructions := by
    apply hcounts.length_eq
    intro raw hraw
    apply hread
    rw [← hlater, List.append_assoc]
    exact List.mem_append_left _ hraw
  have hcode := linesOf_added_compare hstyle hop htake
  have hassembled := assembled_of_assemble hassemble
  rw [← hlater, linesOf_append, linesOf_append, hcode] at hassembled
  have hholds : Holds program g.listing.instructions
      (program.linked (compareCode r (.literal (g.listing.instructions + compareLength)))) :=
    hcount ▸ hassembled.holds
  exact {
    text := ⟨later, hlater⟩
    code := hcode
    address := congrArg (· + targetOffset) hcount
    target := @Holds.getElem? _ _ _ hholds 6 _ rfl
    jump := @Holds.getElem? _ _ _ hholds 7 _ rfl
    last := @Holds.getElem? _ _ _ hholds 10 _ rfl
    behind := by
      rw [linesOf_append, hcode, instructionsOf_append, List.length_append, hcount]
      rfl }

/-- Whatever a generator has been called for, with or without success: if the lines that it has
written by then can be read, its counter is the number of the instructions among them, which is the
address that the assembler gives to the next instruction. So if the finished text is assembled in the
absolute style, each comparison that was taken targets the address five behind that of the
instruction that loads the target, which is the address right behind its last instruction. -/
theorem counter_is_next_address (options : Options) (calls : List Call) :
    ((∀ raw ∈ ((new options).afterCalls calls).listing.lines.toList,
        ∃ number found, Asm.readLine number raw = .ok found) →
      ((new options).afterCalls calls).listing.CountsAddresses) ∧
    (options.compare = .absolute → ∀ program,
      assemble ((new options).afterCalls calls).finish = .ok program →
      ∀ before c rest r, (new options).requestsOfCalls calls = before ++ .command c :: rest →
        c.operation = .ok (.compare r) → (((new options).after before).takeCommand c).1 = .ok () →
          TargetsNext ((new options).afterCalls calls).finish program r
            ((new options).after before).listing.lines.toList
            (((new options).after before).answer (.command c)).added
            (((new options).after before).listing.instructions + targetOffset)) := by
  constructor
  · intro hread
    rw [← after_requestsOfCalls] at hread ⊢
    obtain ⟨code, hcounts⟩ := exists_counts_after options ((new options).requestsOfCalls calls)
    apply hcounts.countsAddresses
    intro raw hraw hcode
    obtain ⟨number, found, hfound⟩ := hread raw hraw
    exact isSome_of_readLine hfound hcode
  · intro hstyle program hassemble before c rest r hrequests hop htake
    obtain ⟨code, hcounts⟩ := exists_counts_after options before
    obtain ⟨chunks, hemits, -⟩ := (new options).emits_after before
    have hoptions : ((new options).after before).options = options := hemits.options
    rw [← after_requestsOfCalls, hrequests, after_append] at hassemble ⊢
    exact targetsNext_of_counts hcounts (by rw [hoptions, hstyle]) hop htake hassemble

/-- A unit whose name ends in a comment, so that the symbol of its static is read as a number. The
fourth command is refused, and the one behind it is not looked at. -/
def brokenUnit : Call :=
  .unit "12 //" (.ofString "push static 0\npush constant 3\nlt\npop constant 0\neq")

/-- The commands on the lines of that unit, up to the one that is refused. -/
def brokenUnitCommands : List Command :=
  [⟨.push, some "static", some 0, ⟨1, "push static 0"⟩⟩,
    ⟨.push, some "constant", some 3, ⟨2, "push constant 3"⟩⟩,
    ⟨.compare .lt, none, none, ⟨3, "lt"⟩⟩,
    ⟨.pop, some "constant", some 0, ⟨4, "pop constant 0"⟩⟩]

/-- Commands with brackets and comments in their texts. -/
def bracketedCommands : List Command :=
  [⟨.function, some "f", some 0, ⟨6, "(function f 0) // (again)"⟩⟩,
    ⟨.compare .eq, none, none, ⟨7, "(eq"⟩⟩]

def brokenUnitRun : List Call :=
  brokenUnit :: bracketedCommands.map fun c => .request (.command c)

theorem requestsOfCalls_brokenUnitRun : (new {}).requestsOfCalls brokenUnitRun =
    .beginUnit "12 //" :: (brokenUnitCommands ++ bracketedCommands).map .command := by
  have hcommands : ((new {}).beginUnit "12 //").commandsOn 0
      (Source.ofString "push static 0\npush constant 3\nlt\npop constant 0\neq").lines =
        brokenUnitCommands := by decide +kernel
  simp only [brokenUnitRun, brokenUnit, requestsOfCalls, requestsOfCall, requestsOfUnit, hcommands]
  rfl

/-- The comparisons of that run load their targets at the addresses 20 and 31. -/
theorem counter_is_next_address_brokenUnitRun :
    ∃ program, assemble ((new {}).afterCalls brokenUnitRun).finish = .ok program ∧
      ((new {}).afterCalls brokenUnitRun).listing.instructions = 36 ∧
      ((new {}).afterCalls brokenUnitRun).listing.CountsAddresses ∧
      program.instructions[20]? = some (.load 25) ∧
      program.instructions[31]? = some (.load 36) := by
  have hok : (assemble ((new {}).afterCalls brokenUnitRun).finish).toOption.isSome := by
    decide +kernel
  have hlines : ∀ raw ∈ ((new {}).afterCalls brokenUnitRun).listing.lines.toList,
      (Asm.readLine 0 raw).toOption.isSome := by
    decide +kernel
  obtain ⟨program, hassemble⟩ := exists_ok_of_isSome hok
  obtain ⟨hcounts, htargets⟩ := counter_is_next_address {} brokenUnitRun
  have hread : ∀ raw ∈ ((new {}).afterCalls brokenUnitRun).listing.lines.toList,
      ∃ number found, Asm.readLine number raw = .ok found :=
    fun raw hraw => ⟨0, exists_ok_of_isSome (hlines raw hraw)⟩
  have hcompares := htargets rfl program hassemble
  rw [requestsOfCalls_brokenUnitRun] at hcompares
  have hlt := hcompares (.beginUnit "12 //" :: (brokenUnitCommands.take 2).map .command)
    ⟨.compare .lt, none, none, ⟨3, "lt"⟩⟩ _ .lt rfl rfl (by decide +kernel)
  have heq := hcompares (.beginUnit "12 //" ::
      (brokenUnitCommands ++ bracketedCommands.take 1).map .command)
    ⟨.compare .eq, none, none, ⟨7, "(eq"⟩⟩ _ .eq rfl rfl (by decide +kernel)
  have hstartLt : ((new {}).after (.beginUnit "12 //" ::
      (brokenUnitCommands.take 2).map .command)).listing.instructions = 14 := by
    decide +kernel
  have hstartEq : ((new {}).after (.beginUnit "12 //" :: (brokenUnitCommands ++
      bracketedCommands.take 1).map .command)).listing.instructions = 25 := by
    decide +kernel
  rw [hstartLt] at hlt
  rw [hstartEq] at heq
  exact ⟨program, hassemble, by decide +kernel, hcounts hread, hlt.target, heq.target⟩

end Generator

end Codegen

end HackBackend
