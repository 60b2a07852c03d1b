import HackBackend.Proofs.Asm.Rejection
import HackBackend.Proofs.Codegen.Simulation
import HackBackend.Proofs.Codegen.Variables
import HackBackend.Proofs.StackMachine.Frame
import HackBackend.Proofs.StackMachine.Growth
import Mathlib.Algebra.GroupWithZero.Nat
import Mathlib.Data.List.Nodup
import Mathlib.Data.List.Perm.Subperm

/-!
# Where the statics of a run are kept

The assembler gives consecutive cells to the statics of a run, whatever units they belong to, from
the first cell behind the registers on. The code that sets up the stack pointer starts the stack at
a fixed address. So the statics lie below the stack as long as there are no more of them than cells
in between. Their number is not limited by anything but the program memory.
-/

namespace HackBackend

open Asm Machine Vm StackMachine Text

namespace Codegen

/-- The cell that a program has for a static of a unit. -/
def staticCell (program : Program) (unit : String) (offset : Nat) : Nat :=
  program.address (Segment.staticSymbol unit offset)

/-- A static of a unit that some code accesses. -/
def UsesStatic (code : List Placed) (unit : String) (offset : Nat) : Prop :=
  ∃ c ∈ code, c.unit = unit ∧ (c.op = .push .static offset ∨ c.op = .pop .static offset)

/-- A static that some code accesses, and whose symbol stands for nothing else in the run. -/
structure OwnStatic (options : Options) (code : List Placed) (unit : String) (offset : Nat) :
    Prop where
  used : UsesStatic code unit offset
  own : ¬ IsPlace options code (Segment.staticSymbol unit offset)

/-- The statics of some code have cells of their own between the registers and the screen, which
are below the stack exactly if there are not too many of them. -/
structure DataLayout (options : Options) (code : List Placed) (program : Program) : Prop where
  /-- The code of an access loads the cell of its static. -/
  access : ∀ (position : Nat) c offset, code[position]? = some c →
    (c.op = .push .static offset ∨ c.op = .pop .static offset) →
      program.instructions[entry options code position + c.operandIndex]? =
        some (.load (staticCell program c.unit offset))
  /-- The variables of the program are the statics. -/
  vars : ∀ name, name ∈ program.vars ↔
    ∃ unit offset, OwnStatic options code unit offset ∧ name = Segment.staticSymbol unit offset
  distinct : ∀ unit offset unit' offset', OwnStatic options code unit offset →
    OwnStatic options code unit' offset' →
      staticCell program unit offset = staticCell program unit' offset' →
        unit = unit' ∧ offset = offset'
  /-- The cells of the statics are consecutive. -/
  cells : ∀ cell, (∃ unit offset, OwnStatic options code unit offset ∧
      staticCell program unit offset = cell) ↔
    variableBase ≤ cell ∧ cell < variableBase + program.vars.size
  belowScreen : variableBase + program.vars.size ≤ screenBase
  belowStack : (∀ unit offset, OwnStatic options code unit offset →
      staticCell program unit offset < stackBase) ↔
    program.vars.size ≤ stackBase - variableBase
  /-- The first instructions start the stack at its base. -/
  boot : ∀ m, Runs program 4 0 m
    (.ok (entry options code 0, m.write stackPointer (.ofNat 16 stackBase)))
  /-- Nothing that is put on the stack above a static changes it. -/
  kept : ∀ (position : Nat) c, code[position]? = some c → c.op.pushes → ∀ cpu cpu' : Cpu,
    cpu.pc = entry options code position → Cpu.steps program c.op.size cpu = .ok cpu' →
      ∀ unit offset, OwnStatic options code unit offset →
        staticCell program unit offset < (sp cpu.memory).toNat →
          cpu'.memory.read (staticCell program unit offset) =
            cpu.memory.read (staticCell program unit offset)

/-! ### The symbols of statics -/

variable {options : Options} {code : List Placed}

theorem usesStatic_iff {unit : String} {offset : Nat} :
    UsesStatic code unit offset ↔
      ∃ c ∈ code, c.static? = some (Segment.staticSymbol unit offset) := by
  constructor
  · rintro ⟨c, hc, rfl, hop⟩
    exact ⟨c, hc, Placed.static?_eq_some_iff.mpr ⟨offset, hop, rfl⟩⟩
  · rintro ⟨c, hc, hstatic⟩
    obtain ⟨i, hop, hsymbol⟩ := Placed.static?_eq_some_iff.mp hstatic
    obtain ⟨rfl, rfl⟩ := staticSymbol_inj hsymbol
    exact ⟨c, hc, rfl, hop⟩

/-- The label that an operation makes up where it stands is among those of the code. -/
theorem mem_allMadeUp {n : Counters} {position : Nat} {c : Placed}
    (hc : code[position]? = some c) {name : String}
    (hmade : madeUp? options (n.afterAll options (code.take position)) c = some name) :
    name ∈ allMadeUp options n code := by
  induction code generalizing n position with
  | nil => cases hc
  | cons d rest ih =>
      rw [allMadeUp, List.mem_append]
      cases position with
      | zero =>
          obtain rfl := Option.some.inj hc
          exact .inl (Option.mem_toList.mpr hmade)
      | succ position => exact .inr (ih hc hmade)

theorem IsPlace.isKnown {name : String} (h : IsPlace options code name) :
    IsKnown options code name := by
  obtain ⟨position, d, hd, hsymbol | ⟨callee, hcallee, hback⟩⟩ := h
  · exact .symbol (List.mem_of_getElem? hd) hsymbol
  · refine .madeUp (mem_allMadeUp hd ?_)
    obtain ⟨unit, function, op⟩ := d
    cases op with
    | call name args =>
        obtain rfl := Option.some.inj hcallee
        exact congrArg some hback
    | _ => cases hcallee

theorem rom_afterAll (options : Options) (n : Counters) (code : List Placed) :
    (n.afterAll options code).rom = n.rom + (code.map fun c => c.op.size).sum := by
  induction code generalizing n with
  | nil => rfl
  | cons c rest ih =>
      have hsize : (n.after options c).rom = n.rom + c.op.size := rfl
      rw [Counters.afterAll_cons, ih, hsize, List.map_cons, List.sum_cons, Nat.add_assoc]

/-- The code of each access to a static has at least five instructions. -/
theorem length_static_le (code : List Placed) :
    5 * (code.filterMap Placed.static?).length ≤ (code.map fun c => c.op.size).sum := by
  induction code with
  | nil => exact Nat.le_refl _
  | cons c rest ih =>
      rw [List.map_cons, List.sum_cons]
      cases hstatic : c.static? with
      | none =>
          rw [List.filterMap_cons_none hstatic]
          omega
      | some name =>
          have hlong : 5 ≤ c.op.size := by
            obtain ⟨offset, hop, -⟩ := Placed.static?_eq_some_iff.mp hstatic
            rcases hop with hop | hop <;> rw [hop] <;> simp [Operation.size]
          rw [List.filterMap_cons_some hstatic, List.length_cons]
          omega

/-- The number of instructions in the code of a run. -/
theorem countP_runCode {chunks : List (List Line)}
    (h : lowerAll options (startCounters options) code = .ok chunks) :
    (instructionsOf (runCode options chunks)).length =
      (startCounters options).rom + (code.map fun c => c.op.size).sum + 2 := by
  have hcode := countP_of_lowerAll h
  have hhalt : haltBatch.code.countP Line.isInstruction = 2 := rfl
  rw [rom_afterAll] at hcode
  rw [length_instructionsOf, runCode, List.countP_append, List.countP_append, hhalt, ← hcode]
  rfl

/-! ### The cells of a program -/

section

variable {units : List (String × Text.Source)} {chunks : List (List Line)} {layout : Layout}
variable (hlowered : lowerAll options (startCounters options) (codeOfUnits units) = .ok chunks)
variable (hplaced : ({} : Layout).placeLines (runCode options chunks) = .ok layout)

include hlowered hplaced

/-- A static of a run is a variable of its program, and has the cell of it. -/
theorem exists_cell_of_own {unit : String} {offset : Nat}
    (h : OwnStatic options (codeOfUnits units) unit offset) :
    ∃ i, (variablesOf (runCode options chunks))[i]? = some (Segment.staticSymbol unit offset) ∧
      staticCell layout.program unit offset = variableBase + i := by
  obtain ⟨c, hc, hstatic⟩ := usesStatic_iff.mp h.used
  obtain ⟨position, hposition⟩ := List.mem_iff_getElem?.mp hc
  have hload := List.mem_of_getElem? (getElem?_runCode hlowered hposition (.inl hstatic))
  have hlabel := notMem_labelsOf_of_static hlowered hstatic h.own
  have hfree := predefined?_staticSymbol unit offset
  have hvar : Segment.staticSymbol unit offset ∈ variablesOf (runCode options chunks) :=
    mem_freeNames.mpr ⟨hload, hfree, hlabel⟩
  obtain ⟨i, hi⟩ := List.mem_iff_getElem?.mp hvar
  have hcell := ((Layout.allocates_program hplaced).cell _ _).mpr ⟨i, hi, rfl⟩
  refine ⟨i, hi, Program.address_of_var hfree ?_ hcell⟩
  rw [Layout.labels_program, Layout.mem_labels_iff hplaced]
  exact hlabel

theorem mem_vars_iff (hvars : VarsAreStatics options (codeOfUnits units) layout.program)
    {name : String} : name ∈ layout.program.vars ↔ ∃ unit offset,
      OwnStatic options (codeOfUnits units) unit offset ∧
        name = Segment.staticSymbol unit offset := by
  constructor
  · intro hname
    obtain ⟨c, hc, offset, hop, rfl⟩ := hvars.static name hname
    exact ⟨c.unit, offset, ⟨⟨c, hc, rfl, hop⟩, fun hplace => hvars.known _ hplace.isKnown hname⟩,
      rfl⟩
  · rintro ⟨unit, offset, hown, rfl⟩
    obtain ⟨i, hi, -⟩ := exists_cell_of_own hlowered hplaced hown
    exact (Layout.allocates_program hplaced).mem_iff.mpr (List.mem_of_getElem? hi)

/-- The cells of the statics are those of the variables, which are consecutive. -/
theorem exists_own_iff (hvars : VarsAreStatics options (codeOfUnits units) layout.program)
    (cell : Nat) : (∃ unit offset, OwnStatic options (codeOfUnits units) unit offset ∧
      staticCell layout.program unit offset = cell) ↔
        variableBase ≤ cell ∧ cell < variableBase + layout.program.vars.size := by
  have hallocates := Layout.allocates_program hplaced
  rw [← hallocates.exists_cell_iff]
  constructor
  · rintro ⟨unit, offset, hown, rfl⟩
    obtain ⟨i, hi, hcell⟩ := exists_cell_of_own hlowered hplaced hown
    exact ⟨_, (hallocates.cell _ _).mpr ⟨i, hi, hcell⟩⟩
  · rintro ⟨name, hname⟩
    have hmem := Std.TreeMap.mem_iff_isSome_getElem?.mpr (Option.isSome_of_eq_some hname)
    obtain ⟨unit, offset, hown, rfl⟩ := (mem_vars_iff hlowered hplaced hvars).mp hmem
    obtain ⟨i, hi, hcell⟩ := exists_cell_of_own hlowered hplaced hown
    have hstored := (hallocates.cell _ _).mpr ⟨i, hi, hcell⟩
    exact ⟨unit, offset, hown, Option.some.inj (hstored.symm.trans hname)⟩

/-- The statics are below the stack exactly if there are not too many of them. -/
theorem staticCell_lt_stackBase_iff
    (hvars : VarsAreStatics options (codeOfUnits units) layout.program) :
    (∀ unit offset, OwnStatic options (codeOfUnits units) unit offset →
      staticCell layout.program unit offset < stackBase) ↔
        layout.program.vars.size ≤ stackBase - variableBase := by
  have hcells := exists_own_iff hlowered hplaced hvars
  constructor
  · intro hbelow
    by_contra hmany
    -- If there are too many, then one of them has the cell where the stack starts.
    have hbase : variableBase ≤ stackBase := by decide
    obtain ⟨unit, offset, hown, hcell⟩ := (hcells stackBase).mpr ⟨hbase, by omega⟩
    exact absurd (hbelow unit offset hown) (by omega)
  · intro hfew unit offset hown
    obtain ⟨-, hlt⟩ := (hcells _).mp ⟨unit, offset, hown, rfl⟩
    have hbase : variableBase ≤ stackBase := by decide
    omega

/-- There are no more statics than accesses to them, and the program memory has room for the code
of these. -/
theorem size_vars_le (hvars : VarsAreStatics options (codeOfUnits units) layout.program) :
    variableBase + layout.program.vars.size ≤ screenBase := by
  have hallocates := Layout.allocates_program hplaced
  have hsubset : variablesOf (runCode options chunks) ⊆
      (codeOfUnits units).filterMap Placed.static? := by
    intro name hname
    obtain ⟨unit, offset, hown, rfl⟩ :=
      (mem_vars_iff hlowered hplaced hvars).mp (hallocates.mem_iff.mpr hname)
    exact List.mem_filterMap.mpr (usesStatic_iff.mp hown.used)
  have hcount := (List.subperm_of_subset (nodup_freeNames _ _) hsubset).length_le
  have hroom := Layout.length_instructionsOf_le hplaced
  have hcode := length_static_le (codeOfUnits units)
  rw [countP_runCode hlowered] at hroom
  rw [hallocates.size]
  simp only [variableBase, screenBase, romSize, variablesOf] at hroom hcount ⊢
  omega

end

/-! ### What is put on the stack -/

theorem effect_of_runs {program : Program} {f : Memory → Except Fault Memory} {count next : Nat}
    {cpu cpu' : Cpu} (hruns : Runs program count cpu.pc cpu.memory (do
      let m ← f cpu.memory
      .ok (next, m))) (hsteps : Cpu.steps program count cpu = .ok cpu') :
    f cpu.memory = .ok cpu'.memory := by
  obtain ⟨⟨a, d, pc⟩, m⟩ := cpu
  have hresult := hruns a d
  rw [hsteps] at hresult
  cases hf : f m with
  | error fault => simp [hf, Except.map] at hresult
  | ok after =>
      obtain ⟨-, hmemory⟩ : cpu'.pc = next ∧ cpu'.memory = after := by
        simpa [hf, Except.map] using hresult
      rw [hmemory]

section

variable {program : Program} (hbuilt : Built options code program)
variable (hnamed : ∀ c ∈ code, isSymbol c.unit.toList ∧ c.Named) (hlinked : Linked code)

include hbuilt hnamed hlinked

/-- The address of a target is one of the program memory, also where the target is predefined. -/
theorem address_target_lt {c : Placed} (hc : c ∈ code) {name : String}
    (hname : c.target? = some name) : program.address name < romSize := by
  cases hfree : predefined? name with
  | some cell =>
      rw [Program.address_of_predefined hfree]
      exact Nat.lt_of_le_of_lt (predefined?_le hfree) (by decide)
  | none =>
      obtain ⟨d, hd, hsymbol⟩ := hlinked c hc name hname
      obtain ⟨position, hposition⟩ := List.mem_iff_getElem?.mp hd
      obtain ⟨hunit, hnames⟩ := hnamed d hd
      have hlabel := hbuilt.label_of_symbol hposition hunit hnames hsymbol
      rw [Program.address_of_label hfree hlabel]
      exact hbuilt.labels_lt hlabel

/-- An operation that puts words on the stack keeps what lies below the top of the stack. -/
theorem grows_of_steps {position : Nat} {c : Placed} (hc : code[position]? = some c)
    (hpushes : c.op.pushes) {cpu cpu' : Cpu} (hpc : cpu.pc = entry options code position)
    (hsteps : Cpu.steps program c.op.size cpu = .ok cpu') : Grows cpu.memory cpu'.memory := by
  have hmem := List.mem_of_getElem? hc
  obtain ⟨hunit, hnames⟩ := hnamed c hmem
  obtain ⟨batches, hlower, hstands⟩ := hbuilt.stands hc
  have hthere := hstands (readable_of_lower (.inr hunit) hnames hlower)
  have hsize := countP_of_lower hlower
  obtain ⟨unit, function, op⟩ := c
  cases op with
  | push segment offset =>
      obtain ⟨place, hplace, rfl⟩ := lower_push_eq_ok_iff.mp hlower
      rw [codeOf_single] at hthere hsize
      have hruns := runs_of_performs hc hthere.1 hsize (by cases place <;> rfl)
        (performs_push program hplace) cpu.memory
      have heffect := effect_of_runs (f := fun m => fetch _ segment offset m >>= (push · m))
        (hpc ▸ hruns) hsteps
      obtain ⟨value, -, hpush⟩ := bind_eq_ok_iff.mp heffect
      exact grows_push hpush
  | function name locals =>
      obtain rfl := Except.ok.inj hlower
      rw [codeOf_single] at hthere hsize
      have hruns := runs_of_performs hc hthere.1 hsize
        (dropLast_fallsThrough_function program name locals)
        (performs_function program name locals) cpu.memory
      exact grows_enterFunction (effect_of_runs (hpc ▸ hruns) hsteps)
  | call name args =>
      obtain ⟨-, rfl⟩ := lower_call_eq_ok_iff.mp hlower
      have hlt := address_target_lt hbuilt hnamed hlinked hmem rfl
      have hruns := Runs.of_yields hthere.1 rfl
        (yields_call program args rfl hlt (entry options code position) cpu.memory)
      exact grows_enterCall (effect_of_runs (hpc ▸ hruns) hsteps)
  | _ => cases hpushes

end

/-- The statics of a run whose targets are all defined have cells of their own between the registers
and the screen. They are below the stack, which the first instructions start, exactly if there are
not too many of them, and nothing that is put on the stack above a static changes it. -/
theorem statics_off_stack {units : List (String × Text.Source)} {program : Program}
    (hboot : options.bootstrap = true) (hunits : ∀ unit ∈ units, isSymbol unit.1.toList)
    (hlinked : Linked (codeOfUnits units)) (h : build options units = .ok program) :
    DataLayout options (codeOfUnits units) program := by
  have hvars := varsAreStatics_of_build hunits hlinked h
  have hbuilt := built_of_build h
  obtain ⟨-, chunks, hlowered, layout, hplaced, rfl⟩ := (build_eq_ok_iff hunits).mp h
  have hnamed : ∀ c ∈ codeOfUnits units, isSymbol c.unit.toList ∧ c.Named := by
    intro c hc
    obtain ⟨hc, unit, hunit, hname⟩ := named_of_mem_codeOfUnits c hc
    exact ⟨hname ▸ hunits unit hunit, hc⟩
  have hcells := exists_own_iff hlowered hplaced hvars
  refine {
    access := ?access
    vars := fun _ => mem_vars_iff hlowered hplaced hvars
    distinct := ?distinct
    cells := hcells
    belowScreen := size_vars_le hlowered hplaced hvars
    belowStack := staticCell_lt_stackBase_iff hlowered hplaced hvars
    boot := ?boot
    kept := ?kept }
  case access =>
    intro position c offset hc hop
    have hname : c.static? = some (Segment.staticSymbol c.unit offset) :=
      Placed.static?_eq_some_iff.mpr ⟨offset, hop, rfl⟩
    rw [(assembled_of_placeLines hplaced).getElem?_instructions,
      getElem?_runCode hlowered hc (.inl hname)]
    rfl
  case distinct =>
    intro unit offset unit' offset' hown hown' hsame
    obtain ⟨i, hi, hcell⟩ := exists_cell_of_own hlowered hplaced hown
    obtain ⟨j, hj, hcell'⟩ := exists_cell_of_own hlowered hplaced hown'
    obtain rfl : i = j := by omega
    exact staticSymbol_inj (Option.some.inj (hi.symm.trans hj))
  case boot =>
    intro m
    have hcode : bootCode options = bootstrapBatch.code := by rw [bootCode, hboot]; rfl
    have hentry : entry options (codeOfUnits units) 0 = 4 := by
      show (bootCode options).countP Line.isInstruction = 4
      rw [hcode]
      rfl
    have hholds := hbuilt.boot
    rw [hcode] at hholds
    rw [hentry]
    exact Runs.of_yields hholds rfl (performs_bootstrap layout.program 0 m)
  case kept =>
    intro position c hc hpushes cpu cpu' hpc hsteps unit offset hown hbelow
    have hgrows := grows_of_steps hbuilt hnamed hlinked hc hpushes hpc hsteps
    exact hgrows.kept _ ((hcells _).mp ⟨unit, offset, hown, rfl⟩).1 hbelow

/-- The stack is set up before the first command. -/
def bootstrapped : Options :=
  { bootstrap := true }

/-- Two units that each have a static with the same offset. -/
def sameOffset : List (String × Text.Source) :=
  [("A", .ofString "push constant 1\npop static 0"), ("B", .ofString "push static 0")]

/-- The two statics have the first two cells. -/
theorem statics_off_stack_sameOffset :
    ∃ program, build bootstrapped sameOffset = .ok program ∧
      DataLayout bootstrapped (codeOfUnits sameOffset) program ∧
      staticCell program "A" 0 = 16 ∧ staticCell program "B" 0 = 17 := by
  have hunits : ∀ unit ∈ sameOffset, isSymbol unit.1.toList := by decide
  obtain ⟨layout, hbuild, hcells⟩ := @exists_layout_of_any bootstrapped sameOffset _
    (fun layout => staticCell layout.program "A" 0 = 16 ∧ staticCell layout.program "B" 0 = 17)
    hunits (by decide +kernel) rfl (by decide +kernel)
  exact ⟨layout.program, hbuild, statics_off_stack rfl hunits (by decide +kernel) hbuild,
    of_decide_eq_true hcells⟩

/-! ### Statics in the stack -/

/-- A run whose targets are all defined uses a static of a unit, and its program loads an address
with a property in its place. -/
def UsesCell (units : List (String × Text.Source)) (bad : Program → Nat → Prop) : Prop :=
  (∀ unit ∈ units, isSymbol unit.1.toList) ∧ Linked (codeOfUnits units) ∧
    ∃ program unit offset, build bootstrapped units = .ok program ∧
      UsesStatic (codeOfUnits units) unit offset ∧ bad program (staticCell program unit offset)

/-- A number of units with a static each. -/
def crowd (n : Nat) : List (String × Text.Source) :=
  (List.range n).map fun i => ("U" ++ toString i, .ofString "push static 0")

theorem isSymbol_of_mem_crowd {n : Nat} : ∀ unit ∈ crowd n, isSymbol unit.1.toList := by
  intro unit hunit
  obtain ⟨i, -, rfl⟩ := List.mem_map.mp hunit
  exact isSymbol_toString_append (by decide) all_isSymbolChar_toString

theorem codeOfUnits_crowd (n : Nat) :
    codeOfUnits (crowd n) =
      (List.range n).map fun i => ⟨"U" ++ toString i, none, .push .static 0⟩ := by
  have hops : operationsOf (.ofString "push static 0") = [.push .static 0] := by decide +kernel
  have hunit (i : Nat) : codeOfUnit ("U" ++ toString i, .ofString "push static 0") =
      [⟨"U" ++ toString i, none, .push .static 0⟩] := by
    rw [codeOfUnit, hops]
    rfl
  simp only [codeOfUnits, crowd, List.flatMap_map, hunit]
  rw [← List.map_eq_flatMap]

theorem op_of_mem_crowd {n : Nat} : ∀ c ∈ codeOfUnits (crowd n), c.op = .push .static 0 := by
  rw [codeOfUnits_crowd]
  intro c hc
  obtain ⟨i, -, rfl⟩ := List.mem_map.mp hc
  rfl

/-- Code that only accesses statics has no places. -/
theorem not_isPlace_of_statics (hops : ∀ c ∈ code, c.op = .push .static 0) (name : String) :
    ¬ IsPlace options code name := by
  rintro ⟨position, d, hd, hname⟩
  have hop := hops d (List.mem_of_getElem? hd)
  simp [Placed.symbol?, Placed.callee?, hop] at hname

/-- There is code for accesses to statics, and it has no labels. -/
theorem exists_lowerAll_of_statics (n : Counters) (hops : ∀ c ∈ code, c.op = .push .static 0) :
    ∃ chunks, lowerAll options n code = .ok chunks ∧ labelsOf chunks.flatten = [] := by
  induction code generalizing n with
  | nil => exact ⟨[], rfl, rfl⟩
  | cons c rest ih =>
      obtain ⟨hop, hrest⟩ := List.forall_mem_cons.mp hops
      obtain ⟨chunks, hchunks, hlabels⟩ := ih (n.after options c) hrest
      refine ⟨_, lowerAll_cons_eq_ok_iff.mpr ⟨_, by rw [hop]; rfl, chunks, hchunks, rfl⟩, ?_⟩
      rw [List.flatten_cons, labelsOf_append, hlabels]
      rfl

/-- The code of so many units can be laid out if there is room for their instructions. -/
theorem exists_layout_crowd {n : Nat} (hroom : 7 * n + 6 < romSize) :
    ∃ chunks layout, lowerAll bootstrapped (startCounters bootstrapped) (codeOfUnits (crowd n)) =
      .ok chunks ∧ ({} : Layout).placeLines (runCode bootstrapped chunks) = .ok layout := by
  obtain ⟨chunks, hlowered, hnone⟩ :=
    @exists_lowerAll_of_statics bootstrapped _ (startCounters bootstrapped) (@op_of_mem_crowd n)
  have hlabels : labelsOf (runCode bootstrapped chunks) = [haltLabel] := by
    rw [labelsOf_runCode, hnone, List.nil_append]
  have hlength : (instructionsOf (runCode bootstrapped chunks)).length = 7 * n + 6 := by
    have hsizes : ((codeOfUnits (crowd n)).map fun c => c.op.size).sum = n * 7 := by
      rw [codeOfUnits_crowd, List.map_map]
      simp [Function.comp_def, Operation.size]
    have hstart : (startCounters bootstrapped).rom = 4 := rfl
    rw [countP_runCode hlowered, hsizes, hstart]
    omega
  obtain ⟨layout, hplaced⟩ := @Layout.exists_placeLines_of_nodup {} (runCode bootstrapped chunks)
    (by simp [hlabels]) (by simp) (by simpa [hlength])
  exact ⟨chunks, layout, hlowered, hplaced⟩

/-- The units do not share their variables. -/
theorem le_size_vars_crowd {n : Nat} {chunks : List (List Line)} {layout : Layout}
    (hlowered : lowerAll bootstrapped (startCounters bootstrapped) (codeOfUnits (crowd n)) =
      .ok chunks) (hplaced : ({} : Layout).placeLines (runCode bootstrapped chunks) = .ok layout) :
    n ≤ layout.program.vars.size := by
  have hsubset : (List.range n).map (fun i => Segment.staticSymbol ("U" ++ toString i) 0) ⊆
      variablesOf (runCode bootstrapped chunks) := by
    intro name hname
    obtain ⟨i, hi, rfl⟩ := List.mem_map.mp hname
    have hused : UsesStatic (codeOfUnits (crowd n)) ("U" ++ toString i) 0 := by
      rw [codeOfUnits_crowd]
      exact ⟨_, List.mem_map.mpr ⟨i, hi, rfl⟩, rfl, .inl rfl⟩
    obtain ⟨j, hj, -⟩ :=
      exists_cell_of_own hlowered hplaced ⟨hused, not_isPlace_of_statics op_of_mem_crowd _⟩
    exact List.mem_of_getElem? hj
  have hnodup : ((List.range n).map
      fun i => Segment.staticSymbol ("U" ++ toString i) 0).Nodup := by
    refine List.Nodup.map (fun i j hsame => ?_) List.nodup_range
    exact Nat.repr_inj.mp ((String.append_right_inj "U").mp (staticSymbol_inj hsame).1)
  calc n = ((List.range n).map fun i => Segment.staticSymbol ("U" ++ toString i) 0).length := by
        rw [List.length_map, List.length_range]
    _ ≤ (variablesOf (runCode bootstrapped chunks)).length :=
        (List.subperm_of_subset hnodup hsubset).length_le
    _ = layout.program.vars.size := (Layout.allocates_program hplaced).size.symm

/-- The program of so many units that some of their statics are in the stack. -/
theorem usesCell_crowd {n : Nat} (hmany : stackBase - variableBase < n)
    (hroom : 7 * n + 6 < romSize) : UsesCell (crowd n) fun _ cell => stackBase ≤ cell := by
  obtain ⟨chunks, layout, hlowered, hplaced⟩ := exists_layout_crowd hroom
  have hfits : Fits (.ofString "push static 0") := by decide +kernel
  have hallFit : ∀ unit ∈ crowd n, Fits unit.2 := by
    intro unit hunit
    obtain ⟨i, -, rfl⟩ := List.mem_map.mp hunit
    exact hfits
  have hlinked : Linked (codeOfUnits (crowd n)) := by
    intro c hc name hname
    simp [Placed.target?, op_of_mem_crowd c hc] at hname
  have hbuild := (build_eq_ok_iff isSymbol_of_mem_crowd).mpr
    ⟨hallFit, chunks, hlowered, layout, hplaced, rfl⟩
  have hvars := varsAreStatics_of_build isSymbol_of_mem_crowd hlinked hbuild
  refine ⟨isSymbol_of_mem_crowd, hlinked, layout.program, ?_⟩
  by_contra hnone
  have hbelow : ∀ unit offset, OwnStatic bootstrapped (codeOfUnits (crowd n)) unit offset →
      staticCell layout.program unit offset < stackBase := by
    intro unit offset hown
    by_contra hge
    exact hnone ⟨unit, offset, hbuild, hown.used, Nat.not_lt.mp hge⟩
  have hfew := (staticCell_lt_stackBase_iff hlowered hplaced hvars).mp hbelow
  have hcount := le_size_vars_crowd hlowered hplaced
  omega

/-- A pop through a base pointer that is zero sets the stack pointer to the topmost value. -/
theorem exists_setPointer (static : Nat → Nat) {m : Memory} {start : Nat}
    (hsp : sp m = .ofNat 16 (start + 1)) (hlow : Memory.namedCells ≤ start)
    (hhigh : start < ramSize) (hthis : base m .this = 0) :
    ∃ m', moveTop static (.based .this) 0 m = .ok m' ∧ sp m' = m.read start ∧
      ∀ cell, Memory.namedCells ≤ cell → m'.read cell = m.read cell := by
  have hkept : sp (m.write addressCell 0) = sp m := sp_write_of_ne m (by decide) 0
  have hother (cell : Nat) (hcell : Memory.namedCells ≤ cell) :
      ((m.write addressCell 0).write stackPointer (.ofNat 16 start)).read cell = m.read cell := by
    have hnamed := addressCell_lt
    have hpointer := stackPointer_lt
    rw [Memory.read_write_of_ne _ _ (by omega), Memory.read_write_of_ne _ _ (by omega)]
  have hpop : pop (m.write addressCell 0) = .ok (m.read start,
      (m.write addressCell 0).write stackPointer (.ofNat 16 start)) := by
    rw [pop_eq (hkept.trans hsp) hhigh (Nat.lt_of_lt_of_le stackPointer_lt hlow),
      Memory.read_write_of_ne _ _ (Nat.ne_of_lt (Nat.lt_of_lt_of_le addressCell_lt hlow))]
  refine ⟨((m.write addressCell 0).write stackPointer (.ofNat 16 start)).write stackPointer
    (m.read start), ?_, sp_write_stackPointer _ _, ?_⟩
  · have hzero : (0 : Word) + .ofNat 16 0 = 0 := rfl
    rw [moveTop, hthis, hzero, popIndirect, popTo, hpop, ok_bind]
    exact Memory.store_of_lt _ (by decide) _
  · intro cell hcell
    have hpointer := stackPointer_lt
    rw [Memory.read_write_of_ne _ _ (by omega), hother cell hcell]

/-- A program sets the stack pointer to the cell of its static, and then pushes a value. -/
def lowStack : List (String × Text.Source) :=
  [("Main", .ofString "push constant 16\npop this 0\npush constant 7\npush static 0")]

theorem codeOfUnits_lowStack :
    codeOfUnits lowStack = [⟨"Main", none, .push .constant 16⟩,
      ⟨"Main", none, .pop (.based .this) 0⟩, ⟨"Main", none, .push .constant 7⟩,
      ⟨"Main", none, .push .static 0⟩] := by
  decide +kernel

/-- A value is pushed, the pop makes it the stack pointer, and then a push changes the cell of the
static. -/
theorem exists_lowPush (static : Nat → Nat) :
    ∃ m₁ m₂ m₃, push 16 (Memory.zero.write stackPointer (.ofNat 16 stackBase)) = .ok m₁ ∧
      moveTop static (.based .this) 0 m₁ = .ok m₂ ∧ push 7 m₂ = .ok m₃ ∧
      m₂.read variableBase = 0 ∧ m₃.read variableBase = 7 := by
  obtain ⟨m₁, hpush₁, hsp₁, htop₁, hsame₁⟩ := @exists_push
    (Memory.zero.write stackPointer (.ofNat 16 stackBase)) stackBase (sp_write_stackPointer _ _)
    (by decide) (by decide) 16
  have hzero (cell : Nat) (hpointer : cell ≠ stackPointer) (hbase : cell ≠ stackBase) :
      m₁.read cell = 0 := by
    rw [hsame₁ cell hpointer hbase, Memory.read_write_of_ne _ _ (Ne.symm hpointer),
      Memory.read_zero]
  obtain ⟨m₂, hpop, hsp₂, hsame₂⟩ := exists_setPointer static hsp₁ (by decide) (by decide)
    (hzero (baseCell .this) (by decide) (by decide))
  obtain ⟨m₃, hpush₃, -, htop₃, -⟩ :=
    @exists_push m₂ variableBase (hsp₂.trans htop₁) (by decide) (by decide) 7
  refine ⟨m₁, m₂, m₃, hpush₁, hpop, hpush₃, ?_, htop₃⟩
  rw [hsame₂ variableBase (by decide)]
  exact hzero variableBase (by decide) (by decide)

/-- From a memory of zeros, control comes to an operation that puts words on the stack, and this
operation changes a cell. -/
def Overwritten (code : List Placed) (program : Program) (cell : Nat) : Prop :=
  ∃ (position : Nat) (c : Placed) (cpu cpu' : Cpu) (count : Nat), code[position]? = some c ∧
    c.op.pushes ∧ Cpu.steps program count {} = .ok cpu ∧
    cpu.pc = entry bootstrapped code position ∧ Cpu.steps program c.op.size cpu = .ok cpu' ∧
    cpu'.memory.read cell ≠ cpu.memory.read cell

theorem overwritten_of_carries {program : Program}
    (h : Carries bootstrapped (codeOfUnits lowStack) program) :
    Overwritten (codeOfUnits lowStack) program variableBase := by
  have hruns {position : Nat} {c : Placed} (hc : (codeOfUnits lowStack)[position]? = some c)
      {m m' : Memory} (heffect : (imageOf bootstrapped (codeOfUnits lowStack) program).effect
        position c m = .ok (.next, m')) :
      Runs program (duration c m) (entry bootstrapped (codeOfUnits lowStack) position) m
        (.ok (entry bootstrapped (codeOfUnits lowStack) (position + 1), m')) := by
    have hoperation := h.runs_operation hc m
    rwa [heffect] at hoperation
  obtain ⟨m₁, m₂, m₃, hpush₁, hpop, hpush₃, hbefore, hafter⟩ :=
    exists_lowPush (staticCell program "Main")
  have hboot : Runs program 4 0 Memory.zero
      (.ok (4, Memory.zero.write stackPointer (.ofNat 16 stackBase))) :=
    Runs.of_yields h.built.boot rfl (performs_bootstrap program 0 Memory.zero)
  have hfirst := @hruns 0 ⟨"Main", none, .push .constant 16⟩
    (by rw [codeOfUnits_lowStack]; rfl) (Memory.zero.write stackPointer (.ofNat 16 stackBase)) m₁
    (bind_eq_ok_iff.mpr ⟨16, rfl, bind_eq_ok_iff.mpr ⟨m₁, hpush₁, rfl⟩⟩)
  have hsecond := @hruns 1 ⟨"Main", none, .pop (.based .this) 0⟩
    (by rw [codeOfUnits_lowStack]; rfl) m₁ m₂ (bind_eq_ok_iff.mpr ⟨m₂, hpop, rfl⟩)
  have hthird := @hruns 2 ⟨"Main", none, .push .constant 7⟩
    (by rw [codeOfUnits_lowStack]; rfl) m₂ m₃
    (bind_eq_ok_iff.mpr ⟨7, rfl, bind_eq_ok_iff.mpr ⟨m₃, hpush₃, rfl⟩⟩)
  obtain ⟨cpu, hsteps, hpc, hmemory⟩ :=
    @Runs.exists_steps _ _ _ _ {} ((hboot.trans hfirst).trans hsecond)
  rw [← hpc, ← hmemory] at hthird
  obtain ⟨cpu', hsteps', -, hmemory'⟩ := hthird.exists_steps
  refine ⟨2, ⟨"Main", none, .push .constant 7⟩, cpu, cpu', _, by rw [codeOfUnits_lowStack]; rfl,
    rfl, hsteps, hpc, hsteps', ?_⟩
  rw [hmemory', hmemory, hafter, hbefore]
  decide

/-- Statics need not be between the registers and the stack: the symbol of a static may be that of a
function, whose address its use loads, and there may be more statics than cells below the stack. A
push may change a static when the stack pointer is not above it. -/
theorem statics_on_stack :
    UsesCell [("Main", .ofString "push static 0\nfunction Main.0 0")]
        (fun _ cell => cell < variableBase) ∧
      UsesCell (crowd 241) (fun _ cell => stackBase ≤ cell) ∧
      UsesCell lowStack (Overwritten (codeOfUnits lowStack)) := by
  refine ⟨?shared, usesCell_crowd (by decide) (by decide), ?low⟩
  case shared =>
    have hcode : codeOfUnits [("Main", .ofString "push static 0\nfunction Main.0 0")] =
        [⟨"Main", none, .push .static 0⟩, ⟨"Main", none, .function "Main.0" 0⟩] := by
      decide +kernel
    obtain ⟨layout, hbuild, hcell⟩ := @exists_layout_of_any bootstrapped _ _
      (fun layout => staticCell layout.program "Main" 0 < variableBase) (by decide)
      (by decide +kernel) hcode (by decide +kernel)
    refine ⟨by decide, ?_, layout.program, "Main", 0, hbuild, ?_, of_decide_eq_true hcell⟩
    · rw [hcode]
      decide
    · rw [usesStatic_iff, hcode]
      decide
  case low =>
    have hunits : ∀ unit ∈ lowStack, isSymbol unit.1.toList := by decide
    obtain ⟨layout, hbuild, hcell⟩ := @exists_layout_of_any bootstrapped lowStack _
      (fun layout => staticCell layout.program "Main" 0 = variableBase) hunits
      (by decide +kernel) codeOfUnits_lowStack (by decide +kernel)
    have hlinked : Linked (codeOfUnits lowStack) := by rw [codeOfUnits_lowStack]; decide
    have hcarries : Carries bootstrapped (codeOfUnits lowStack) layout.program := by
      refine ⟨built_of_build hbuild, ?_, fun c hc => (named_of_mem_codeOfUnits c hc).1, hlinked, ?_⟩
      · intro c hc
        obtain ⟨-, unit, hunit, hname⟩ := named_of_mem_codeOfUnits c hc
        exact hname ▸ hunits unit hunit
      · rw [codeOfUnits_lowStack]
        decide
    refine ⟨hunits, hlinked, layout.program, "Main", 0, hbuild, ?_, ?_⟩
    · rw [usesStatic_iff, codeOfUnits_lowStack]
      decide
    · rw [of_decide_eq_true hcell]
      exact overwritten_of_carries hcarries

end Codegen

end HackBackend
