import HackBackend.Proofs.Codegen.Simulation
import HackBackend.Proofs.StackMachine.Frame

/-!
# Calls and returns of a built program

The instructions of a call and of the function that is called build a frame above the arguments
and clear the locals; those of a return find the frame again. A call comes back to the address
of its return label, with one result in place of the arguments and the base pointers as they
were. The names of units do not matter, since no label of a call or a function is made from one.
-/

namespace HackBackend.Codegen

open Asm Machine Vm StackMachine

/-- The memory once a function with some arguments and locals has been entered by a call that was
made with the stack up to an address. -/
structure Entered (called entered : Memory) (start args locals : Nat) (returnAddress : Word) :
    Prop where
  frame : HasFrame entered start returnAddress (base called)
  argumentsBase : base entered .arguments = .ofNat 16 (start - args)
  localsBase : base entered .locals = .ofNat 16 (start + savedWords)
  stack : sp entered = .ofNat 16 (start + savedWords + locals)
  zeros : ∀ i < locals, entered.read (start + savedWords + i) = 0
  arguments : ∀ i < args, entered.read (start - args + i) = called.read (start - args + i)
  kept : ∀ cell, 2 < cell → (cell < start ∨ start + savedWords + locals ≤ cell) →
    entered.read cell = called.read cell

/-- The memory after a return to a call, given that from before the return. -/
structure Returned (called leaving returned : Memory) (start args top : Nat) : Prop where
  bases : ∀ b, base returned b = base called b
  stack : sp returned = .ofNat 16 (start - args + 1)
  result : returned.read (start - args) = leaving.read top
  kept : ∀ cell, 4 < cell → cell ≠ start - args → cell ≠ frameCell → cell ≠ returnCell →
    returned.read cell = leaving.read cell

/-- A frame and the locals of the function that is called are put on the stack. -/
theorem exists_entered {m : Memory} {start args locals : Nat} (hsp : sp m = .ofNat 16 start)
    (hargs : args + 16 ≤ start) (hroom : start + savedWords + locals ≤ ramSize)
    (returnAddress : Nat) :
    ∃ m₁ m₂, enterCall returnAddress args m = .ok m₁ ∧ enterFunction locals m₁ = .ok m₂ ∧
      Entered m m₂ start args locals (.ofNat 16 returnAddress) := by
  obtain ⟨m₁, hm₁, hframe, harguments, hlocals, hsp₁, hkept₁⟩ :=
    exists_enterCall hsp (by omega) (by omega) returnAddress args
  obtain ⟨m₂, hm₂, hsp₂, hzeros, hkept₂⟩ := exists_enterFunction hsp₁ (by omega) hroom
  have hsame (cell : Nat) (hlow : cell ≠ 0) (hcell : cell < start + savedWords) :
      m₂.read cell = m₁.read cell := hkept₂ cell hlow (.inl hcell)
  have hsize : savedWords = 5 := rfl
  refine ⟨m₁, m₂, hm₁, hm₂, ⟨?_, ?_, ?_, ?_, ?_⟩, ?_, ?_, hsp₂, hzeros, ?_, ?_⟩
  · rw [hsame _ (by omega) (by omega), hframe.returnAddress]
  · rw [hsame _ (by omega) (by omega), hframe.locals]
  · rw [hsame _ (by omega) (by omega), hframe.arguments]
  · rw [hsame _ (by omega) (by omega), hframe.this]
  · rw [hsame _ (by omega) (by omega), hframe.that]
  · have hsum : start + savedWords = start - args + (args + savedWords) := by omega
    have hless : BitVec.ofNat 16 (start + savedWords) - BitVec.ofNat 16 (args + savedWords) =
        BitVec.ofNat 16 (start - args) := by
      rw [hsum]
      exact ofNat_add_sub _ _
    rw [← hless, ← harguments]
    exact hsame 2 (by decide) (by omega)
  · rw [← hlocals]
    exact hsame 1 (by decide) (by omega)
  · intro i hi
    rw [hsame _ (by omega) (by omega), hkept₁ _ (by omega) (.inl (by omega))]
  · intro cell hcell hout
    rw [hkept₂ cell (by omega) (by omega), hkept₁ cell hcell (by omega)]

namespace Built

variable {options : Options} {code : List Placed} {program : Program}
variable (h : Built options code program)

include h

/-- A call pushes the address of its return label, where the next operation stands, and goes to
the function that it names. -/
theorem runs_call {caller callee : Nat} {c d : Placed} (hc : code[caller]? = some c)
    (hd : code[callee]? = some d) (hcNamed : c.Named) (hdNamed : d.Named) {name : String}
    {args locals : Nat} (hcall : c.op = .call name args) (hfunction : d.op = .function name locals)
    (hfree : predefined? name = none) (m : Memory) :
    program.labels[((countersAt options code caller).site c).returnSymbol name]? =
        some (entry options code (caller + 1)) ∧
      Runs program c.op.size (entry options code caller) m (do
        let m ← enterCall (entry options code (caller + 1)) args m
        .ok (entry options code callee, m)) := by
  obtain ⟨-, hlabels⟩ := h.stands_call hc hcNamed hcall
  obtain ⟨-, hlabelsCallee⟩ := h.stands_function hd hdNamed hfunction
  have hcallee : program.labels[name]? = some (entry options code callee) :=
    hlabelsCallee [] name (zeroLocals locals) rfl
  have hnext : entry options code (caller + 1) = entry options code caller + 47 := by
    rw [entry_succ hc, hcall]
    rfl
  have hreturn : program.labels[((countersAt options code caller).site c).returnSymbol name]? =
      some (entry options code (caller + 1)) := by
    rw [hnext]
    exact hlabels (Codegen.codeOf (callBatches name
      (((countersAt options code caller).site c).returnSymbol name) args)).dropLast _ [] rfl
  have hreturnFree : predefined? (((countersAt options code caller).site c).returnSymbol name) =
      none := predefined?_eq_none_of_mem (.inl rfl) (by simp [Site.returnSymbol])
  have haddress := Program.address_of_label hfree hcallee
  have hlt : program.address name < romSize := haddress ▸ h.labels_lt hcallee
  have hruns := h.runs_callCode hc hcNamed hcall hlt m
  rw [haddress, Program.address_of_label hreturnFree hreturn] at hruns
  exact ⟨hreturn, hruns⟩

theorem runs_function {position : Nat} {c : Placed} (hc : code[position]? = some c)
    (hnamed : c.Named) {name : String} {locals : Nat} (hop : c.op = .function name locals)
    (m : Memory) :
    Runs program c.op.size (entry options code position) m (do
      let m ← enterFunction locals m
      .ok (entry options code (position + 1), m)) := by
  obtain ⟨hholds, -⟩ := h.stands_function hc hnamed hop
  have hsize : (functionCode name locals).countP Line.isInstruction = c.op.size := by
    rw [hop, functionCode, List.countP_cons_of_neg (by simp [Line.isInstruction]),
      countP_zeroLocals]
    rfl
  exact runs_of_performs hc hholds hsize (dropLast_fallsThrough_function program name locals)
    (performs_function program name locals) m

theorem runs_return {position : Nat} {c : Placed} (hc : code[position]? = some c)
    (hop : c.op = .ret) (m : Memory) :
    Runs program c.op.size (entry options code position) m (do
      let m ← leaveCall m
      .ok ((m.read returnCell).toNat, m)) := by
  obtain ⟨hholds, -⟩ := h.stands_return hc hop
  rw [hop]
  exact Runs.of_yields hholds rfl (yields_return program _ m)

end Built

/-- Every call of a function of a built program enters it with the frame on the stack, and every
return that finds the frame comes back to the return label of the call. -/
theorem call_and_return {options : Options} {units : List (String × Text.Source)}
    {program : Program} (hbuild : build options units = .ok program)
    {caller callee : Nat} {c d : Placed} (hc : (codeOfUnits units)[caller]? = some c)
    (hd : (codeOfUnits units)[callee]? = some d) {name : String} {args locals : Nat}
    (hcall : c.op = .call name args) (hfunction : d.op = .function name locals)
    (hfree : predefined? name = none) {cpu : Cpu} {start : Nat}
    (hpc : cpu.pc = entry options (codeOfUnits units) caller)
    (hsp : sp cpu.memory = .ofNat 16 start) (hargs : args + 16 ≤ start)
    (hroom : start + savedWords + locals ≤ ramSize) :
    let returnAddress := entry options (codeOfUnits units) (caller + 1)
    program.labels[((countersAt options (codeOfUnits units) caller).site c).returnSymbol name]? =
        some returnAddress ∧
      (∃ entered, Cpu.steps program (c.op.size + d.op.size) cpu = .ok entered ∧
        entered.pc = entry options (codeOfUnits units) (callee + 1) ∧
        Entered cpu.memory entered.memory start args locals (.ofNat 16 returnAddress)) ∧
      ∀ {position : Nat} {e : Placed} {leaving : Cpu} {top : Nat},
        (codeOfUnits units)[position]? = some e → e.op = .ret →
        leaving.pc = entry options (codeOfUnits units) position →
        HasFrame leaving.memory start (.ofNat 16 returnAddress) (base cpu.memory) →
        base leaving.memory .locals = .ofNat 16 (start + savedWords) →
        base leaving.memory .arguments = .ofNat 16 (start - args) →
        sp leaving.memory = .ofNat 16 (top + 1) → 16 ≤ top → top < ramSize →
        ∃ returned, Cpu.steps program e.op.size leaving = .ok returned ∧
          returned.pc = returnAddress ∧
          Returned cpu.memory leaving.memory returned.memory start args top := by
  intro returnAddress
  have hbuilt := built_of_build hbuild
  have hcNamed := (named_of_mem_codeOfUnits c (List.mem_of_getElem? hc)).1
  have hdNamed := (named_of_mem_codeOfUnits d (List.mem_of_getElem? hd)).1
  obtain ⟨hlabel, hruns⟩ :=
    hbuilt.runs_call hc hd hcNamed hdNamed hcall hfunction hfree cpu.memory
  refine ⟨hlabel, ?_, ?_⟩
  · obtain ⟨m₁, m₂, hm₁, hm₂, hentered⟩ := exists_entered hsp hargs hroom
      (entry options (codeOfUnits units) (caller + 1))
    have hboth : Runs program (c.op.size + d.op.size) cpu.pc cpu.memory
        (.ok (entry options (codeOfUnits units) (callee + 1), m₂)) := by
      have hfirst : Runs program c.op.size cpu.pc cpu.memory
          (.ok (entry options (codeOfUnits units) callee, m₁)) := by
        rw [hpc]
        simpa only [hm₁, ok_bind] using hruns
      have hlast : Runs program d.op.size (entry options (codeOfUnits units) callee) m₁
          (.ok (entry options (codeOfUnits units) (callee + 1), m₂)) := by
        simpa only [hm₂, ok_bind] using hbuilt.runs_function hd hdNamed hfunction m₁
      exact hfirst.trans hlast
    obtain ⟨entered, hsteps, hafter, hmemory⟩ := hboth.exists_steps
    exact ⟨entered, hsteps, hafter, hmemory ▸ hentered⟩
  · intro position e leaving top he hop hleaving hframe hlocals harguments htop hlow hhigh
    obtain ⟨m', hm', hreturnCell, hbases, hsp', hresult, hkept⟩ :=
      exists_leaveCall hframe hlocals harguments hargs (by omega) htop hlow hhigh
    have haddress : (BitVec.ofNat 16 returnAddress).toNat = returnAddress :=
      toNat_ofNat_of_lt (hbuilt.labels_lt hlabel)
    have hreturn := hbuilt.runs_return he hop leaving.memory
    simp only [hm', ok_bind, hreturnCell, haddress, ← hleaving] at hreturn
    obtain ⟨returned, hsteps, hafter, hmemory⟩ := hreturn.exists_steps
    exact ⟨returned, hsteps, hafter, hmemory ▸ ⟨hbases, hsp', hresult, hkept⟩⟩

/-- A unit that calls a function which gives back its argument. -/
def identityCall : List (String × Text.Source) :=
  [("Main", .ofString
    "call same 1\nlabel END\ngoto END\nfunction same 2\npush argument 0\nreturn")]

theorem codeOfUnits_identityCall :
    codeOfUnits identityCall = [⟨"Main", none, .call "same" 1⟩, ⟨"Main", none, .label "END"⟩,
      ⟨"Main", none, .goto "END"⟩, ⟨"Main", none, .function "same" 2⟩,
      ⟨"Main", some "same", .push (.based .arguments) 0⟩, ⟨"Main", some "same", .ret⟩] := by
  decide +kernel

/-- The call of that unit enters its function, from which a return at once comes back. -/
theorem call_and_return_identityCall :
    ∃ program, build {} identityCall = .ok program ∧
      ∃ entered, Cpu.steps program 56
          ⟨⟨0, 0, 0⟩, Memory.zero.write stackPointer (.ofNat 16 300)⟩ = .ok entered ∧
        entered.pc = entry {} (codeOfUnits identityCall) 4 ∧
        Entered (Memory.zero.write stackPointer (.ofNat 16 300)) entered.memory 300 1 2
          (.ofNat 16 (entry {} (codeOfUnits identityCall) 1)) ∧
        ∃ returned, Cpu.steps program 42
            ⟨⟨0, 0, entry {} (codeOfUnits identityCall) 5⟩, entered.memory⟩ = .ok returned ∧
          returned.pc = entry {} (codeOfUnits identityCall) 1 ∧
          Returned (Memory.zero.write stackPointer (.ofNat 16 300)) entered.memory
            returned.memory 300 1 306 := by
  obtain ⟨program, hbuild⟩ := @exists_build_of_layout? {} identityCall _ (by decide)
    (by decide +kernel) codeOfUnits_identityCall (by decide +kernel)
  have hc : (codeOfUnits identityCall)[0]? = some ⟨"Main", none, .call "same" 1⟩ := by
    rw [codeOfUnits_identityCall]
    rfl
  have hd : (codeOfUnits identityCall)[3]? = some ⟨"Main", none, .function "same" 2⟩ := by
    rw [codeOfUnits_identityCall]
    rfl
  have he : (codeOfUnits identityCall)[5]? = some ⟨"Main", some "same", .ret⟩ := by
    rw [codeOfUnits_identityCall]
    rfl
  have hsp : sp (Memory.zero.write stackPointer (.ofNat 16 300)) = .ofNat 16 300 :=
    Memory.read_write_self _ _ (by decide)
  obtain ⟨-, ⟨entered, hsteps, hpc, hentered⟩, hreturn⟩ := call_and_return hbuild hc hd rfl rfl
    (by decide +kernel)
    (show (⟨⟨0, 0, 0⟩, Memory.zero.write stackPointer (.ofNat 16 300)⟩ : Cpu).pc =
      entry {} (codeOfUnits identityCall) 0 from rfl) hsp (by decide) (by decide)
  refine ⟨program, hbuild, entered, hsteps, hpc, hentered, ?_⟩
  obtain ⟨hframe, harguments, hlocals, hstack, -, -, -⟩ := hentered
  exact @hreturn 5 _ ⟨⟨0, 0, entry {} (codeOfUnits identityCall) 5⟩, entered.memory⟩ 306 he rfl
    rfl hframe hlocals harguments hstack (by decide) (by decide)

end HackBackend.Codegen
