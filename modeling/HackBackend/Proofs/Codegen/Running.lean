import HackBackend.Proofs.Codegen.Simulation
import HackBackend.Proofs.StackMachine.Frame

/-!
# Whole runs of a built program

Started at its first instruction, a built program stays in step with the stack machine for as
long as that takes steps, and it stops as the stack machine stops: with the same fault, or in the
halt loop once the code is at its end.
-/

namespace HackBackend.Codegen

open Asm Machine Vm StackMachine Text

/-- The memory that the first operation finds. -/
def bootMemory (options : Options) (m : Memory) : Memory :=
  if options.bootstrap then m.write stackPointer (.ofNat 16 stackBase) else m

/-- What a run of the stack machine says about the machine. -/
def Agrees (options : Options) (code : List Placed) (program : Program) :
    Except Stop State → Except Fault Cpu → Prop
  | .ok s, machine => ∃ cpu, machine = .ok cpu ∧ Represents options code s cpu
  | .error (.fault fault), machine => machine = .error fault
  | .error .finished, machine => ∃ cpu, machine = .ok cpu ∧
      program.labels[haltLabel]? = some cpu.pc ∧
        ∀ k, ∃ later, Cpu.steps program k cpu = .ok later ∧ later.memory = cpu.memory
  | .error (.undefined _), _ => False
  | .error (.lost address), machine => ∃ cpu, machine = .ok cpu ∧ cpu.pc = address.toNat

/-- In the halt loop control goes around two instructions, the second of which jumps. -/
def Halting (halt : Nat) (cpu : Cpu) : Prop :=
  cpu.pc = halt ∨ cpu.pc = halt + 1 ∧ cpu.a.toNat = halt

theorem halting_step {program : Program} {halt : Nat}
    (hholds : Holds program halt [.load halt, .compute .nowhere .zero .always])
    (hlt : halt < romSize) {cpu : Cpu} (h : Halting halt cpu) :
    ∃ next, cpu.step program = .ok next ∧ next.memory = cpu.memory ∧ Halting halt next := by
  obtain ⟨⟨a, d, pc⟩, m⟩ := cpu
  rcases h with hpc | ⟨hpc, ha⟩
  · obtain rfl : pc = halt := hpc
    refine ⟨⟨⟨.ofNat 16 pc, d, pc + 1⟩, m⟩, ?_, rfl, .inr ⟨rfl, toNat_ofNat_of_lt hlt⟩⟩
    rw [Cpu.step_eq_perform hholds.head, Cpu.perform_load]
  · obtain rfl : pc = halt + 1 := hpc
    refine ⟨⟨⟨a, d, halt⟩, m⟩, ?_, rfl, .inl rfl⟩
    rw [Cpu.step_eq_perform hholds.tail.head, Cpu.perform_jump Comp.readsMemory_zero]
    simp only [Jump.taken, if_true]
    rw [← ha]

theorem halting_steps {program : Program} {halt : Nat}
    (hholds : Holds program halt [.load halt, .compute .nowhere .zero .always])
    (hlt : halt < romSize) (k : Nat) {cpu : Cpu} (h : Halting halt cpu) :
    ∃ later, Cpu.steps program k cpu = .ok later ∧ later.memory = cpu.memory := by
  induction k generalizing cpu with
  | zero => exact ⟨cpu, rfl, rfl⟩
  | succ k ih =>
      obtain ⟨next, hstep, hmemory, hnext⟩ := halting_step hholds hlt h
      obtain ⟨later, hsteps, hlater⟩ := ih hnext
      exact ⟨later, by rw [Cpu.steps, hstep, ok_bind, hsteps], hlater.trans hmemory⟩

namespace Carries

variable {options : Options} {code : List Placed} {program : Program}
variable (h : Carries options code program)

include h

/-- The bootstrap comes to the first operation. -/
theorem boot_represents (a d : Word) (m : Memory) :
    ∃ cpu, Cpu.steps program (entry options code 0) ⟨⟨a, d, 0⟩, m⟩ = .ok cpu ∧
      Represents options code ⟨0, bootMemory options m⟩ cpu := by
  have hentry : entry options code 0 = (bootCode options).countP Line.isInstruction := rfl
  have hboot := h.built.boot
  cases hbootstrap : options.bootstrap with
  | false =>
      have hzero : entry options code 0 = 0 := by simp [hentry, bootCode, hbootstrap]
      rw [hzero]
      exact ⟨_, rfl, hzero.symm, by simp [bootMemory, hbootstrap]⟩
  | true =>
      have hcode : bootCode options = bootstrapBatch.code := by simp [bootCode, hbootstrap]
      rw [hcode] at hboot
      have hruns := Runs.of_yields hboot rfl (performs_bootstrap program 0 m)
      rw [Program.length_linked, ← hcode, ← hentry, Nat.zero_add] at hruns
      simpa [Represents, bootMemory, hbootstrap] using
        @Runs.exists_steps program _ _ _ ⟨⟨a, d, 0⟩, m⟩ hruns

/-- At the end of the code the program is in its halt loop for good. -/
theorem agrees_finished {s : State} {cpu : Cpu} (hrep : Represents options code s cpu)
    (hend : s.position = code.length) :
    Agrees options code program (.error .finished) (.ok cpu) := by
  obtain ⟨hpc, hmemory⟩ := hrep
  rw [hend] at hpc
  obtain ⟨hholds, hlabels⟩ := h.built.halt
  have hlabel : program.labels[haltLabel]? = some (entry options code code.length) :=
    hlabels [] haltLabel (gotoCode haltLabel) rfl
  have hlt := h.built.labels_lt hlabel
  have hfree : predefined? haltLabel = none := by decide +kernel
  have haddress := Program.address_of_label hfree hlabel
  refine ⟨cpu, rfl, by rw [hpc, hlabel], fun k => ?_⟩
  refine @halting_steps program (entry options code code.length) ?_ hlt k cpu (.inl hpc)
  simpa [haltBatch, gotoCode, haddress] using hholds

/-- The machine agrees with the stack machine after any number of steps. -/
theorem run_agrees (n : Nat) {s : State} {cpu : Cpu} (hrep : Represents options code s cpu)
    (hposition : s.position ≤ code.length) :
    Agrees options code program ((imageOf options code program).run n s)
      (Cpu.steps program ((imageOf options code program).elapsed n s) cpu) := by
  induction n generalizing s cpu with
  | zero => exact ⟨cpu, rfl, hrep⟩
  | succ n ih =>
      cases hc : code[s.position]? with
      | none =>
          have hend : s.position = code.length :=
            Nat.le_antisymm hposition (List.getElem?_eq_none_iff.mp hc)
          have hnone : (imageOf options code program).code[s.position]? = none := hc
          have hstop : (imageOf options code program).step s = .error .finished := by
            rw [Image.step, hnone]
          simp only [Image.run, Image.elapsed, hnone, hstop]
          exact h.agrees_finished hrep hend
      | some c =>
          have hsome : (imageOf options code program).code[s.position]? = some c := hc
          cases hstep : (imageOf options code program).step s with
          | ok s' =>
              obtain ⟨cpu', hsteps, hrep'⟩ := h.step_simulates hrep hc hstep
              simp only [Image.run, Image.elapsed, hsome, hstep, Cpu.steps_add, hsteps, ok_bind]
              exact ih hrep' (Image.position_le_of_step hstep)
          | error stop =>
              simp only [Image.run, Image.elapsed, hsome, hstep, Nat.add_zero]
              rcases Image.step_eq_error hstep with ⟨hnone, -⟩ | ⟨d, hd, hcause⟩
              · rw [hsome] at hnone
                cases hnone
              · obtain rfl : c = d := Option.some.inj (hsome.symm.trans hd)
                rcases hcause with ⟨fault, heffect, rfl⟩ | ⟨symbol, -, -, rfl⟩ | ⟨m, heffect, rfl⟩
                · exact h.fault_simulates hrep hc heffect
                · exact absurd hstep (h.step_ne_undefined s symbol)
                · exact h.lost_simulates hrep hc heffect

end Carries

/-- An operation without instructions is followed by the next one. -/
theorem advance_of_step {image : Image} {s s' : State} {c : Placed}
    (hc : image.code[s.position]? = some c) (hstep : image.step s = .ok s') :
    0 < duration c s.memory ∨ s'.position = s.position + 1 := by
  obtain ⟨d, control, hd, heffect, hfollow⟩ := Image.step_eq_ok_iff.mp hstep
  obtain rfl : c = d := Option.some.inj (hc.symm.trans hd)
  obtain ⟨unit, function, op⟩ := c
  cases op with
  | label name =>
      obtain ⟨rfl, -⟩ := Prod.mk.inj (Except.ok.inj heffect)
      exact .inr (Except.ok.inj hfollow).symm
  | function name locals =>
      obtain ⟨m, -, hresult⟩ := bind_eq_ok_iff.mp heffect
      obtain ⟨rfl, -⟩ := Prod.mk.inj (Except.ok.inj hresult)
      exact .inr (Except.ok.inj hfollow).symm
  | compare r =>
      refine .inl ?_
      simp only [duration, compareDuration]
      split
      · split <;> decide
      · decide
  | push segment offset => exact .inl (by cases segment <;> exact Nat.succ_pos _)
  | pop segment offset => exact .inl (by cases segment <;> exact Nat.succ_pos _)
  | _ => exact .inl (by simp only [duration, Operation.size]; decide)

/-- Only a bounded number of steps can be taken without an instruction. -/
theorem le_elapsed {image : Image} (n : Nat) {s s' : State} (hrun : image.run n s = .ok s') :
    n + s.position ≤ image.elapsed n s * (image.code.length + 1) + s'.position := by
  induction n generalizing s with
  | zero =>
      obtain rfl := Except.ok.inj hrun
      simp [Image.elapsed]
  | succ n ih =>
      rw [Image.run] at hrun
      cases hstep : image.step s with
      | error stop => simp [hstep] at hrun
      | ok next =>
          have hrest := ih (by simpa [hstep] using hrun)
          obtain ⟨c, control, hc, -, -⟩ := Image.step_eq_ok_iff.mp hstep
          obtain ⟨hlt, -⟩ := List.getElem?_eq_some_iff.mp hc
          simp only [Image.elapsed, hc, hstep, Nat.add_mul]
          rcases advance_of_step hc hstep with hpos | hnext
          · have hmul := Nat.le_mul_of_pos_left (image.code.length + 1) hpos
            omega
          · rw [hnext] at hrest
            omega

/-- A unit that puts a number on the stack and then goes around in a loop. -/
def sevenForever : List (String × Text.Source) :=
  [("Main", .ofString "push constant 7\nlabel END\ngoto END")]

theorem codeOfUnits_sevenForever :
    codeOfUnits sevenForever = [⟨"Main", none, .push .constant 7⟩, ⟨"Main", none, .label "END"⟩,
      ⟨"Main", none, .goto "END"⟩] := by
  decide +kernel

/-- Between the label and the branch of that unit the stack machine goes around. -/
theorem sevenForever_loops {image : Image} (hcode : image.code = codeOfUnits sevenForever)
    (n : Nat) (m : Memory) : ∀ position ∈ [1, 2], ∃ s, image.run n ⟨position, m⟩ = .ok s := by
  rw [codeOfUnits_sevenForever] at hcode
  have hlabel : image.code[1]? = some ⟨"Main", none, .label "END"⟩ := by rw [hcode]; rfl
  have hgoto : image.code[2]? = some ⟨"Main", none, .goto "END"⟩ := by rw [hcode]; rfl
  have hplace : image.placeOf? ((⟨"Main", none, .goto "END"⟩ : Placed).labelSymbol "END") =
      some 1 := by
    rw [Image.placeOf?, hcode]
    decide +kernel
  induction n with
  | zero => exact fun position _ => ⟨⟨position, m⟩, rfl⟩
  | succ n ih =>
      intro position hposition
      rcases List.mem_pair.mp hposition with rfl | rfl
      · have hstep : image.step ⟨1, m⟩ = .ok ⟨2, m⟩ :=
          Image.step_eq_ok_iff.mpr ⟨_, .next, hlabel, rfl, rfl⟩
        rw [Image.run, hstep]
        exact ih 2 (by simp)
      · have hstep : image.step ⟨2, m⟩ = .ok ⟨1, m⟩ := Image.step_eq_ok_iff.mpr
          ⟨_, .goTo _, hgoto, rfl, Image.follow_goTo_eq_ok_iff.mpr hplace⟩
        rw [Image.run, hstep]
        exact ih 1 (by simp)

/-- From an empty stack on, the stack machine never stops in that unit. -/
theorem sevenForever_runs {image : Image} (hcode : image.code = codeOfUnits sevenForever)
    {start : Memory} (hsp : sp start = .ofNat 16 256) (n : Nat) :
    ∃ s, image.run n ⟨0, start⟩ = .ok s := by
  cases n with
  | zero => exact ⟨⟨0, start⟩, rfl⟩
  | succ n =>
      have hpush : image.code[0]? = some ⟨"Main", none, .push .constant 7⟩ := by
        rw [hcode, codeOfUnits_sevenForever]
        rfl
      obtain ⟨m, hm, -⟩ := exists_push hsp (by decide) (by decide) (.ofNat 16 7)
      have hstep : image.step ⟨0, start⟩ = .ok ⟨1, m⟩ := by
        refine Image.step_eq_ok_iff.mpr ⟨_, .next, hpush, ?_, rfl⟩
        simp only [Image.effect, fetch, address?, ok_bind, hm]
      rw [Image.run, hstep]
      exact sevenForever_loops hcode n m 1 (by simp)

/-- A unit that calls a function with the name of a predefined symbol. -/
def keyboardCall : List (String × Text.Source) :=
  [("Main", .ofString
    "call KBD 0\nlabel END\ngoto END\nfunction KBD 0\npush constant 7\nreturn")]

theorem codeOfUnits_keyboardCall :
    codeOfUnits keyboardCall = [⟨"Main", none, .call "KBD" 0⟩, ⟨"Main", none, .label "END"⟩,
      ⟨"Main", none, .goto "END"⟩, ⟨"Main", none, .function "KBD" 0⟩,
      ⟨"Main", some "KBD", .push .constant 7⟩, ⟨"Main", some "KBD", .ret⟩] := by
  decide +kernel

/-- Control of the machine goes through the call to the address of the keyboard and no further, for
there are fewer instructions than that. -/
theorem keyboardCall_pc {program : Program} (hbuild : build {} keyboardCall = .ok program)
    (hsize : program.instructions.size = 100) {cpu after : Cpu} {k : Nat} (hpc : cpu.pc = 0)
    (hsp : sp cpu.memory = .ofNat 16 256) (hsteps : Cpu.steps program k cpu = .ok after) :
    after.pc ≤ 46 ∨ after.pc = keyboard := by
  have hc : (codeOfUnits keyboardCall)[0]? = some ⟨"Main", none, .call "KBD" 0⟩ := by
    rw [codeOfUnits_keyboardCall]
    rfl
  have hnamed := (named_of_mem_codeOfUnits _ (List.mem_of_getElem? hc)).1
  have haddress : program.address "KBD" = keyboard :=
    Program.address_of_predefined (by decide +kernel) program
  have hentry : entry {} (codeOfUnits keyboardCall) 0 = cpu.pc := hpc.symm
  by_cases hk : k ≤ 46
  · -- Control is on its way through the instructions of the call.
    obtain ⟨hholds, -⟩ := (built_of_build hbuild).stands_call hc hnamed rfl
    rw [hentry] at hholds
    have hmoved := Cpu.pc_of_steps hholds.dropLast rfl hk hsteps
    exact .inl (by omega)
  · -- Control has gone to the address of the keyboard, behind the last instruction.
    obtain ⟨j, rfl⟩ : ∃ j, k = 47 + j := ⟨k - 47, by omega⟩
    have hruns := (built_of_build hbuild).runs_callCode hc hnamed rfl
      (by rw [haddress]; decide) cpu.memory
    obtain ⟨m, hm, -⟩ := exists_enterCall hsp (by decide) (by decide)
      (program.address (((countersAt {} (codeOfUnits keyboardCall) 0).site
        ⟨"Main", none, .call "KBD" 0⟩).returnSymbol "KBD")) 0
    rw [hm, ok_bind, haddress, hentry] at hruns
    obtain ⟨called, hcalled, hcalledPc, -⟩ := hruns.exists_steps
    have hsum : Cpu.steps program (47 + j) cpu = Cpu.steps program j called := by
      rw [Cpu.steps_add]
      exact congrArg (· >>= Cpu.steps program j) hcalled
    have hnone : program.instructions[called.pc]? = none :=
      Array.getElem?_eq_none (by rw [hcalledPc, hsize]; decide)
    rw [Cpu.eq_of_steps hnone (hsum.symm.trans hsteps)]
    exact .inr hcalledPc

end HackBackend.Codegen
