import HackBackend.Proofs.Machine.Access

/-!
# Running a row of instructions

Where a row of instructions stands in a program and none of them jumps before the last, as many
steps as there are instructions carry out the row. An address outside the memory ends the steps
with the same fault as it ends the row.
-/

namespace HackBackend

namespace Asm

variable (d a m : Word)

@[simp] theorem Comp.eval_zero : Comp.zero.eval d a m = 0 := rfl

@[simp] theorem Comp.eval_minusOne : Comp.minusOne.eval d a m = -1 := rfl

@[simp] theorem Comp.eval_copy_d : (Comp.copy .d).eval d a m = d := rfl

@[simp] theorem Comp.eval_copy_a : (Comp.copy .a).eval d a m = a := rfl

@[simp] theorem Comp.eval_copy_m : (Comp.copy .m).eval d a m = m := rfl

@[simp] theorem Comp.eval_inc_a : (Comp.inc .a).eval d a m = a + 1 := rfl

@[simp] theorem Comp.eval_inc_m : (Comp.inc .m).eval d a m = m + 1 := rfl

@[simp] theorem Comp.eval_dec_a : (Comp.dec .a).eval d a m = a - 1 := rfl

@[simp] theorem Comp.eval_dec_m : (Comp.dec .m).eval d a m = m - 1 := rfl

@[simp] theorem Comp.eval_add_a : (Comp.add .a).eval d a m = d + a := rfl

@[simp] theorem Comp.eval_sub_a : (Comp.sub .a).eval d a m = d - a := rfl

@[simp] theorem Comp.eval_subFrom_m : (Comp.subFrom .m).eval d a m = m - d := rfl

@[simp] theorem Comp.readsMemory_copy (x : Register) :
    (Comp.copy x).readsMemory = decide (x = .m) := rfl

@[simp] theorem Comp.readsMemory_inc (x : Register) :
    (Comp.inc x).readsMemory = decide (x = .m) := rfl

@[simp] theorem Comp.readsMemory_dec (x : Register) :
    (Comp.dec x).readsMemory = decide (x = .m) := rfl

@[simp] theorem Comp.readsMemory_add (y : Input) :
    (Comp.add y).readsMemory = decide (y = .m) := rfl

@[simp] theorem Comp.readsMemory_sub (y : Input) :
    (Comp.sub y).readsMemory = decide (y = .m) := rfl

@[simp] theorem Comp.readsMemory_subFrom (y : Input) :
    (Comp.subFrom y).readsMemory = decide (y = .m) := rfl

@[simp] theorem Comp.readsMemory_zero : Comp.zero.readsMemory = false := rfl

@[simp] theorem Comp.readsMemory_minusOne : Comp.minusOne.readsMemory = false := rfl

end Asm

namespace Machine

open Asm

/-- A row of instructions stands in a program from an address on. -/
def Holds (program : Program) (pc : Nat) (block : List (Instruction Nat)) : Prop :=
  ∃ before after, program.instructions.toList = before ++ block ++ after ∧ before.length = pc

theorem Holds.head {program : Program} {pc : Nat} {i : Instruction Nat}
    {rest : List (Instruction Nat)} (h : Holds program pc (i :: rest)) :
    program.instructions[pc]? = some i := by
  obtain ⟨before, after, hinstructions, rfl⟩ := h
  rw [← Array.getElem?_toList, hinstructions]
  simp

theorem Holds.append_left {program : Program} {pc : Nat} {xs ys : List (Instruction Nat)}
    (h : Holds program pc (xs ++ ys)) : Holds program pc xs := by
  obtain ⟨before, after, hinstructions, hpc⟩ := h
  exact ⟨before, ys ++ after, by simp [hinstructions], hpc⟩

theorem Holds.dropLast {program : Program} {pc : Nat} {block : List (Instruction Nat)}
    (h : Holds program pc block) : Holds program pc block.dropLast := by
  obtain ⟨last, hlast⟩ := List.dropLast_prefix block
  exact @Holds.append_left program pc block.dropLast last (hlast.symm ▸ h)

theorem Holds.append_right {program : Program} {pc : Nat} {xs ys : List (Instruction Nat)}
    (h : Holds program pc (xs ++ ys)) : Holds program (pc + xs.length) ys := by
  obtain ⟨before, after, hinstructions, rfl⟩ := h
  exact ⟨before ++ xs, after, by simp [hinstructions], by simp⟩

theorem Holds.tail {program : Program} {pc : Nat} {i : Instruction Nat}
    {rest : List (Instruction Nat)} (h : Holds program pc (i :: rest)) :
    Holds program (pc + 1) rest :=
  @Holds.append_right program pc [i] rest h

theorem Holds.getElem? {program : Program} {pc : Nat} {block : List (Instruction Nat)}
    (h : Holds program pc block) {k : Nat} {i : Instruction Nat} (hk : block[k]? = some i) :
    program.instructions[pc + k]? = some i := by
  obtain ⟨before, after, hinstructions, rfl⟩ := h
  have hlt : k < block.length := (List.getElem?_eq_some_iff.mp hk).1
  rw [← Array.getElem?_toList, hinstructions, List.append_assoc,
    List.getElem?_append_right (Nat.le_add_right ..), Nat.add_sub_cancel_left,
    List.getElem?_append_left hlt, hk]

namespace Cpu

/-- Carries out an instruction, if the memory has the address that it works on. -/
def perform (i : Instruction Nat) (cpu : Cpu) : Except Fault Cpu :=
  if usesMemory i && decide (ramSize ≤ cpu.a.toNat) then .error (.badAddress cpu.a.toNat)
  else .ok (cpu.execute i)

theorem step_eq_perform {program : Program} {cpu : Cpu} {i : Instruction Nat}
    (h : program.instructions[cpu.pc]? = some i) : cpu.step program = cpu.perform i := by
  unfold step next perform
  rw [h]
  by_cases hbad : (usesMemory i && decide (ramSize ≤ cpu.a.toNat)) = true
  · simp only [if_pos hbad]
  · simp only [if_neg hbad]

@[simp] theorem perform_load (n : Nat) (a d : Word) (pc : Nat) (m : Memory) :
    perform (.load n) ⟨⟨a, d, pc⟩, m⟩ = .ok ⟨⟨.ofNat 16 n, d, pc + 1⟩, m⟩ := rfl

/-- An instruction that does not jump reads the memory first, if it does so at all, and then
writes to it. -/
theorem perform_compute (dest : Dest) (comp : Comp) (a d : Word) (pc : Nat) (m : Memory) :
    perform (.compute dest comp .never) ⟨⟨a, d, pc⟩, m⟩ = (do
      let x ← if comp.readsMemory then m.load a else .ok 0
      let value := comp.eval d a x
      let m ← if dest.toM then m.store a value else .ok m
      .ok ⟨⟨if dest.toA then value else a, if dest.toD then value else d, pc + 1⟩, m⟩) := by
  by_cases hin : a.toNat < ramSize
  · have hperform : perform (.compute dest comp .never) ⟨⟨a, d, pc⟩, m⟩ =
        .ok (execute (.compute dest comp .never) ⟨⟨a, d, pc⟩, m⟩) := by
      simp [perform, Nat.not_le.mpr hin]
    rw [hperform]
    cases hreads : comp.readsMemory with
    | true =>
        cases hm : dest.toM <;>
          simp [execute, Memory.load, Memory.store, hin, hm, Jump.taken]
    | false =>
        have heval := Comp.eval_of_not_readsMemory hreads d a (m.read a.toNat) 0
        cases hm : dest.toM <;>
          simp [execute, Memory.store, hin, hm, Jump.taken, heval]
  · have hout := Nat.not_lt.mp hin
    cases hreads : comp.readsMemory with
    | true => simp [perform, usesMemory, hreads, Memory.load, hin, hout]
    | false =>
        have heval := Comp.eval_of_not_readsMemory hreads d a (m.read a.toNat) 0
        cases hm : dest.toM <;>
          simp [perform, usesMemory, hreads, hm, Memory.store, hin, hout, execute, Jump.taken,
            heval]

/-- An instruction that stores nothing jumps to the address in A if its condition holds. -/
theorem perform_jump {comp : Comp} (hreads : comp.readsMemory = false) (jump : Jump)
    (a d : Word) (pc : Nat) (m : Memory) :
    perform (.compute .nowhere comp jump) ⟨⟨a, d, pc⟩, m⟩ =
      .ok ⟨⟨a, d, if jump.taken (comp.eval d a 0) then a.toNat else pc + 1⟩, m⟩ := by
  rw [← Comp.eval_of_not_readsMemory hreads d a (m.read a.toNat) 0]
  simp [perform, usesMemory, hreads, Dest.nowhere, execute]

/-- Carries out a row of instructions. -/
def performAll : List (Instruction Nat) → Cpu → Except Fault Cpu
  | [], cpu => .ok cpu
  | i :: rest, cpu => cpu.perform i >>= performAll rest

theorem performAll_append (xs ys : List (Instruction Nat)) (cpu : Cpu) :
    performAll (xs ++ ys) cpu = performAll xs cpu >>= performAll ys := by
  induction xs generalizing cpu with
  | nil => rfl
  | cons i rest ih =>
      simp only [List.cons_append, performAll, bind_assoc]
      congr 1
      funext next
      exact ih next

/-- Takes a number of steps. -/
def steps (program : Program) : Nat → Cpu → Except Fault Cpu
  | 0, cpu => .ok cpu
  | n + 1, cpu => cpu.step program >>= steps program n

theorem steps_add (program : Program) (m n : Nat) (cpu : Cpu) :
    steps program (m + n) cpu = steps program m cpu >>= steps program n := by
  induction m generalizing cpu with
  | zero => simp [steps]
  | succ m ih =>
      rw [Nat.succ_add, steps, steps, bind_assoc]
      congr 1
      funext next
      exact ih next

/-- Whether control goes on with the next instruction in any case. -/
def fallsThrough : Instruction Nat → Bool
  | .load _ => true
  | .compute _ _ jump => jump = .never

theorem pc_of_perform {i : Instruction Nat} (hi : fallsThrough i) {cpu after : Cpu}
    (h : cpu.perform i = .ok after) : after.pc = cpu.pc + 1 := by
  have hafter : cpu.execute i = after := by
    unfold perform at h
    split at h
    · cases h
    · exact Except.ok.inj h
  rw [← hafter]
  cases i with
  | load n => rfl
  | compute dest comp jump =>
      obtain rfl : jump = .never := by simpa [fallsThrough] using hi
      rfl

/-- Control moves along a row in which no instruction jumps. -/
theorem pc_of_steps {program : Program} {block : List (Instruction Nat)} {cpu after : Cpu}
    (h : Holds program cpu.pc block) (hfalls : block.all fallsThrough) {k : Nat}
    (hk : k ≤ block.length) (hsteps : steps program k cpu = .ok after) :
    after.pc = cpu.pc + k := by
  induction block generalizing cpu k with
  | nil =>
      obtain rfl : k = 0 := Nat.le_zero.mp hk
      obtain rfl := Except.ok.inj hsteps
      rfl
  | cons i rest ih =>
      cases k with
      | zero =>
          obtain rfl := Except.ok.inj hsteps
          rfl
      | succ k =>
          simp only [List.all_cons, Bool.and_eq_true] at hfalls
          rw [steps, step_eq_perform h.head] at hsteps
          obtain ⟨next, hperform, hrest⟩ := bind_eq_ok_iff.mp hsteps
          have hpc := pc_of_perform hfalls.1 hperform
          rw [ih (hpc ▸ h.tail) hfalls.2 (Nat.le_of_succ_le_succ hk) hrest, hpc, Nat.add_assoc,
            Nat.add_comm 1 k]

/-- From an address without an instruction no step is taken. -/
theorem eq_of_steps {program : Program} {cpu after : Cpu}
    (h : program.instructions[cpu.pc]? = none) {k : Nat} (hsteps : steps program k cpu = .ok after) :
    after = cpu := by
  cases k with
  | zero => exact (Except.ok.inj hsteps).symm
  | succ k =>
      rw [steps, step, next, h] at hsteps
      cases hsteps

/-- A row of instructions is carried out by as many steps. -/
theorem steps_eq_performAll {program : Program} {block : List (Instruction Nat)} {cpu : Cpu}
    (h : Holds program cpu.pc block) (hfalls : block.dropLast.all fallsThrough) :
    steps program block.length cpu = performAll block cpu := by
  induction block generalizing cpu with
  | nil => rfl
  | cons i rest ih =>
      rw [List.length_cons, steps, performAll, step_eq_perform h.head]
      cases hperform : cpu.perform i with
      | error fault => rfl
      | ok after =>
          cases rest with
          | nil => rfl
          | cons j rest =>
              simp only [List.dropLast_cons_cons, List.all_cons, Bool.and_eq_true] at hfalls
              have hpc := pc_of_perform hfalls.1 hperform
              exact ih (hpc ▸ h.tail) hfalls.2

end Cpu

end Machine

end HackBackend
