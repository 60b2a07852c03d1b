import HackBackend.Asm.Program
import HackBackend.Machine.Memory

/-!
# Running programs

One step carries out the instruction at the program counter. An address is the content of A
from before the instruction, also for the jump of an instruction that changes A. A program
halts when control comes to its halt label.
-/

namespace HackBackend.Machine

open Asm

/-- The two registers, and the address of the instruction to be carried out next. -/
structure Registers where
  a : Word := 0
  d : Word := 0
  pc : Nat := 0
deriving DecidableEq, Repr

structure Cpu extends Registers where
  memory : Memory := Memory.zero

inductive Fault where
  /-- Control has left the program. -/
  | noInstruction (pc : Nat)
  /-- The data memory does not have the address. -/
  | badAddress (address : Nat)
  | noHaltLabel
  /-- The program has not come to its halt label in the allowed number of steps. -/
  | notHalted (pc : Nat)
deriving DecidableEq, Repr

/-- The number of steps that a program may take. -/
def stepLimit : Nat := 200000

namespace Cpu

/-- Stores some words, each at its address. -/
def storeAll (cpu : Cpu) : List (Nat × Word) → Except Fault Cpu
  | [] => .ok cpu
  | (address, value) :: rest =>
      if address < ramSize then
        storeAll { cpu with memory := cpu.memory.write address value } rest
      else .error (.badAddress address)

/-- Whether an instruction works on the memory cell that A points to. -/
def usesMemory : Instruction Nat → Bool
  | .load _ => false
  | .compute dest comp _ => comp.readsMemory || dest.toM

/-- The instruction at the program counter, if it can be carried out. -/
def next (program : Program) (cpu : Cpu) : Except Fault (Instruction Nat) :=
  match program.instructions[cpu.pc]? with
  | none => .error (.noInstruction cpu.pc)
  | some i =>
      if usesMemory i && decide (ramSize ≤ cpu.a.toNat) then .error (.badAddress cpu.a.toNat)
      else .ok i

/-- The state after an instruction that can be carried out. -/
def execute (i : Instruction Nat) : Cpu → Cpu
  | ⟨⟨a, d, pc⟩, memory⟩ =>
      match i with
      | .load n => ⟨⟨BitVec.ofNat 16 n, d, pc + 1⟩, memory⟩
      | .compute dest comp jump =>
          let address := a.toNat
          let value := comp.eval d a (memory.read address)
          let registers : Registers := {
            a := if dest.toA then value else a
            d := if dest.toD then value else d
            pc := if jump.taken value then address else pc + 1 }
          ⟨registers, if dest.toM then memory.write address value else memory⟩

/-- Carries out the instruction at the program counter. -/
def step (program : Program) (cpu : Cpu) : Except Fault Cpu :=
  match cpu.next program with
  | .ok i => .ok (cpu.execute i)
  | .error fault => .error fault

/-- Steps until control is at an address, at most `fuel` times. -/
def runTo (program : Program) (halt : Nat) : Nat → Cpu → Except Fault Cpu
  | 0, cpu => .error (.notHalted cpu.pc)
  | fuel + 1, cpu =>
      if cpu.pc = halt then .ok cpu
      else
        match cpu.step program with
        | .ok after => runTo program halt fuel after
        | .error fault => .error fault

/-- Runs a program to its halt label. -/
def run (program : Program) (cpu : Cpu) : Except Fault Cpu :=
  match program.labels[haltLabel]? with
  | some halt => runTo program halt stepLimit cpu
  | none => .error .noHaltLabel

/-- Takes up to `n` steps after those whose registers are in `done`, the latest first. -/
def traceFrom (program : Program) (done : List Registers) :
    Nat → Cpu → List Registers × Cpu × Option Fault
  | 0, cpu => (done.reverse, cpu, none)
  | n + 1, cpu =>
      match cpu.next program with
      | .error fault => (done.reverse, cpu, some fault)
      | .ok i =>
          match cpu.execute i with
          | ⟨registers, memory⟩ =>
              traceFrom program (registers :: done) n ⟨registers, memory⟩

/-- Takes up to `n` steps: the registers after each of them, the last state, and the fault that
ended the steps early, if one did. -/
def trace (program : Program) (n : Nat) (cpu : Cpu) : List Registers × Cpu × Option Fault :=
  traceFrom program [] n cpu

/-- A trace is ended by the fault of a step, and goes on with the state after it otherwise. -/
theorem traceFrom_succ (program : Program) (done : List Registers) (n : Nat) (cpu : Cpu) :
    traceFrom program done (n + 1) cpu =
      match cpu.step program with
      | .ok after => traceFrom program (after.toRegisters :: done) n after
      | .error fault => (done.reverse, cpu, some fault) := by
  unfold step
  rw [traceFrom]
  cases cpu.next program with
  | error fault => rfl
  | ok i => rfl

end Cpu

end HackBackend.Machine
