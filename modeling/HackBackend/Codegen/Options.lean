import HackBackend.Asm.Instruction
import HackBackend.Vm.Keyword

/-!
# Choices in code generation
-/

namespace HackBackend.Codegen

/-- How a comparison names the place where it goes on if the relation holds. -/
inductive CompareStyle where
  /-- By the address of that place, known from the number of instructions so far. -/
  | absolute
  /-- By a label of its own. -/
  | symbolic
deriving DecidableEq, Repr

/-- The values on which a conditional branch is taken. -/
inductive BranchTest where
  | positive
  | nonzero
deriving DecidableEq, Repr

structure Options where
  compare : CompareStyle := .absolute
  branch : BranchTest := .positive
  /-- Whether the code carries comments. -/
  comments : Bool := true
  /-- Whether the code sets up the stack pointer before the first command. -/
  bootstrap : Bool := false
deriving DecidableEq, Repr

def BranchTest.jump : BranchTest → Asm.Jump
  | positive => .gt
  | nonzero => .ne

/-- The jump that is taken on the difference of two values that stand in a relation. -/
def relationJump : Vm.Relation → Asm.Jump
  | .eq => .eq
  | .lt => .lt
  | .gt => .gt

end HackBackend.Codegen
