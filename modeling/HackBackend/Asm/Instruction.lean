import HackBackend.Platform

/-!
# Instructions

The machine has two registers, A and D, and works on the memory cell M that A points to. An
instruction either loads an address into A, or computes a value, stores it in any of A, D
and M and may jump to the address in A. A computation has at most one input besides D, which
is A or M.

## Implementation notes

What an instruction loads is a parameter: in assembly text it may be a symbol, in a program
it is a number.
-/

namespace HackBackend.Asm

/-- The values that a computation can be about. -/
inductive Register where
  | d | a | m
deriving DecidableEq, Repr

/-- The second input of a computation on two values, the first being D. -/
inductive Input where
  | a | m
deriving DecidableEq, Repr

inductive Comp where
  | zero | one | minusOne
  | copy (x : Register)
  | not (x : Register)
  | neg (x : Register)
  | inc (x : Register)
  | dec (x : Register)
  /-- The sum of D and the input. -/
  | add (y : Input)
  /-- The input subtracted from D. -/
  | sub (y : Input)
  /-- D subtracted from the input. -/
  | subFrom (y : Input)
  | and (y : Input)
  | or (y : Input)
deriving DecidableEq, Repr

/-- The places that take the value of a computation. -/
structure Dest where
  toA : Bool := false
  toD : Bool := false
  toM : Bool := false
deriving DecidableEq, Repr

/-- The condition on the computed value under which control moves to the address in A. -/
inductive Jump where
  | never | gt | eq | ge | lt | ne | le | always
deriving DecidableEq, Repr

inductive Instruction (α : Type) where
  | load (address : α)
  | compute (dest : Dest) (comp : Comp) (jump : Jump)
deriving DecidableEq, Repr

def Input.toRegister : Input → Register
  | a => .a
  | m => .m

namespace Comp

/-- Whether a computation looks at the memory cell that A points to. -/
def readsMemory : Comp → Bool
  | zero | one | minusOne => false
  | copy x | not x | neg x | inc x | dec x => x = .m
  | add y | sub y | subFrom y | and y | or y => y = .m

/-- The value of a computation, in arithmetic modulo the word size. -/
def eval (d a m : Word) : Comp → Word
  | zero => 0
  | one => 1
  | minusOne => -1
  | copy x => value x
  | not x => ~~~ value x
  | neg x => -value x
  | inc x => value x + 1
  | dec x => value x - 1
  | add y => d + value y.toRegister
  | sub y => d - value y.toRegister
  | subFrom y => value y.toRegister - d
  | and y => d &&& value y.toRegister
  | or y => d ||| value y.toRegister
where
  value : Register → Word
    | .d => d
    | .a => a
    | .m => m

/-- A computation that does not look at memory has the same value whatever the cell holds. -/
theorem eval_of_not_readsMemory {c : Comp} (h : c.readsMemory = false) (d a m m' : Word) :
    c.eval d a m = c.eval d a m' := by
  rcases c with _ | _ | _ | x | x | x | x | x | y | y | y | y | y
  case copy | not | neg | inc | dec =>
    cases x <;> first | rfl | cases h
  case add | sub | subFrom | and | or =>
    cases y <;> first | rfl | cases h
  all_goals rfl

end Comp

/-- Whether a jump is taken, given the computed value as a signed number. -/
def Jump.taken (value : Word) : Jump → Bool
  | never => false
  | gt => 0 < value.toInt
  | eq => value.toInt = 0
  | ge => 0 ≤ value.toInt
  | lt => value.toInt < 0
  | ne => value.toInt ≠ 0
  | le => value.toInt ≤ 0
  | always => true

namespace Dest

/-- No place at all: the value only decides a jump. -/
def nowhere : Dest := {}

def a : Dest := { toA := true }
def d : Dest := { toD := true }
def m : Dest := { toM := true }
def am : Dest := { toA := true, toM := true }

end Dest

end HackBackend.Asm
