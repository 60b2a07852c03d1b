import HackBackend.Codegen.Options
import HackBackend.Proofs.Machine.Access
import HackBackend.Vm.Command

/-!
# What operations do to the data memory

The stack machine keeps its stack, its base pointers and its scratch cells in the data memory
that generated code works on. Every access to a computed address is checked. Nothing is assumed
about where the stack and the segments lie: an operation reads and writes its cells in the order
given here, also where one of them is a register.
-/

namespace HackBackend.StackMachine

open Machine Vm

/-- The cell of the stack pointer, which holds the address one past the topmost value. -/
def stackPointer : Nat := 0

/-- The cell of a base pointer. -/
def baseCell : Base → Nat
  | .locals => 1
  | .arguments => 2
  | .this => 3
  | .that => 4

/-- The cell that keeps the address of an indirect store. -/
def addressCell : Nat := 13

/-- The cell that keeps the frame while a function returns. -/
def frameCell : Nat := 14

/-- The cell that keeps the return address while a function returns. -/
def returnCell : Nat := 15

/-- The number of words that a call puts between the arguments and the locals. -/
def savedWords : Nat := 5

def sp (m : Memory) : Word :=
  m.read stackPointer

def base (m : Memory) (b : Base) : Word :=
  m.read (baseCell b)

@[simp] theorem stackPointer_lt : stackPointer < Memory.namedCells := by decide

@[simp] theorem addressCell_lt : addressCell < Memory.namedCells := by decide

@[simp] theorem frameCell_lt : frameCell < Memory.namedCells := by decide

@[simp] theorem returnCell_lt : returnCell < Memory.namedCells := by decide

@[simp] theorem baseCell_lt (b : Base) : baseCell b < Memory.namedCells := by
  cases b <;> decide

@[simp] theorem read_write_stackPointer (m : Memory) (value : Word) :
    (m.write stackPointer value).read stackPointer = value :=
  Memory.read_write_self m value (by decide)

theorem sp_write_stackPointer (m : Memory) (value : Word) :
    sp (m.write stackPointer value) = value :=
  read_write_stackPointer m value

theorem sp_write_of_ne (m : Memory) {cell : Nat} (h : cell ≠ stackPointer) (value : Word) :
    sp (m.write cell value) = sp m :=
  Memory.read_write_of_ne m value h

/-- Puts a value on top of the stack. -/
def push (value : Word) (m : Memory) : Except Fault Memory := do
  let m ← m.store (sp m) value
  .ok (m.write stackPointer (sp m + 1))

/-- Takes the topmost value off the stack. -/
def pop (m : Memory) : Except Fault (Word × Memory) := do
  let m := m.write stackPointer (sp m - 1)
  let value ← m.load (sp m)
  .ok (value, m)

/-- The topmost value. -/
def top (m : Memory) : Except Fault Word :=
  m.load (sp m - 1)

/-- Puts a value in place of the topmost one. -/
def setTop (value : Word) (m : Memory) : Except Fault Memory :=
  m.store (sp m - 1) value

/-- The address of an offset of a segment, given the cells of the statics of the unit. The
offsets of the constant segment have no address. -/
def address? (static : Nat → Nat) (m : Memory) : Segment → Nat → Option Word
  | .constant, _ => none
  | .based b, offset => some (base m b + .ofNat 16 offset)
  | .temp, offset => some (.ofNat 16 (Segment.tempBase + offset))
  | .pointer, offset => some (.ofNat 16 (baseCell .this + offset))
  | .static, offset => some (.ofNat 16 (static offset))

/-- The value of an offset of a segment. -/
def fetch (static : Nat → Nat) (segment : Segment) (offset : Nat) (m : Memory) :
    Except Fault Word :=
  match address? static m segment offset with
  | none => .ok (.ofNat 16 offset)
  | some address => m.load address

/-- Moves the topmost value to an address. -/
def popTo (address : Word) (m : Memory) : Except Fault Memory := do
  let (value, m) ← pop m
  m.store address value

/-- Moves the topmost value to an address that is kept in its scratch cell meanwhile. -/
def popIndirect (address : Word) (m : Memory) : Except Fault Memory :=
  popTo address (m.write addressCell address)

/-- Moves the topmost value to an offset of a segment. It is dropped where there is no address
to move it to. -/
def moveTop (static : Nat → Nat) (segment : Segment) (offset : Nat) (m : Memory) :
    Except Fault Memory :=
  match segment with
  | .based b => popIndirect (base m b + .ofNat 16 offset) m
  | _ =>
      match address? static m segment offset with
      | some address => popTo address m
      | none => do
          let (_, m) ← pop m
          .ok m

theorem moveTop_of_address? {static : Nat → Nat} {segment : Segment} {offset : Nat} {m : Memory}
    {address : Word} (hsegment : ∀ b, segment ≠ .based b)
    (h : address? static m segment offset = some address) :
    moveTop static segment offset m = popTo address m := by
  cases segment with
  | based b => exact absurd rfl (hsegment b)
  | constant => cases h
  | _ => simp only [moveTop, h]

def unaryValue : Unary → Word → Word
  | .neg, x => -x
  | .not, x => ~~~ x

def binaryValue : Binary → Word → Word → Word
  | .add, x, y => x + y
  | .sub, x, y => x - y
  | .and, x, y => x &&& y
  | .or, x, y => x ||| y

/-- Whether a relation is taken to hold, given the left operand less the right one modulo the
word size. -/
def relationHolds (difference : Word) : Relation → Bool
  | .eq => difference.toInt = 0
  | .lt => difference.toInt < 0
  | .gt => 0 < difference.toInt

def applyUnary (f : Unary) (m : Memory) : Except Fault Memory := do
  let x ← top m
  setTop (unaryValue f x) m

/-- Replaces the two topmost values, the right operand being on top. -/
def applyBinary (f : Binary) (m : Memory) : Except Fault Memory := do
  let (right, m) ← pop m
  let left ← top m
  setTop (binaryValue f left right) m

/-- Replaces the two topmost values by -1, and this by 0 unless the relation holds. -/
def applyCompare (r : Relation) (m : Memory) : Except Fault Memory := do
  let (right, m) ← pop m
  let left ← top m
  let m ← setTop (-1) m
  if relationHolds (left - right) r then .ok m else setTop 0 m

/-- Whether a conditional branch is taken on a value. -/
def branchTaken (value : Word) : Codegen.BranchTest → Bool
  | .positive => 0 < value.toInt
  | .nonzero => value.toInt ≠ 0

/-- Stores a number of zeros from an address on. -/
def clear (address : Word) : Nat → Memory → Except Fault Memory
  | 0, m => .ok m
  | n + 1, m => do
      let m ← m.store address 0
      clear (address + 1) n m

/-- Puts the locals of a function, which are zeros at first, on top of the stack. -/
def enterFunction (locals : Nat) (m : Memory) : Except Fault Memory := do
  let first := sp m
  let m ← clear first locals m
  .ok (m.write stackPointer (first + .ofNat 16 locals))

def saveBase (b : Base) (m : Memory) : Except Fault Memory :=
  push (base m b) m

/-- Puts a frame on top of the stack, after the arguments of the function that is called. -/
def enterCall (returnAddress args : Nat) (m : Memory) : Except Fault Memory := do
  let m ← push (.ofNat 16 returnAddress) m
  let m ← saveBase .locals m
  let m ← saveBase .arguments m
  let m ← saveBase .this m
  let m ← saveBase .that m
  let m := m.write (baseCell .arguments) (sp m - .ofNat 16 (args + savedWords))
  .ok (m.write (baseCell .locals) (sp m))

/-- Moves the frame down by one word and takes a base pointer from there. -/
def restoreBase (b : Base) (m : Memory) : Except Fault Memory := do
  let m := m.write frameCell (m.read frameCell - 1)
  let value ← m.load (m.read frameCell)
  .ok (m.write (baseCell b) value)

/-- Notes the frame and the return address in their scratch cells. -/
def noteFrame (m : Memory) : Except Fault Memory := do
  let frame := base m .locals
  let m := m.write frameCell frame
  let returnAddress ← m.load (frame - .ofNat 16 savedWords)
  .ok (m.write returnCell returnAddress)

/-- Puts the topmost value in place of the arguments and takes the frame off the stack. The
return address is noted before, since the value may be put in its place. -/
def leaveCall (m : Memory) : Except Fault Memory := do
  let m ← noteFrame m
  let result ← top m
  let m ← m.store (base m .arguments) result
  let m := m.write stackPointer (base m .arguments + 1)
  let m ← restoreBase .that m
  let m ← restoreBase .this m
  let m ← restoreBase .arguments m
  restoreBase .locals m

end HackBackend.StackMachine
