import HackBackend.Machine.Cpu
import HackBackend.Proofs.Result

/-!
# Checked access to the data memory

Reading and writing at a computed address, which fails outside the memory. An instruction that
does not jump is a row of such accesses.
-/

namespace HackBackend

namespace Machine

/-- Every address of the program memory, and of the smaller data memory, is a word. -/
theorem toNat_ofNat_of_lt {n : Nat} (h : n < romSize) : (BitVec.ofNat 16 n).toNat = n := by
  have hword : n < 2 ^ 16 := Nat.lt_trans h (by decide)
  rw [BitVec.toNat_ofNat, Nat.mod_eq_of_lt hword]

theorem ofNat_add_sub (n k : Nat) :
    BitVec.ofNat 16 (n + k) - BitVec.ofNat 16 k = BitVec.ofNat 16 n := by
  rw [BitVec.ofNat_add]
  exact BitVec.add_sub_cancel _ _

namespace Memory

/-- The word at an address. -/
def load (m : Memory) (address : Word) : Except Fault Word :=
  if address.toNat < ramSize then .ok (m.read address.toNat)
  else .error (.badAddress address.toNat)

/-- The memory after a word is stored at an address. -/
def store (m : Memory) (address value : Word) : Except Fault Memory :=
  if address.toNat < ramSize then .ok (m.write address.toNat value)
  else .error (.badAddress address.toNat)

/-- The number of cells that have names of their own. -/
def namedCells : Nat := 16

theorem lt_ramSize_of_named {cell : Nat} (h : cell < namedCells) : cell < ramSize :=
  Nat.lt_trans h (by decide)

theorem load_of_lt (m : Memory) {address : Nat} (h : address < ramSize) :
    m.load (.ofNat 16 address) = .ok (m.read address) := by
  rw [load, toNat_ofNat_of_lt (Nat.lt_trans h (by decide)), if_pos h]

theorem store_of_lt (m : Memory) {address : Nat} (h : address < ramSize) (value : Word) :
    m.store (.ofNat 16 address) value = .ok (m.write address value) := by
  rw [store, toNat_ofNat_of_lt (Nat.lt_trans h (by decide)), if_pos h]

@[simp] theorem load_named (m : Memory) {cell : Nat} (h : cell < namedCells) :
    m.load (.ofNat 16 cell) = .ok (m.read cell) :=
  load_of_lt m (lt_ramSize_of_named h)

@[simp] theorem store_named (m : Memory) {cell : Nat} (h : cell < namedCells) (value : Word) :
    m.store (.ofNat 16 cell) value = .ok (m.write cell value) :=
  store_of_lt m (lt_ramSize_of_named h) value

/-- Storing the word that a cell holds changes nothing. -/
theorem write_read (m : Memory) (address : Nat) : m.write address (m.read address) = m := by
  ext i hi
  by_cases h : address = i
  · subst h
    simp [write, read, hi]
  · simp [write, Vector.getElem_setIfInBounds_ne hi h]

end Memory

end Machine

end HackBackend
