import HackBackend.Platform

/-!
# Data memory

A fixed number of words. Outside the memory nothing is kept: reading there gives zero, and
writing there changes nothing. Whether an address lies inside is asked beforehand.
-/

namespace HackBackend.Machine

abbrev Memory := Vector Word ramSize

namespace Memory

/-- A memory of zeros. -/
def zero : Memory := Vector.replicate ramSize 0

/-- The word at an address. -/
def read (m : Memory) (address : Nat) : Word :=
  m[address]?.getD 0

/-- The memory after a word is stored. -/
def write (m : Memory) (address : Nat) (value : Word) : Memory :=
  m.setIfInBounds address value

/-- A word that has been stored inside the memory is read back. -/
@[simp] theorem read_write_self (m : Memory) {address : Nat} (value : Word)
    (h : address < ramSize) : (m.write address value).read address = value := by
  simp [read, write, h]

/-- Storing a word changes no other cell. -/
theorem read_write_of_ne (m : Memory) {address other : Nat} (value : Word)
    (h : address ≠ other) : (m.write address value).read other = m.read other := by
  simp [read, write, h]

@[simp] theorem read_zero (address : Nat) : zero.read address = 0 := by
  simp only [read, zero, Vector.getElem?_replicate]
  split <;> rfl

end Memory

end HackBackend.Machine
