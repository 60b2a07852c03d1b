import HackBackend.Proofs.Machine.Access
import HackBackend.Proofs.StackMachine.Effect

/-!
# Putting words on the stack

A push, a call and the entry of a function put words on the stack and take none off. Wherever the
stack is, they keep every cell that lies above the registers and below its top.
-/

namespace HackBackend

/-- Whether an operation puts words on the stack and takes none off. -/
def Vm.Operation.pushes : Vm.Operation → Bool
  | .push .. | .function .. | .call .. => true
  | _ => false

namespace StackMachine

open Machine Vm

/-- The stack has grown, and no cell between the registers and its former top has changed. -/
structure Grows (m m' : Memory) : Prop where
  top : (sp m).toNat ≤ (sp m').toNat
  kept : ∀ cell, Memory.namedCells ≤ cell → cell < (sp m).toNat → m'.read cell = m.read cell

namespace Grows

theorem trans {m m' m'' : Memory} (hfirst : Grows m m') (hlast : Grows m' m'') : Grows m m'' where
  top := Nat.le_trans hfirst.top hlast.top
  kept cell hlow hcell := by
    rw [hlast.kept cell hlow (Nat.lt_of_lt_of_le hcell hfirst.top), hfirst.kept cell hlow hcell]

/-- A register other than the stack pointer takes no part in it. -/
theorem write {m m' : Memory} (h : Grows m m') {cell : Nat} (hcell : cell < Memory.namedCells)
    (hpointer : cell ≠ stackPointer) (value : Word) : Grows m (m'.write cell value) where
  top := by
    rw [sp_write_of_ne m' hpointer]
    exact h.top
  kept other hlow hother := by
    rw [Memory.read_write_of_ne m' value (Nat.ne_of_lt (Nat.lt_of_lt_of_le hcell hlow))]
    exact h.kept other hlow hother

end Grows

theorem store_eq_ok_iff {m m' : Memory} {address value : Word} :
    m.store address value = .ok m' ↔
      address.toNat < ramSize ∧ m.write address.toNat value = m' := by
  rw [Memory.store]
  by_cases h : address.toNat < ramSize <;> simp [h]

theorem toNat_add_ofNat {address : Word} {count : Nat} (h : address.toNat + count ≤ ramSize) :
    (address + .ofNat 16 count).toNat = address.toNat + count := by
  have hword : ramSize < 2 ^ 16 := by decide
  rw [BitVec.toNat_add, BitVec.toNat_ofNat, Nat.add_mod_mod, Nat.mod_eq_of_lt (by omega)]

theorem grows_push {value : Word} {m m' : Memory} (h : push value m = .ok m') : Grows m m' := by
  obtain ⟨stored, hstored, hm'⟩ := bind_eq_ok_iff.mp h
  obtain ⟨hroom, rfl⟩ := store_eq_ok_iff.mp hstored
  obtain rfl := Except.ok.inj hm'
  constructor
  · rw [sp_write_stackPointer]
    by_cases hzero : (sp m).toNat = stackPointer
    · rw [hzero]
      exact Nat.zero_le _
    · have hnext : (sp m + 1).toNat = (sp m).toNat + 1 := @toNat_add_ofNat (sp m) 1 hroom
      rw [sp_write_of_ne m hzero, hnext]
      exact Nat.le_succ _
  · intro cell hlow hcell
    have hpointer : stackPointer ≠ cell :=
      Nat.ne_of_lt (Nat.lt_of_lt_of_le stackPointer_lt hlow)
    rw [Memory.read_write_of_ne _ _ hpointer,
      Memory.read_write_of_ne m value (Nat.ne_of_gt hcell)]

theorem grows_enterCall {returnAddress args : Nat} {m m' : Memory}
    (h : enterCall returnAddress args m = .ok m') : Grows m m' := by
  obtain ⟨m₁, hreturn, h⟩ := bind_eq_ok_iff.mp h
  obtain ⟨m₂, hlocals, h⟩ := bind_eq_ok_iff.mp h
  obtain ⟨m₃, harguments, h⟩ := bind_eq_ok_iff.mp h
  obtain ⟨m₄, hthis, h⟩ := bind_eq_ok_iff.mp h
  obtain ⟨m₅, hthat, h⟩ := bind_eq_ok_iff.mp h
  obtain rfl := Except.ok.inj h
  have hframe : Grows m m₅ := (grows_push hreturn).trans <| (grows_push hlocals).trans <|
    (grows_push harguments).trans <| (grows_push hthis).trans (grows_push hthat)
  exact (hframe.write (baseCell_lt .arguments) (by decide) _).write (baseCell_lt .locals)
    (by decide) _

/-- Clearing some cells keeps those below them, and there are as many cells as are cleared. -/
theorem kept_of_clear {address : Word} {count : Nat} {m m' : Memory}
    (h : clear address count m = .ok m') :
    (count = 0 ∨ address.toNat + count ≤ ramSize) ∧
      ∀ cell < address.toNat, m'.read cell = m.read cell := by
  induction count generalizing address m with
  | zero =>
      obtain rfl := Except.ok.inj h
      exact ⟨.inl rfl, fun _ _ => rfl⟩
  | succ count ih =>
      obtain ⟨stored, hstored, hrest⟩ := bind_eq_ok_iff.mp h
      obtain ⟨hroom, rfl⟩ := store_eq_ok_iff.mp hstored
      have hnext : (address + 1).toNat = address.toNat + 1 := @toNat_add_ofNat address 1 hroom
      obtain ⟨hcount, hkept⟩ := ih hrest
      rw [hnext] at hcount hkept
      refine ⟨.inr (by omega), fun cell hcell => ?_⟩
      rw [hkept cell (by omega), Memory.read_write_of_ne m 0 (Nat.ne_of_gt hcell)]

theorem grows_enterFunction {locals : Nat} {m m' : Memory}
    (h : enterFunction locals m = .ok m') : Grows m m' := by
  obtain ⟨cleared, hcleared, hm'⟩ := bind_eq_ok_iff.mp h
  obtain rfl := Except.ok.inj hm'
  obtain ⟨hcount, hkept⟩ := kept_of_clear hcleared
  constructor
  · rw [sp_write_stackPointer]
    rcases hcount with rfl | hroom
    · simp
    · rw [toNat_add_ofNat hroom]
      exact Nat.le_add_right ..
  · intro cell hlow hcell
    have hpointer : stackPointer ≠ cell :=
      Nat.ne_of_lt (Nat.lt_of_lt_of_le stackPointer_lt hlow)
    rw [Memory.read_write_of_ne _ _ hpointer, hkept cell hcell]

end StackMachine

end HackBackend
