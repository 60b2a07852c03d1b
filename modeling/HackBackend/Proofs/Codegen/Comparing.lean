import HackBackend.Proofs.Codegen.Simulation
import HackBackend.Proofs.StackMachine.Frame

/-!
# What comparisons compute

A comparison looks at the sign of the difference of its operands, which is computed modulo the word
size. That is the order of the operands as signed numbers as long as their difference is a word. If
it is not, the difference has the wrong sign, so the operands seem to be in the opposite order. Only
equality does not depend on that.

All of this holds at every place of a built program, whatever the names of the units are: if both
the jump of a comparison and its label can be read, they are read as the same symbol.
-/

namespace HackBackend

open Asm Machine Vm StackMachine Text

/-! ### Signed numbers -/

/-- Whether two words stand in a relation as signed numbers. -/
def Vm.Relation.Relates : Relation → Word → Word → Prop
  | .eq, l, r => l.toInt = r.toInt
  | .lt, l, r => l.toInt < r.toInt
  | .gt, l, r => r.toInt < l.toInt

instance : (rel : Relation) → (l r : Word) → Decidable (rel.Relates l r)
  | .eq, l, r => inferInstanceAs (Decidable (l.toInt = r.toInt))
  | .lt, l, r => inferInstanceAs (Decidable (l.toInt < r.toInt))
  | .gt, l, r => inferInstanceAs (Decidable (r.toInt < l.toInt))

/-- The relation of two operands the other way round. -/
def Vm.Relation.opposite : Relation → Relation
  | .eq => .eq
  | .lt => .gt
  | .gt => .lt

namespace StackMachine

/-- The difference of two words as signed numbers is a word. -/
def IsNear (l r : Word) : Prop :=
  -32768 ≤ l.toInt - r.toInt ∧ l.toInt - r.toInt ≤ 32767

instance (l r : Word) : Decidable (IsNear l r) :=
  inferInstanceAs (Decidable (_ ∧ _))

theorem toInt_sub_of_isNear {l r : Word} (h : IsNear l r) :
    (l - r).toInt = l.toInt - r.toInt := by
  obtain ⟨hlow, hhigh⟩ := h
  rw [BitVec.toInt_sub]
  apply Int.bmod_eq_of_le <;> omega

/-- A difference that is no word has the wrong sign. -/
theorem toInt_sub_of_not_isNear {l r : Word} (h : ¬ IsNear l r) :
    ((l - r).toInt < 0 ↔ r.toInt < l.toInt) ∧ (0 < (l - r).toInt ↔ l.toInt < r.toInt) ∧
      (l - r).toInt ≠ 0 ∧ l.toInt ≠ r.toInt := by
  have hl := BitVec.le_toInt l
  have hl' := BitVec.toInt_lt (x := l)
  have hr := BitVec.le_toInt r
  have hr' := BitVec.toInt_lt (x := r)
  rw [IsNear] at h
  rw [BitVec.toInt_sub, Int.bmod_def]
  split <;> omega

theorem relationHolds_of_isNear {l r : Word} (h : IsNear l r) (rel : Relation) :
    relationHolds (l - r) rel = decide (rel.Relates l r) := by
  cases rel <;> simp only [relationHolds, Vm.Relation.Relates, toInt_sub_of_isNear h] <;>
    apply decide_eq_decide.mpr <;> omega

theorem relationHolds_of_not_isNear {l r : Word} (h : ¬ IsNear l r) (rel : Relation) :
    relationHolds (l - r) rel = decide (rel.opposite.Relates l r) := by
  obtain ⟨hnegative, hpositive, hzero, hne⟩ := toInt_sub_of_not_isNear h
  cases rel with
  | eq => exact decide_eq_decide.mpr (iff_of_false hzero hne)
  | lt => exact decide_eq_decide.mpr hnegative
  | gt => exact decide_eq_decide.mpr hpositive

/-! ### The data memory -/

/-- A comparison has put -1 or 0 in place of its operands, whose cells are the two below the top of
the stack, and has changed no other cell. -/
structure Compared (rel : Relation) (m m' : Memory) (start : Nat) : Prop where
  stack : sp m' = .ofNat 16 (start - 1)
  near : IsNear (m.read (start - 2)) (m.read (start - 1)) → m'.read (start - 2) =
    if rel.Relates (m.read (start - 2)) (m.read (start - 1)) then -1 else 0
  far : ¬ IsNear (m.read (start - 2)) (m.read (start - 1)) → m'.read (start - 2) =
    if rel.opposite.Relates (m.read (start - 2)) (m.read (start - 1)) then -1 else 0
  kept : ∀ cell, cell ≠ stackPointer → cell ≠ start - 2 → m'.read cell = m.read cell

/-- Whatever is put on top of the stack, no other cell changes. -/
theorem exists_setTop {m m₁ : Memory} {left : Nat} (hsp : sp m₁ = .ofNat 16 (left + 1))
    (hlow : stackPointer < left) (hhigh : left < ramSize)
    (hkept : ∀ cell, cell ≠ stackPointer → cell ≠ left → m₁.read cell = m.read cell)
    (value : Word) :
    ∃ m₂, setTop value m₁ = .ok m₂ ∧ sp m₂ = .ofNat 16 (left + 1) ∧ m₂.read left = value ∧
      ∀ cell, cell ≠ stackPointer → cell ≠ left → m₂.read cell = m.read cell := by
  refine ⟨_, setTop_eq hsp hhigh value, ?_, Memory.read_write_self m₁ value hhigh, ?_⟩
  · exact (sp_write_of_ne m₁ (Nat.ne_of_gt hlow) value).trans hsp
  · intro cell hpointer hcell
    rw [Memory.read_write_of_ne m₁ value (Ne.symm hcell), hkept cell hpointer hcell]

/-- Two operands are compared by the sign of their difference. -/
theorem exists_applyCompare {m : Memory} {left : Nat} (hsp : sp m = .ofNat 16 (left + 2))
    (hlow : stackPointer < left) (hhigh : left + 1 < ramSize) (rel : Relation) :
    ∃ m', applyCompare rel m = .ok m' ∧ sp m' = .ofNat 16 (left + 1) ∧
      (m'.read left = if relationHolds (m.read left - m.read (left + 1)) rel then -1 else 0) ∧
      ∀ cell, cell ≠ stackPointer → cell ≠ left → m'.read cell = m.read cell := by
  set m₁ := m.write stackPointer (.ofNat 16 (left + 1)) with hm₁
  have hkept (cell : Nat) (hpointer : cell ≠ stackPointer) : m₁.read cell = m.read cell :=
    Memory.read_write_of_ne m _ (Ne.symm hpointer)
  have hleft : left < ramSize := Nat.lt_of_succ_lt hhigh
  have hpop : pop m = .ok (m.read (left + 1), m₁) := pop_eq hsp hhigh (Nat.lt_succ_of_lt hlow)
  have hsp₁ : sp m₁ = .ofNat 16 (left + 1) := sp_write_stackPointer m _
  have htop : top m₁ = .ok (m.read left) := by
    rw [top_eq hsp₁ hleft, hkept left (Nat.ne_of_gt hlow)]
  obtain ⟨m₂, htrue, hsp₂, hresult₂, hkept₂⟩ :=
    exists_setTop hsp₁ hlow hleft (fun cell hpointer _ => hkept cell hpointer) (-1)
  obtain ⟨m₃, hfalse, hsp₃, hresult₃, hkept₃⟩ := exists_setTop hsp₂ hlow hleft hkept₂ 0
  simp only [applyCompare, hpop, htop, htrue, ok_bind]
  split
  case isTrue => exact ⟨m₂, rfl, hsp₂, hresult₂, hkept₂⟩
  case isFalse => exact ⟨m₃, hfalse, hsp₃, hresult₃, hkept₃⟩

theorem exists_compared {m : Memory} {start : Nat} (hsp : sp m = .ofNat 16 start)
    (hlow : 18 ≤ start) (hhigh : start ≤ ramSize) (rel : Relation) :
    ∃ m', applyCompare rel m = .ok m' ∧ Compared rel m m' start := by
  obtain ⟨left, rfl⟩ : ∃ left, start = left + 2 := ⟨start - 2, by omega⟩
  obtain ⟨m', hm', hstack, hresult, hkept⟩ :=
    exists_applyCompare hsp (by simp only [stackPointer]; omega) (by omega) rel
  have hresult : m'.read (left + 2 - 2) =
      if relationHolds (m.read (left + 2 - 2) - m.read (left + 2 - 1)) rel then -1 else 0 := hresult
  refine ⟨m', hm', hstack, ?near, ?far, hkept⟩
  case near =>
    intro hnear
    rw [hresult, relationHolds_of_isNear hnear]
    simp only [decide_eq_true_eq]
  case far =>
    intro hfar
    rw [hresult, relationHolds_of_not_isNear hfar]
    simp only [decide_eq_true_eq]

end StackMachine

namespace Codegen

/-- Everywhere in a built program a comparison of the two topmost values leaves the result in their
place, on a stack that is one lower, and control behind itself. No other cell changes. The result is
that of the signed order if the difference of the operands is a word, and that of the opposite order
if it is not. -/
theorem comparison_of_build {options : Options} {units : List (String × Text.Source)}
    {program : Program} (hbuild : build options units = .ok program) {position : Nat} {c : Placed}
    (hc : (codeOfUnits units)[position]? = some c) {rel : Relation} (hop : c.op = .compare rel)
    {cpu : Cpu} (hpc : cpu.pc = entry options (codeOfUnits units) position) {start : Nat}
    (hsp : sp cpu.memory = .ofNat 16 start) (hlow : 18 ≤ start) (hhigh : start ≤ ramSize) :
    ∃ after, Cpu.steps program (compareDuration rel cpu.memory) cpu = .ok after ∧
      after.pc = entry options (codeOfUnits units) (position + 1) ∧
      Compared rel cpu.memory after.memory start := by
  obtain ⟨m', hm', hcompared⟩ := exists_compared hsp hlow hhigh rel
  have hruns := (built_of_build hbuild).runs_compare hc hop cpu.memory
  rw [hm', ok_bind, ← hpc] at hruns
  obtain ⟨after, hsteps, hafter, rfl⟩ := hruns.exists_steps
  exact ⟨after, hsteps, hafter, hcompared⟩

/-- A unit that compares the two topmost values. -/
def lessThan (unit : String) : List (String × Text.Source) :=
  [(unit, .ofString "lt")]

/-- A memory with two operands on the stack. -/
def operands (l r : Word) : Memory :=
  ((Memory.zero.write stackPointer (.ofNat 16 258)).write 256 l).write 257 r

theorem operands_spec (l r : Word) : sp (operands l r) = .ofNat 16 258 ∧
    (operands l r).read 256 = l ∧ (operands l r).read 257 = r := by
  refine ⟨?_, ?_, Memory.read_write_self _ r (by decide)⟩
  · rw [operands, sp_write_of_ne _ (by decide), sp_write_of_ne _ (by decide)]
    exact sp_write_stackPointer _ _
  · rw [operands, Memory.read_write_of_ne _ _ (by decide)]
    exact Memory.read_write_self _ l (by decide)

/-- There is a blank in the name of the unit, so the label of the comparison is read without it. -/
theorem comparison_of_build_threeBelowFive :
    ∃ program, build { compare := .symbolic } (lessThan "My Unit") = .ok program ∧
      ∃ after, Cpu.steps program (compareDuration .lt (operands 3 5)) ⟨⟨0, 0, 0⟩, operands 3 5⟩ =
          .ok after ∧
        after.pc = entry { compare := .symbolic } (codeOfUnits (lessThan "My Unit")) 1 ∧
        Compared .lt (operands 3 5) after.memory 258 ∧ after.memory.read 256 = -1 := by
  have hok : (build { compare := .symbolic } (lessThan "My Unit")).toOption.isSome := by
    decide +kernel
  obtain ⟨program, hbuild⟩ := exists_ok_of_isSome hok
  have hc : (codeOfUnits (lessThan "My Unit"))[0]? = some ⟨"My Unit", none, .compare .lt⟩ := by
    decide +kernel
  obtain ⟨hsp, hleft, hright⟩ := operands_spec 3 5
  obtain ⟨after, hsteps, hpc, hcompared⟩ := comparison_of_build hbuild hc rfl
    (show (⟨⟨0, 0, 0⟩, operands 3 5⟩ : Cpu).pc = _ from rfl) hsp (by decide) (by decide)
  refine ⟨program, hbuild, after, hsteps, hpc, hcompared, ?_⟩
  have hnear := hcompared.near
  simp only [hleft, hright] at hnear
  exact hnear (by decide)

/-- The least word is less than one, but their difference is the greatest word, so the comparison
tells that it is not. -/
theorem least_not_below_one :
    ∃ program, build {} (lessThan "Main") = .ok program ∧
      ∃ count after, Cpu.steps program count ⟨⟨0, 0, 0⟩, operands (-32768) 1⟩ = .ok after ∧
        after.pc = entry {} (codeOfUnits (lessThan "Main")) 1 ∧
        Relation.lt.Relates (-32768) 1 ∧ after.memory.read 256 = 0 := by
  obtain ⟨program, hbuild⟩ :=
    exists_ok_of_isSome (show (build {} (lessThan "Main")).toOption.isSome by decide +kernel)
  have hc : (codeOfUnits (lessThan "Main"))[0]? = some ⟨"Main", none, .compare .lt⟩ := by
    decide +kernel
  obtain ⟨hsp, hleft, hright⟩ := operands_spec (-32768) 1
  obtain ⟨m', hm', hcompared⟩ := exists_compared hsp (by decide) (by decide) .lt
  have hruns := (built_of_build hbuild).runs_compare hc rfl (operands (-32768) 1)
  rw [hm', ok_bind] at hruns
  have hsteps := @Runs.exists_steps program _ _ m' ⟨⟨0, 0, _⟩, operands (-32768) 1⟩ hruns
  obtain ⟨after, hafter, hpc, rfl⟩ := hsteps
  refine ⟨program, hbuild, _, after, hafter, hpc, by decide, ?_⟩
  have hfar := hcompared.far
  simp only [hleft, hright] at hfar
  exact hfar (by decide)

end Codegen

end HackBackend
