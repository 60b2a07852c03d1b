import HackBackend.Proofs.Asm.Assembly

/-!
# Rows of linked instructions

The instructions of some lines as they stand in a finished program, with the cell of each
predefined symbol in its place.
-/

namespace HackBackend.Asm

namespace Program

/-- The instructions of some lines with the addresses of their symbols. -/
def linked (program : Program) (code : List Line) : List (Instruction Nat) :=
  (instructionsOf code).map (·.map program.operand)

@[simp] theorem linked_nil (program : Program) : program.linked [] = [] := rfl

@[simp] theorem linked_instruction (program : Program) (i : Instruction Address)
    (code : List Line) : program.linked (.instruction i :: code) =
      i.map program.operand :: program.linked code := rfl

@[simp] theorem linked_symbol (program : Program) (name : String) (code : List Line) :
    program.linked (.symbol name :: code) =
      .load (program.address name) :: program.linked code := rfl

@[simp] theorem linked_literal (program : Program) (n : Nat) (code : List Line) :
    program.linked (.literal n :: code) = .load n :: program.linked code := rfl

@[simp] theorem linked_store (program : Program) (dest : Dest) (comp : Comp)
    (code : List Line) : program.linked (.store dest comp :: code) =
      .compute dest comp .never :: program.linked code := rfl

@[simp] theorem linked_jump (program : Program) (comp : Comp) (jump : Jump)
    (code : List Line) : program.linked (.jump comp jump :: code) =
      .compute .nowhere comp jump :: program.linked code := rfl

@[simp] theorem linked_label (program : Program) (name : String) (code : List Line) :
    program.linked (.label name :: code) = program.linked code := rfl

@[simp] theorem linked_append (program : Program) (xs ys : List Line) :
    program.linked (xs ++ ys) = program.linked xs ++ program.linked ys := by
  simp [linked]

theorem length_linked (program : Program) (code : List Line) :
    (program.linked code).length = code.countP Line.isInstruction := by
  rw [linked, List.length_map, length_instructionsOf]

theorem address_of_predefined {name : String} {cell : Nat} (h : predefined? name = some cell)
    (program : Program) : program.address name = cell := by
  simp [address, find?, h]

theorem address_of_label {program : Program} {name : String} {n : Nat}
    (hfree : predefined? name = none) (h : program.labels[name]? = some n) :
    program.address name = n := by
  simp [address, find?, hfree, h]

theorem address_of_var {program : Program} {name : String} {n : Nat}
    (hfree : predefined? name = none) (hlabel : name ∉ program.labels)
    (h : program.vars[name]? = some n) : program.address name = n := by
  simp [address, find?, hfree, Std.TreeMap.getElem?_eq_none hlabel, h]

end Program

/-- The cell of a predefined name can be loaded. -/
theorem predefined?_le {name : String} {cell : Nat} (h : predefined? name = some cell) :
    cell ≤ maxLiteral := by
  obtain ⟨before, after, htable, -⟩ := List.lookup_eq_some_iff.mp h
  exact predefined_le (name, cell) (htable ▸ by simp)

/-- A name with a character that no predefined name has is not predefined. -/
theorem predefined?_eq_none {name : String} {c : Char}
    (hplain : ∀ entry ∈ predefined, c ∉ entry.1.toList) (hmem : c ∈ name.toList) :
    predefined? name = none := by
  rw [predefined?, List.lookup_eq_none_iff]
  intro entry hentry
  have hne : name ≠ entry.1 := by
    rintro rfl
    exact hplain entry hentry hmem
  simpa using hne

/-- No predefined name has one of the marks that made-up names have. -/
theorem predefined?_eq_none_of_mem {name : String} {c : Char} (hc : c = '$' ∨ c = ':')
    (hmem : c ∈ name.toList) : predefined? name = none := by
  rcases hc with rfl | rfl
  · exact predefined?_eq_none (by decide) hmem
  · exact predefined?_eq_none (by decide) hmem

end HackBackend.Asm
