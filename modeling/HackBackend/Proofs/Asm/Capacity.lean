import HackBackend.Proofs.Asm.Grammar
import HackBackend.Proofs.Asm.Linking
import HackBackend.Proofs.Asm.Rejection
import Mathlib.Data.List.Perm.Subperm
import Std.Data.String.ToNat

/-!
# What address instructions can load

An address instruction holds 15 bits. Literals are refused if they are larger, predefined cells are
smaller, and a label stands before an address of the program memory. Variables have no such bound:
their cells are counted up from 16, one for each, and what ends the count is only that every
variable takes an instruction. So a text that is long enough has variables in the cells of the
screen and the keyboard, and a still longer one has variables that no instruction can load.
-/

namespace HackBackend.Asm

open Text

/-- Every operand of a program is a number of 15 bits. -/
def Loadable (program : Program) : Prop :=
  ∀ i n : Nat, program.instructions[i]? = some (.load n) → n ≤ 32767

/-- No variable has the cell of a predefined device. -/
def SparesDevices (program : Program) : Prop :=
  ∀ (name : String) (n : Nat), program.vars[name]? = some n →
    predefined? "SCREEN" ≠ some n ∧ predefined? "KBD" ≠ some n

theorem predefined?_screen : predefined? "SCREEN" = some 16384 := by
  decide

theorem predefined?_keyboard : predefined? "KBD" = some 24576 := by
  decide

section

variable {texts : List String} {program : Program} (h : assemble texts = .ok program)

include h

theorem allocates_of_assemble : program.Allocates (variablesOf (linesOf texts)) := by
  obtain ⟨-, layout, hplace, rfl⟩ := assemble_eq_ok_iff.mp h
  exact Layout.allocates_program hplace

theorem mem_labels_of_assemble {name : String} :
    name ∈ program.labels ↔ name ∈ labelsOf (linesOf texts) := by
  obtain ⟨-, layout, hplace, rfl⟩ := assemble_eq_ok_iff.mp h
  rw [Layout.labels_program]
  exact Layout.mem_labels_iff hplace

/-- A name that is used and stands for nothing else is a variable. -/
theorem exists_var_of_load {name : String}
    (hload : .load (.symbol name) ∈ instructionsOf (linesOf texts))
    (hfree : predefined? name = none) (hlabel : name ∉ program.labels) :
    ∃ n, program.vars[name]? = some n := by
  rw [← Option.isSome_iff_exists, ← Std.TreeMap.mem_iff_isSome_getElem?,
    (allocates_of_assemble h).mem_iff, variablesOf, mem_freeNames]
  exact ⟨hload, hfree, (mem_labels_of_assemble h).not.mp hlabel⟩

/-- A variable is loaded somewhere. -/
theorem exists_load_of_var {name : String} {n : Nat} (hvar : program.vars[name]? = some n) :
    ∃ i : Nat, program.instructions[i]? = some (.load n) := by
  have hmem := (allocates_of_assemble h).mem_iff.mp (Std.TreeMap.mem_iff_isSome_getElem?.mpr
    (Option.isSome_of_eq_some hvar))
  obtain ⟨hload, hfree, hlabel⟩ := mem_freeNames.mp hmem
  obtain ⟨i, hi⟩ := List.mem_iff_getElem?.mp hload
  refine ⟨i, ?_⟩
  rw [(assembled_of_assemble h).getElem?_instructions, hi, Option.map_some, Instruction.map,
    Program.operand, Program.address_of_var hfree ((mem_labels_of_assemble h).not.mpr hlabel) hvar]

/-- An operand that is too large to be loaded is the cell of a variable. -/
theorem le_or_var_of_load {i n : Nat} (hload : program.instructions[i]? = some (.load n)) :
    n ≤ 32767 ∨ ∃ name, (instructionsOf (linesOf texts))[i]? = some (.load (.symbol name)) ∧
      program.vars[name]? = some n := by
  have hassembled := assembled_of_assemble h
  rw [hassembled.getElem?_instructions] at hload
  obtain ⟨instruction, hi, hmap⟩ := Option.map_eq_some_iff.mp hload
  rcases instruction with (value | name) | ⟨dest, comp, jump⟩
  · obtain rfl : value = n := Instruction.load.inj hmap
    have hline := mem_instructionsOf.mp (List.mem_of_getElem? hi)
    obtain ⟨raw, -, hraw⟩ := List.mem_filterMap.mp hline
    exact .inl (readable_of_lineOf? hraw)
  · obtain rfl : program.address name = n := Instruction.load.inj hmap
    cases hfree : predefined? name with
    | some cell =>
        rw [Program.address_of_predefined hfree]
        exact .inl (predefined?_le hfree)
    | none =>
        by_cases hlabel : name ∈ program.labels
        · obtain ⟨n, hn⟩ := Option.isSome_iff_exists.mp
            (Std.TreeMap.mem_iff_isSome_getElem?.mp hlabel)
          rw [Program.address_of_label hfree hn]
          exact .inl (Nat.le_of_lt_succ (hassembled.bound hn))
        · obtain ⟨n, hn⟩ := exists_var_of_load h (List.mem_of_getElem? hi) hfree hlabel
          rw [Program.address_of_var hfree hlabel hn]
          exact .inr ⟨name, hi, hn⟩
  · cases hmap

theorem exists_var_iff {n : Nat} :
    (∃ name : String, program.vars[name]? = some n) ↔ 16 ≤ n ∧ n < 16 + program.vars.size :=
  (allocates_of_assemble h).exists_cell_iff

theorem loadable_iff : Loadable program ↔ program.vars.size ≤ 32752 := by
  constructor
  · intro hloadable
    by_contra hmany
    obtain ⟨name, hvar⟩ := (@exists_var_iff _ _ h 32768).mpr (by omega)
    obtain ⟨i, hload⟩ := exists_load_of_var h hvar
    exact absurd (hloadable i _ hload) (by decide)
  · intro hfew i n hload
    obtain hle | ⟨name, -, hvar⟩ := le_or_var_of_load h hload
    · exact hle
    · have hbounds := (exists_var_iff h).mp ⟨name, hvar⟩
      omega

theorem sparesDevices_iff : SparesDevices program ↔ program.vars.size ≤ 16368 := by
  constructor
  · intro hspares
    by_contra hmany
    obtain ⟨name, hvar⟩ := (@exists_var_iff _ _ h 16384).mpr (by omega)
    exact (hspares name _ hvar).1 predefined?_screen
  · intro hfew name n hvar
    have hbounds := (exists_var_iff h).mp ⟨name, hvar⟩
    rw [predefined?_screen, predefined?_keyboard, Ne, Ne, Option.some.injEq, Option.some.injEq]
    omega

theorem size_vars_le_of_assemble :
    program.vars.size ≤ program.instructions.size ∧ program.instructions.size ≤ 32768 := by
  obtain ⟨-, layout, hplace, hprogram⟩ := assemble_eq_ok_iff.mp h
  have hsize : program.instructions.size = (instructionsOf (linesOf texts)).length := by
    rw [← Array.length_toList, (assembled_of_assemble h).instructions, List.length_map]
  rw [hsize, (allocates_of_assemble h).size]
  exact ⟨length_freeNames_le _ _, Layout.length_instructionsOf_le hplace⟩

end

/-- Every operand of an assembled program is a number of 15 bits, but for the cells of variables.
These are consecutive from 16 on, so all of them can be loaded exactly if there are no more than
32752 variables, and they spare the screen and the keyboard exactly if there are no more than 16368
of them. There may be as many as there are instructions. -/
theorem operands_of_assemble {texts : List String} {program : Program}
    (h : assemble texts = .ok program) :
    (∀ i n : Nat, program.instructions[i]? = some (.load n) → n ≤ 32767 ∨
        ∃ name, (instructionsOf (linesOf texts))[i]? = some (.load (.symbol name)) ∧
          program.vars[name]? = some n) ∧
      (∀ n, (∃ name : String, program.vars[name]? = some n) ↔
        16 ≤ n ∧ n < 16 + program.vars.size) ∧
      (program.vars.size ≤ program.instructions.size ∧ program.instructions.size ≤ 32768) ∧
      (Loadable program ↔ program.vars.size ≤ 32752) ∧
      (SparesDevices program ↔ program.vars.size ≤ 16368) :=
  ⟨fun _ _ => le_or_var_of_load h, fun _ => exists_var_iff h, size_vars_le_of_assemble h,
    loadable_iff h, sparesDevices_iff h⟩

/-- A text with each kind of operand. -/
def operandKinds : List String :=
  ["@i", "M=1", "@KBD", "D=M", "@32767", "(END)", "@END", "0;JMP"]

theorem operands_of_assemble_operandKinds :
    ∃ program, assemble operandKinds = .ok program ∧ Loadable program ∧ SparesDevices program := by
  have hone : (assemble operandKinds).toOption.any (fun program => program.vars.size = 1) := by
    decide +kernel
  obtain ⟨program, h, hsize⟩ := exists_ok_of_any hone
  obtain ⟨-, -, -, hloadable, hspares⟩ := operands_of_assemble h
  have hvars : program.vars.size = 1 := of_decide_eq_true hsize
  exact ⟨program, h, hloadable.mpr (by omega), hspares.mpr (by omega)⟩

/-- A text that loads a number of variables, one after another. -/
def loadVariables (n : Nat) : List String :=
  (List.range n).map fun i => "@v" ++ toString i

theorem lineOf?_loadVariable (i : Nat) :
    lineOf? ("@v" ++ toString i) = some (.symbol ("v" ++ toString i)) := by
  have hname : isSymbol ("v" ++ toString i).toList :=
    isSymbol_toString_append (by decide) all_isSymbolChar_toString
  have htext : (Line.symbol ("v" ++ toString i)).text = "@v" ++ toString i := by
    rw [Line.symbol, Line.text, Instruction.text, Address.text, ← String.append_assoc]
    rfl
  rw [← htext, lineOf?_symbol hname]

theorem linesOf_loadVariables (n : Nat) :
    linesOf (loadVariables n) = (List.range n).map fun i => .symbol ("v" ++ toString i) := by
  have hline : (lineOf? ∘ fun i : Nat => "@v" ++ toString i) =
      some ∘ fun i => .symbol ("v" ++ toString i) :=
    funext lineOf?_loadVariable
  rw [linesOf, loadVariables, List.filterMap_map, hline, List.filterMap_eq_map]

theorem mem_variablesOf_loadVariables {n : Nat} {name : String} :
    name ∈ variablesOf (linesOf (loadVariables n)) ↔
      name ∈ (List.range n).map fun i => "v" ++ toString i := by
  have hlabels : labelsOf (linesOf (loadVariables n)) = [] := by
    refine List.eq_nil_iff_forall_not_mem.mpr fun label hlabel => ?_
    simpa [linesOf_loadVariables, Line.symbol] using mem_labelsOf.mp hlabel
  have hfree (i : Nat) : predefined? ("v" ++ toString i) = none :=
    @predefined?_eq_none _ 'v' (by decide) (by simp)
  rw [variablesOf, mem_freeNames, mem_instructionsOf, hlabels, linesOf_loadVariables]
  simp only [List.mem_map, Line.symbol, Line.instruction.injEq, Instruction.load.injEq,
    Address.symbol.injEq, List.not_mem_nil, not_false_eq_true, and_true]
  refine and_iff_left_of_imp ?_
  rintro ⟨i, -, rfl⟩
  exact hfree i

/-- Variables can be loaded as long as there is room for the instructions that load them. -/
theorem exists_loadVariables {n : Nat} (hn : n ≤ 32768) :
    ∃ program, assemble (loadVariables n) = .ok program ∧ program.vars.size = n := by
  have hinstructions : ∀ raw ∈ loadVariables n, ∃ i, lineOf? raw = some (.instruction i) := by
    intro raw hraw
    obtain ⟨i, -, rfl⟩ := List.mem_map.mp hraw
    exact ⟨_, lineOf?_loadVariable i⟩
  obtain ⟨program, h⟩ := exists_assemble_iff.mpr
    (inoffensive_of_instructions hinstructions (by simpa [loadVariables] using hn))
  have hnodup : ((List.range n).map fun i => "v" ++ toString i).Nodup := by
    refine List.Nodup.map (fun i j hsame => ?_) List.nodup_range
    exact Nat.repr_inj.mp ((String.append_right_inj "v").mp hsame)
  have hperm := (List.perm_ext_iff_of_nodup (nodup_freeNames _ _) hnodup).mpr fun _ =>
    mem_variablesOf_loadVariables
  refine ⟨program, h, ?_⟩
  rw [(allocates_of_assemble h).size, variablesOf, hperm.length_eq, List.length_map,
    List.length_range]

/-- So many variables fit into the program memory that one has the cell of the screen, another one
that of the keyboard, and still another one a cell that no instruction can load. -/
theorem variables_exceed_operands :
    ∃ program, assemble (loadVariables 32753) = .ok program ∧
      (∃ i : Nat, program.instructions[i]? = some (.load 32768)) ∧
      (∃ name : String, program.vars[name]? = predefined? "SCREEN") ∧
      ∃ name : String, program.vars[name]? = predefined? "KBD" := by
  obtain ⟨program, h, hsize⟩ := @exists_loadVariables 32753 (by decide)
  have hvar {n : Nat} (hlow : 16 ≤ n) (hhigh : n < 16 + 32753) :
      ∃ name : String, program.vars[name]? = some n :=
    (exists_var_iff h).mpr ⟨hlow, hsize ▸ hhigh⟩
  obtain ⟨name, hlast⟩ := @hvar 32768 (by decide) (by decide)
  rw [predefined?_screen, predefined?_keyboard]
  exact ⟨program, h, exists_load_of_var h hlast, hvar (by decide) (by decide),
    hvar (by decide) (by decide)⟩

end HackBackend.Asm
