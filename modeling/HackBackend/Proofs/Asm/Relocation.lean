import HackBackend.Proofs.Asm.Inlining
import HackBackend.Proofs.Asm.Linking
import HackBackend.Proofs.Asm.Resolution

/-!
# Code that is moved

Code that stands behind some other code assembles as it does by itself, but for the distance that
it has been moved by. The distance is added to the addresses of its labels, and with them to what
is loaded for the labels. A number that is an address of the code has to be larger by the distance
in the moved lines themselves.
-/

namespace HackBackend.Asm

/-- Some lines, and the lines that take their place when they are moved. The instructions are
counted from `start` on. Those that satisfy `target` load a number, which is larger by the distance
in the moved lines. All other lines are the same. -/
inductive Moved (distance : Nat) (target : Nat → Prop) : Nat → List Line → List Line → Prop where
  | nil (start : Nat) : Moved distance target start [] []
  | label {start : Nat} {rest moved : List Line} (name : String)
      (hrest : Moved distance target start rest moved) :
      Moved distance target start (.label name :: rest) (.label name :: moved)
  | kept {start : Nat} {rest moved : List Line} (i : Instruction Address) (hkept : ¬ target start)
      (hrest : Moved distance target (start + 1) rest moved) :
      Moved distance target start (.instruction i :: rest) (.instruction i :: moved)
  | shifted {start : Nat} {rest moved : List Line} (n : Nat) (htarget : target start)
      (hfits : n + distance ≤ maxLiteral)
      (hrest : Moved distance target (start + 1) rest moved) :
      Moved distance target start (.instruction (.load (.literal n)) :: rest)
        (.instruction (.load (.literal (n + distance))) :: moved)

namespace Moved

variable {distance start : Nat} {target : Nat → Prop} {code moved : List Line}

/-- Lines without a number that is an address stay as they are. -/
theorem self (h : ∀ i, start ≤ i → i < start + code.countP Line.isInstruction → ¬ target i) :
    Moved distance target start code code := by
  induction code generalizing start with
  | nil => exact .nil start
  | cons line rest ih =>
      cases line with
      | label name => exact .label name (ih h)
      | instruction i =>
          rw [List.countP_cons_of_pos rfl] at h
          exact .kept i (h start (Nat.le_refl _) (by omega))
            (ih fun j hle hlt => h j (by omega) (by omega))

theorem append {first last first' last' : List Line}
    (hfirst : Moved distance target start first first')
    (hlast : Moved distance target (start + first.countP Line.isInstruction) last last') :
    Moved distance target start (first ++ last) (first' ++ last') := by
  induction hfirst with
  | nil => exact hlast
  | label name _ ih => exact .label name (ih (by simpa [Line.isInstruction] using hlast))
  | kept i hkept _ ih =>
      rw [List.countP_cons_of_pos rfl, Nat.add_comm _ 1, ← Nat.add_assoc] at hlast
      exact .kept i hkept (ih hlast)
  | shifted n htarget hfits _ ih =>
      rw [List.countP_cons_of_pos rfl, Nat.add_comm _ 1, ← Nat.add_assoc] at hlast
      exact .shifted n htarget hfits (ih hlast)

section

variable (h : Moved distance target start code moved)

include h

theorem labelsOf_eq : labelsOf moved = labelsOf code := by
  induction h with
  | nil => rfl
  | label name _ ih => rw [labelsOf_label, labelsOf_label, ih]
  | kept _ _ _ ih | shifted _ _ _ _ ih => exact ih

theorem length_instructionsOf_eq :
    (instructionsOf moved).length = (instructionsOf code).length := by
  induction h with
  | nil => rfl
  | label _ _ ih => exact ih
  | kept _ _ _ ih | shifted _ _ _ _ ih =>
      rw [instructionsOf_instruction, instructionsOf_instruction, List.length_cons,
        List.length_cons, ih]

/-- The names that are loaded are the same, in the same order. -/
theorem filterMap_symbol?_eq :
    (instructionsOf moved).filterMap Instruction.symbol? =
      (instructionsOf code).filterMap Instruction.symbol? := by
  induction h with
  | nil => rfl
  | label _ _ ih => exact ih
  | kept i _ _ ih =>
      rw [instructionsOf_instruction, instructionsOf_instruction, List.filterMap_cons,
        List.filterMap_cons, ih]
  | shifted _ _ _ _ ih => exact ih

/-- A label has an address that is larger by the distance. -/
theorem labelAddress?_eq (address : Nat) (name : String) :
    labelAddress? (address + distance) moved name =
      (labelAddress? address code name).map (· + distance) := by
  induction h generalizing address with
  | nil => rfl
  | label label _ ih =>
      rw [labelAddress?, labelAddress?]
      by_cases hname : label = name
      · rw [if_pos hname, if_pos hname, Option.map_some]
      · rw [if_neg hname, if_neg hname, ih]
  | kept _ _ _ ih | shifted _ _ _ _ ih =>
      rw [labelAddress?, labelAddress?, ← ih, Nat.add_right_comm]

/-- What becomes of a single instruction. -/
theorem getElem?_instructionsOf {i : Nat} {instruction : Instruction Address}
    (hi : (instructionsOf code)[i]? = some instruction) :
    (¬ target (start + i) ∧ (instructionsOf moved)[i]? = some instruction) ∨
      (target (start + i) ∧ ∃ n, instruction = .load (.literal n) ∧
        (instructionsOf moved)[i]? = some (.load (.literal (n + distance)))) := by
  induction h generalizing i with
  | nil => cases hi
  | label _ _ ih => exact ih hi
  | kept first hkept _ ih =>
      cases i with
      | zero => exact .inl ⟨hkept, hi⟩
      | succ i => simpa [Nat.add_comm, Nat.add_left_comm] using ih hi
  | shifted n htarget _ _ ih =>
      cases i with
      | zero => exact .inr ⟨htarget, n, (Option.some.inj hi).symm, rfl⟩
      | succ i => simpa [Nat.add_comm, Nat.add_left_comm] using ih hi

/-- Moved lines need no less room than the lines themselves, and define the same labels. -/
theorem exists_placeLines {layout layout' final' : Layout}
    (hsize : layout.instructions.size ≤ layout'.instructions.size)
    (hlabels : ∀ name, name ∈ layout.labels → name ∈ layout'.labels)
    (hplace : layout'.placeLines moved = .ok final') :
    ∃ final, layout.placeLines code = .ok final := by
  induction h generalizing layout layout' with
  | nil => exact ⟨layout, rfl⟩
  | label name _ ih =>
      obtain ⟨next, hnext, hrest⟩ := Layout.placeLines_cons_eq_ok_iff.mp hplace
      obtain ⟨hnew, hroom, rfl⟩ := Layout.place_label_eq_ok_iff.mp hnext
      have hplaced := Layout.place_label_eq_ok_iff.mpr
        ⟨fun hmem => hnew (hlabels name hmem), Nat.lt_of_le_of_lt hsize hroom, rfl⟩
      have hgrown : ∀ other, other ∈ layout.labels.insert name layout.instructions.size →
          other ∈ layout'.labels.insert name layout'.instructions.size := by
        intro other hother
        rw [Std.TreeMap.mem_insert] at hother ⊢
        exact hother.imp_right (hlabels other)
      obtain ⟨final, hfinal⟩ := @ih { layout with labels := layout.labels.insert name _ }
        { layout' with labels := layout'.labels.insert name _ } hsize hgrown hrest
      exact ⟨final, Layout.placeLines_cons_eq_ok_iff.mpr ⟨_, hplaced, hfinal⟩⟩
  | kept _ _ _ ih | shifted _ _ _ _ ih =>
      obtain ⟨next, hnext, hrest⟩ := Layout.placeLines_cons_eq_ok_iff.mp hplace
      obtain ⟨hroom, rfl⟩ := Layout.place_instruction_eq_ok_iff.mp hnext
      obtain ⟨final, hfinal⟩ := @ih { layout with instructions := layout.instructions.push _ }
        { layout' with instructions := layout'.instructions.push _ } (by simpa using hsize) hlabels
        hrest
      exact ⟨final, Layout.placeLines_cons_eq_ok_iff.mpr ⟨_, Layout.place_instruction_eq_ok_iff.mpr
        ⟨Nat.lt_of_le_of_lt hsize hroom, rfl⟩, hfinal⟩⟩

end

end Moved

/-- The instruction at an index loads the address of a label. -/
def Program.LoadsLabel (program : Program) (code : List Line) (i : Nat) : Prop :=
  ∃ name, (instructionsOf code)[i]? = some (.load (.symbol name)) ∧ predefined? name = none ∧
    name ∈ program.labels

/-- A program whose code stands in another program, moved by a distance. -/
structure Relocated (distance : Nat) (target : Nat → Prop) (code : List Line)
    (plain moved : Program) : Prop where
  size : moved.instructions.size = distance + plain.instructions.size
  labels : ∀ name : String, moved.labels[name]? = plain.labels[name]?.map (· + distance)
  vars : ∀ name : String, moved.vars[name]? = plain.vars[name]?
  /-- An address of the code is larger by the distance. -/
  shifted : ∀ i, plain.LoadsLabel code i ∨ target i →
    ∃ n, plain.instructions[i]? = some (.load n) ∧
      moved.instructions[distance + i]? = some (.load (n + distance))
  /-- All other instructions are the same. -/
  kept : ∀ i, ¬ plain.LoadsLabel code i → ¬ target i →
    moved.instructions[distance + i]? = plain.instructions[i]?

/-- Variables with the same names in the same order have the same cells. -/
theorem getElem?_vars_eq {program program' : Program} {names : List String}
    (h : program.Allocates names) (h' : program'.Allocates names) (name : String) :
    program'.vars[name]? = program.vars[name]? := by
  refine Option.ext fun n => ?_
  rw [h.cell, h'.cell]

section

variable {distance : Nat} {target : Nat → Prop} {code moved : List Line}
variable {plain behind : Program} (h : Moved distance target 0 code moved)
variable (hplain : Assembled code plain)
variable (hat : ∀ i, behind.instructions[distance + i]? =
  (instructionsOf moved)[i]?.map (·.map behind.operand))

include h hplain hat

/-- What is loaded for a label is larger by the distance. -/
theorem shifted_of_loadsLabel
    (hlabels : ∀ name : String, behind.labels[name]? = plain.labels[name]?.map (· + distance))
    {i : Nat} (hi : plain.LoadsLabel code i) :
    ∃ n, plain.instructions[i]? = some (.load n) ∧
      behind.instructions[distance + i]? = some (.load (n + distance)) := by
  obtain ⟨name, hload, hfree, hname⟩ := hi
  obtain ⟨n, hn⟩ := Option.isSome_iff_exists.mp (Std.TreeMap.mem_iff_isSome_getElem?.mp hname)
  have hshifted : behind.labels[name]? = some (n + distance) := by
    rw [hlabels, hn, Option.map_some]
  have hsame : (instructionsOf moved)[i]? = some (.load (.symbol name)) := by
    rcases h.getElem?_instructionsOf hload with ⟨-, hsame⟩ | ⟨-, m, hliteral, -⟩
    · exact hsame
    · cases hliteral
  refine ⟨n, ?_, ?_⟩
  · rw [hplain.getElem?_instructions, hload, Option.map_some, Instruction.map, Program.operand,
      Program.address_of_label hfree hn]
  · rw [hat, hsame, Option.map_some, Instruction.map, Program.operand,
      Program.address_of_label hfree hshifted]

theorem shifted_of_target {i : Nat} (hi : target i) (hlt : i < (instructionsOf code).length) :
    ∃ n, plain.instructions[i]? = some (.load n) ∧
      behind.instructions[distance + i]? = some (.load (n + distance)) := by
  have hload := List.getElem?_eq_getElem hlt
  rcases h.getElem?_instructionsOf hload with ⟨hno, -⟩ | ⟨-, n, hliteral, hmoved⟩
  · rw [Nat.zero_add] at hno
    exact absurd hi hno
  · refine ⟨n, ?_, ?_⟩
    · rw [hplain.getElem?_instructions, hload, hliteral]
      rfl
    · rw [hat, hmoved]
      rfl

omit h hplain hat in
/-- A name that is no label stands for the same cell. -/
theorem find?_eq_of_vars_eq
    (hlabels : ∀ name : String, behind.labels[name]? = plain.labels[name]?.map (· + distance))
    (hvars : ∀ name : String, behind.vars[name]? = plain.vars[name]?) {name : String}
    (hname : predefined? name = none → name ∉ plain.labels) :
    behind.find? name = plain.find? name := by
  rw [Program.find?, Program.find?, hlabels, hvars]
  cases hfree : predefined? name with
  | some cell => rfl
  | none => rw [Std.TreeMap.getElem?_eq_none (hname hfree), Option.map_none]

theorem kept_of_not
    (hlabels : ∀ name : String, behind.labels[name]? = plain.labels[name]?.map (· + distance))
    (hvars : ∀ name : String, behind.vars[name]? = plain.vars[name]?) {i : Nat}
    (hlabel : ¬ plain.LoadsLabel code i) (htarget : ¬ target i) :
    behind.instructions[distance + i]? = plain.instructions[i]? := by
  rw [hat, hplain.getElem?_instructions]
  cases hload : (instructionsOf code)[i]? with
  | none =>
      have hnone : (instructionsOf moved)[i]? = none := by
        rw [List.getElem?_eq_none_iff, h.length_instructionsOf_eq]
        exact List.getElem?_eq_none_iff.mp hload
      rw [hnone]
      rfl
  | some instruction =>
      rcases h.getElem?_instructionsOf hload with ⟨-, hsame⟩ | ⟨hshifted, -⟩
      · rw [hsame, Option.map_some, Option.map_some]
        rcases instruction with (n | name) | ⟨dest, comp, jump⟩
        · rfl
        · have hunlabelled : predefined? name = none → name ∉ plain.labels :=
            fun hfree hname => hlabel ⟨name, hload, hfree, hname⟩
          rw [Instruction.map, Instruction.map, Program.operand, Program.operand,
            Program.address, Program.address, find?_eq_of_vars_eq hlabels hvars hunlabelled]
        · rfl
      · rw [Nat.zero_add] at hshifted
        exact absurd hshifted htarget

end

/-- Lines that neither define a label nor use a variable. -/
structure IsPrologue (head : List Line) : Prop where
  labels : labelsOf head = []
  predefined : ∀ name, .load (.symbol name) ∈ instructionsOf head → predefined? name ≠ none

section

variable {distance : Nat} {target : Nat → Prop} {head code moved : List Line}
variable {layout layout' : Layout}
variable (h : Moved distance target 0 code moved) (hhead : IsPrologue head)

include h hhead

/-- The variables are those of the lines by themselves. -/
theorem Moved.variablesOf_eq : variablesOf (head ++ moved) = variablesOf code := by
  have hlabels : labelsOf (head ++ moved) = labelsOf code := by
    rw [labelsOf_append, hhead.labels, h.labelsOf_eq, List.nil_append]
  have hnone : ((instructionsOf head).filterMap Instruction.symbol?).filter
      (isFree (labelsOf code)) = [] := by
    rw [List.filter_eq_nil_iff]
    intro name hname hfree
    obtain ⟨i, hi, hsymbol⟩ := List.mem_filterMap.mp hname
    rw [symbol?_eq_some_iff.mp hsymbol] at hi
    exact hhead.predefined name hi (isFree_iff.mp hfree).1
  rw [variablesOf, variablesOf, freeNames, freeNames, hlabels, instructionsOf_append,
    List.filterMap_append, List.filter_append, hnone, h.filterMap_symbol?_eq, List.nil_append]

/-- The labels behind a prologue have addresses that are larger by its length. -/
theorem Moved.labels_behind (hdistance : (instructionsOf head).length = distance)
    (hplace : ({} : Layout).placeLines (head ++ moved) = .ok layout')
    (hlayout : ({} : Layout).placeLines code = .ok layout) (name : String) :
    layout'.program.labels[name]? = layout.program.labels[name]?.map (· + distance) := by
  obtain ⟨middle, hmiddle, hmoved⟩ := Layout.placeLines_append_eq_ok_iff.mp hplace
  have hsize : middle.instructions.size = 0 + distance := by
    simpa [hdistance] using congrArg List.length (Layout.instructions_of_placeLines hmiddle)
  have hnone : middle.labels[name]? = none := by
    have hlabel : ¬ (labelAddress? 0 head name).isSome := by
      rw [isSome_labelAddress?, hhead.labels]
      exact List.not_mem_nil
    have hlookup := Layout.labels_of_placeLines hmiddle name
    simpa [Option.not_isSome_iff_eq_none.mp hlabel] using hlookup
  have hbehind := Layout.labels_of_placeLines hmoved name
  have hplain := Layout.labels_of_placeLines hlayout name
  rw [hnone, hsize, h.labelAddress?_eq] at hbehind
  rw [Layout.labels_program, Layout.labels_program, hbehind, hplain]
  simp

/-- Code behind a prologue assembles to the code by itself, moved by the length of the prologue. -/
theorem Moved.exists_relocated (hdistance : (instructionsOf head).length = distance)
    (htarget : ∀ i, target i → i < (instructionsOf code).length)
    (hplace : ({} : Layout).placeLines (head ++ moved) = .ok layout') :
    ∃ layout, ({} : Layout).placeLines code = .ok layout ∧
      Relocated distance target code layout.program layout'.program := by
  obtain ⟨middle, hmiddle, hmoved⟩ := Layout.placeLines_append_eq_ok_iff.mp hplace
  obtain ⟨layout, hlayout⟩ : ∃ layout, ({} : Layout).placeLines code = .ok layout :=
    h.exists_placeLines (Nat.zero_le _) (by simp) hmoved
  have hplain := assembled_of_placeLines hlayout
  have hbehind := assembled_of_placeLines hplace
  have hlabels := h.labels_behind hhead hdistance hplace hlayout
  have hvars := getElem?_vars_eq (Layout.allocates_program hlayout)
    (h.variablesOf_eq hhead ▸ Layout.allocates_program hplace)
  have hat (i : Nat) : layout'.program.instructions[distance + i]? =
      (instructionsOf moved)[i]?.map (·.map layout'.program.operand) := by
    rw [hbehind.getElem?_instructions, instructionsOf_append, ← hdistance,
      List.getElem?_append_right (Nat.le_add_right _ _), Nat.add_sub_cancel_left]
  refine ⟨layout, hlayout, ?_, hlabels, hvars, fun i hi => ?_, fun i hlabel hi => ?_⟩
  · rw [← Array.length_toList, ← Array.length_toList, hbehind.instructions, hplain.instructions,
      List.length_map, List.length_map, instructionsOf_append, List.length_append, hdistance,
      h.length_instructionsOf_eq]
  · rcases hi with hlabel | hi
    · exact shifted_of_loadsLabel h hplain hat hlabels hlabel
    · exact shifted_of_target h hplain hat hi (htarget i hi)
  · exact kept_of_not h hplain hat hlabels hvars hlabel hi

end

end HackBackend.Asm
