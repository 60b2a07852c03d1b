import HackBackend.Asm.Program
import HackBackend.Proofs.Asm.Spelling

/-!
# What assembling makes of the lines of a text

Placing lines gives every label the number of instructions before it, and no label is placed
twice. In the finished program every instruction is the one that was placed, with its symbol
replaced by the address that the finished symbol tables have for it: a variable keeps the cell
that it got when it was first used.
-/

namespace HackBackend.Asm

/-- An instruction with another operand. -/
def Instruction.map {α β : Type} (f : α → β) : Instruction α → Instruction β
  | .load address => .load (f address)
  | .compute dest comp jump => .compute dest comp jump

/-- The lines that some texts hold. A text without code holds none. -/
def linesOf (texts : List String) : List Line :=
  texts.filterMap lineOf?

theorem linesOf_append (xs ys : List String) : linesOf (xs ++ ys) = linesOf xs ++ linesOf ys :=
  List.filterMap_append

def instructionsOf (code : List Line) : List (Instruction Address) :=
  code.filterMap fun
    | .instruction i => some i
    | .label _ => none

def labelsOf (code : List Line) : List String :=
  code.filterMap fun
    | .instruction _ => none
    | .label name => some name

@[simp] theorem instructionsOf_nil : instructionsOf [] = [] := rfl

@[simp] theorem instructionsOf_instruction (i : Instruction Address) (code : List Line) :
    instructionsOf (.instruction i :: code) = i :: instructionsOf code := rfl

@[simp] theorem instructionsOf_label (name : String) (code : List Line) :
    instructionsOf (.label name :: code) = instructionsOf code := rfl

@[simp] theorem instructionsOf_append (xs ys : List Line) :
    instructionsOf (xs ++ ys) = instructionsOf xs ++ instructionsOf ys :=
  List.filterMap_append

@[simp] theorem labelsOf_nil : labelsOf [] = [] := rfl

@[simp] theorem labelsOf_instruction (i : Instruction Address) (code : List Line) :
    labelsOf (.instruction i :: code) = labelsOf code := rfl

@[simp] theorem labelsOf_label (name : String) (code : List Line) :
    labelsOf (.label name :: code) = name :: labelsOf code := rfl

@[simp] theorem labelsOf_append (xs ys : List Line) :
    labelsOf (xs ++ ys) = labelsOf xs ++ labelsOf ys :=
  List.filterMap_append

theorem mem_labelsOf {name : String} {code : List Line} :
    name ∈ labelsOf code ↔ .label name ∈ code := by
  induction code with
  | nil => simp
  | cons line rest ih => cases line <;> simp [ih]

theorem mem_instructionsOf {i : Instruction Address} {code : List Line} :
    i ∈ instructionsOf code ↔ .instruction i ∈ code := by
  induction code with
  | nil => simp
  | cons line rest ih => cases line <;> simp [ih]

theorem length_instructionsOf (code : List Line) :
    (instructionsOf code).length = code.countP Line.isInstruction := by
  induction code with
  | nil => rfl
  | cons line rest ih => cases line <;> simp [List.countP_cons, ih, Line.isInstruction]

/-- The lines that the spelling of some lines is read as. -/
def reread (code : List Line) : List Line :=
  code.filterMap fun line => lineOf? line.text

theorem reread_cons {line read : Line} (h : lineOf? line.text = some read) (code : List Line) :
    reread (line :: code) = read :: reread code :=
  List.filterMap_cons_some h

theorem reread_append (xs ys : List Line) : reread (xs ++ ys) = reread xs ++ reread ys :=
  List.filterMap_append

theorem reread_eq_self {code : List Line} (h : ∀ line ∈ code, line.Readable) :
    reread code = code := by
  induction code with
  | nil => rfl
  | cons line rest ih =>
      obtain ⟨hline, hrest⟩ := List.forall_mem_cons.mp h
      rw [reread_cons (lineOf?_text hline), ih hrest]

/-- As many instructions are read as are spelled. -/
theorem length_instructionsOf_reread {code : List Line}
    (h : ∀ line ∈ code, (lineOf? line.text).isSome) :
    (instructionsOf (reread code)).length = code.countP Line.isInstruction := by
  rw [length_instructionsOf]
  induction code with
  | nil => rfl
  | cons line rest ih =>
      obtain ⟨hline, hrest⟩ := List.forall_mem_cons.mp h
      obtain ⟨read, hread⟩ := Option.isSome_iff_exists.mp hline
      rw [reread_cons hread, List.countP_cons, List.countP_cons, ih hrest,
        isInstruction_of_lineOf?_text hread]

/-- The address that a label has if the lines are placed from an address on. -/
def labelAddress? (start : Nat) : List Line → String → Option Nat
  | [], _ => none
  | .label label :: rest, name =>
      if label = name then some start else labelAddress? start rest name
  | .instruction _ :: rest, name => labelAddress? (start + 1) rest name

/-- A label that is not defined earlier names the address of the instruction after it. -/
theorem labelAddress?_append {start : Nat} {before after : List Line} {name : String}
    (h : name ∉ labelsOf before) :
    labelAddress? start (before ++ .label name :: after) name =
      some (start + (instructionsOf before).length) := by
  induction before generalizing start with
  | nil => simp [labelAddress?]
  | cons line rest ih =>
      cases line with
      | instruction i =>
          have hrest := @ih (start + 1) (by simpa using h)
          simp only [List.cons_append, labelAddress?, hrest, instructionsOf_instruction,
            List.length_cons]
          congr 1
          omega
      | label label =>
          simp only [labelsOf_label, List.mem_cons, not_or] at h
          have hrest := @ih start h.2
          simp only [List.cons_append, labelAddress?, if_neg (Ne.symm h.1), hrest,
            instructionsOf_label]

/-- A label that has an address stands before the instruction there. -/
theorem exists_of_labelAddress?_eq_some {start n : Nat} {code : List Line} {name : String}
    (h : labelAddress? start code name = some n) :
    ∃ before after, code = before ++ .label name :: after ∧
      n = start + (instructionsOf before).length := by
  induction code generalizing start with
  | nil => cases h
  | cons line rest ih =>
      cases line with
      | instruction i =>
          obtain ⟨before, after, rfl, hn⟩ := @ih (start + 1) h
          refine ⟨.instruction i :: before, after, rfl, ?_⟩
          rw [hn, instructionsOf_instruction, List.length_cons]
          omega
      | label label =>
          rw [labelAddress?] at h
          by_cases hname : label = name
          · subst hname
            rw [if_pos rfl] at h
            exact ⟨[], rest, rfl, (Option.some.inj h).symm⟩
          · rw [if_neg hname] at h
            obtain ⟨before, after, rfl, hn⟩ := ih h
            exact ⟨.label label :: before, after, rfl, hn⟩

namespace Layout

/-- Places some lines one after another. -/
def placeLines (layout : Layout) : List Line → Except Cause Layout
  | [] => .ok layout
  | line :: rest =>
      match layout.place line with
      | .error cause => .error cause
      | .ok layout => layout.placeLines rest

/-- A text is placed if every line of it can be read, and the lines that it holds are placed. -/
theorem placeAll_eq_ok_iff {layout final : Layout} {number : Nat} {texts : List String} :
    layout.placeAll number texts = .ok final ↔
      (∀ raw ∈ texts, codeOf raw ≠ [] → (lineOf? raw).isSome) ∧
        layout.placeLines (linesOf texts) = .ok final := by
  induction texts generalizing layout number with
  | nil => simp [placeAll, placeLines, linesOf]
  | cons raw rest ih =>
      rw [placeAll, placeText]
      cases hread : readLine (number + 1) raw with
      | error e =>
          have hnone : lineOf? raw = none := by
            cases hline : lineOf? raw with
            | none => rfl
            | some line => simp [readLine_eq_ok_some_iff.mpr hline] at hread
          have hcode : codeOf raw ≠ [] := fun h => by
            simp [readLine_eq_ok_none_iff.mpr h] at hread
          simp [hnone, hcode]
      | ok found =>
          cases found with
          | none =>
              have hcode := readLine_eq_ok_none_iff.mp hread
              have hnone : lineOf? raw = none := by rw [lineOf?, hcode, lineOfCode_nil]
              simp [ih, hcode, linesOf, hnone]
          | some line =>
              have hline := readLine_eq_ok_some_iff.mp hread
              cases hplace : layout.place line with
              | error cause => simp [linesOf, hline, placeLines, hplace]
              | ok next => simp [linesOf, hline, placeLines, hplace, ih]

theorem place_label_eq_ok_iff {layout next : Layout} {name : String} :
    layout.place (.label name) = .ok next ↔
      name ∉ layout.labels ∧ layout.instructions.size < romSize ∧
        next = { layout with
          labels := layout.labels.insert name layout.instructions.size } := by
  rw [place]
  by_cases hmem : name ∈ layout.labels
  · simp [hmem]
  · by_cases hfull : romSize ≤ layout.instructions.size
    · simp [hmem, hfull, Nat.not_lt.mpr hfull]
    · simp [hmem, hfull, Nat.not_le.mp hfull, eq_comm]

theorem place_instruction_eq_ok_iff {layout next : Layout} {i : Instruction Address} :
    layout.place (.instruction i) = .ok next ↔
      layout.instructions.size < romSize ∧
        next = { layout with instructions := layout.instructions.push i } := by
  rw [place]
  by_cases hfull : romSize ≤ layout.instructions.size
  · simp [hfull, Nat.not_lt.mpr hfull]
  · simp [hfull, Nat.not_le.mp hfull, eq_comm]

theorem placeLines_cons_eq_ok_iff {layout final : Layout} {line : Line} {rest : List Line} :
    layout.placeLines (line :: rest) = .ok final ↔
      ∃ next, layout.place line = .ok next ∧ next.placeLines rest = .ok final := by
  rw [placeLines]
  cases layout.place line <;> simp

/-- The lookup in the labels of a layout after one more label. -/
theorem getElem?_insert_labels (labels : SymbolTable) (label : String) (address : Nat)
    (name : String) : (labels.insert label address)[name]? =
      if label = name then some address else labels[name]? := by
  rw [Std.TreeMap.getElem?_insert]
  simp [Std.LawfulEqCmp.compare_eq_iff_eq]

/-- Placing lines adds their instructions in their order. -/
theorem instructions_of_placeLines {layout final : Layout} {code : List Line}
    (h : layout.placeLines code = .ok final) :
    final.instructions.toList = layout.instructions.toList ++ instructionsOf code := by
  induction code generalizing layout with
  | nil => cases h; simp
  | cons line rest ih =>
      obtain ⟨next, hplace, hrest⟩ := placeLines_cons_eq_ok_iff.mp h
      rw [ih hrest]
      cases line with
      | label name =>
          obtain ⟨-, -, rfl⟩ := place_label_eq_ok_iff.mp hplace
          rfl
      | instruction i =>
          obtain ⟨-, rfl⟩ := place_instruction_eq_ok_iff.mp hplace
          simp

/-- The instructions of a layout are those of the lines that have been placed in it. -/
theorem toList_instructions {layout : Layout} {code : List Line}
    (h : ({} : Layout).placeLines code = .ok layout) :
    layout.instructions.toList = instructionsOf code := by
  simpa using instructions_of_placeLines h

/-- Placing lines adds their labels with the addresses that follow them. -/
theorem labels_of_placeLines {layout final : Layout} {code : List Line}
    (h : layout.placeLines code = .ok final) (name : String) :
    final.labels[name]? =
      (layout.labels[name]? <|> labelAddress? layout.instructions.size code name) := by
  induction code generalizing layout with
  | nil => cases h; simp [labelAddress?]
  | cons line rest ih =>
      obtain ⟨next, hplace, hrest⟩ := placeLines_cons_eq_ok_iff.mp h
      rw [ih hrest]
      cases line with
      | label label =>
          obtain ⟨hnew, -, rfl⟩ := place_label_eq_ok_iff.mp hplace
          rw [labelAddress?, getElem?_insert_labels]
          by_cases hname : label = name
          · subst hname
            simp [Std.TreeMap.getElem?_eq_none hnew]
          · simp [hname]
      | instruction i =>
          obtain ⟨-, rfl⟩ := place_instruction_eq_ok_iff.mp hplace
          simp [labelAddress?]

/-- No label is placed twice. -/
theorem nodup_labelsOf {layout final : Layout} {code : List Line}
    (h : layout.placeLines code = .ok final) :
    (labelsOf code).Nodup ∧ ∀ name ∈ labelsOf code, name ∉ layout.labels := by
  induction code generalizing layout with
  | nil => simp
  | cons line rest ih =>
      obtain ⟨next, hplace, hrest⟩ := placeLines_cons_eq_ok_iff.mp h
      obtain ⟨hnodup, hnew⟩ := ih hrest
      cases line with
      | label label =>
          obtain ⟨hlabel, -, rfl⟩ := place_label_eq_ok_iff.mp hplace
          simp only [Std.TreeMap.mem_insert, not_or] at hnew
          refine ⟨List.nodup_cons.mpr ⟨fun hmem => ?_, hnodup⟩, fun name hname => ?_⟩
          · exact (hnew label hmem).1 (by simp)
          · rcases List.mem_cons.mp hname with rfl | hname
            · exact hlabel
            · exact (hnew name hname).2
      | instruction i =>
          obtain ⟨-, rfl⟩ := place_instruction_eq_ok_iff.mp hplace
          exact ⟨hnodup, hnew⟩

/-- A label stands before an address of the program memory. -/
theorem labelAddress_lt_romSize {layout final : Layout} {before after : List Line}
    {name : String} (h : layout.placeLines (before ++ .label name :: after) = .ok final) :
    layout.instructions.size + (instructionsOf before).length < romSize := by
  induction before generalizing layout with
  | nil =>
      obtain ⟨next, hplace, -⟩ := placeLines_cons_eq_ok_iff.mp h
      simpa using (place_label_eq_ok_iff.mp hplace).2.1
  | cons line rest ih =>
      obtain ⟨next, hplace, hrest⟩ := placeLines_cons_eq_ok_iff.mp h
      have hlt := ih hrest
      cases line with
      | label label =>
          obtain ⟨-, -, rfl⟩ := place_label_eq_ok_iff.mp hplace
          simpa using hlt
      | instruction i =>
          obtain ⟨-, rfl⟩ := place_instruction_eq_ok_iff.mp hplace
          simp only [Array.size_push, instructionsOf_instruction, List.length_cons] at hlt ⊢
          omega

end Layout

namespace Program

/-- The address that the symbol tables of a program have for a name. -/
def find? (program : Program) (name : String) : Option Nat :=
  predefined? name <|> program.labels[name]? <|> program.vars[name]?

/-- The address of a name that the program uses. -/
def address (program : Program) (name : String) : Nat :=
  (program.find? name).getD 0

def operand (program : Program) : Address → Nat
  | .literal n => n
  | .symbol name => program.address name

theorem add_symbol_of_some {program : Program} {name : String} {n : Nat}
    (h : program.find? name = some n) :
    program.add (.load (.symbol name)) =
      { program with instructions := program.instructions.push (.load n) } := by
  rw [find?] at h
  simp only [add, resolve]
  rw [h]

theorem add_symbol_of_none {program : Program} {name : String}
    (h : program.find? name = none) :
    program.add (.load (.symbol name)) =
      { program with
        instructions := program.instructions.push (.load (variableBase + program.vars.size))
        vars := program.vars.insert name (variableBase + program.vars.size) } := by
  rw [find?] at h
  simp only [add, resolve]
  rw [h]

@[simp] theorem labels_add (program : Program) (i : Instruction Address) :
    (program.add i).labels = program.labels := by
  cases i <;> rfl

theorem labels_foldl_add (program : Program) (is : List (Instruction Address)) :
    (is.foldl add program).labels = program.labels := by
  induction is generalizing program with
  | nil => rfl
  | cons i rest ih => rw [List.foldl_cons, ih, labels_add]

/-- A name that has an address keeps it when another instruction is added. -/
theorem find?_add {program : Program} (i : Instruction Address) {name : String} {n : Nat}
    (h : program.find? name = some n) : (program.add i).find? name = some n := by
  rcases i with (literal | symbol) | ⟨dest, comp, jump⟩
  · exact h
  · cases hsymbol : program.find? symbol with
    | some m =>
        rw [add_symbol_of_some hsymbol]
        exact h
    | none =>
        have hne : symbol ≠ name := by
          rintro rfl
          simp [h] at hsymbol
        rw [add_symbol_of_none hsymbol, find?, Layout.getElem?_insert_labels, if_neg hne]
        exact h
  · exact h

theorem find?_foldl_add {program : Program} (is : List (Instruction Address)) {name : String}
    {n : Nat} (h : program.find? name = some n) :
    (is.foldl add program).find? name = some n := by
  induction is generalizing program with
  | nil => exact h
  | cons i rest ih => exact ih (find?_add i h)

/-- An added instruction loads the address that the program has for its symbol from then on. -/
theorem exists_add_symbol (program : Program) (name : String) :
    ∃ n, (program.add (.load (.symbol name))).instructions =
        program.instructions.push (.load n) ∧
      (program.add (.load (.symbol name))).find? name = some n := by
  cases h : program.find? name with
  | some n => exact ⟨n, by rw [add_symbol_of_some h], find?_add _ h⟩
  | none =>
      refine ⟨variableBase + program.vars.size, by rw [add_symbol_of_none h], ?_⟩
      have hfree : predefined? name = none ∧ program.labels[name]? = none ∧
          program.vars[name]? = none := by
        simpa [find?] using h
      rw [add_symbol_of_none h, find?, Layout.getElem?_insert_labels, if_pos rfl, hfree.1,
        hfree.2.1]
      rfl

/-- An instruction is added with the operand that it has in every later program. -/
theorem instructions_add (program : Program) (i : Instruction Address)
    (rest : List (Instruction Address)) :
    (program.add i).instructions =
      program.instructions.push (i.map (rest.foldl add (program.add i)).operand) := by
  rcases i with (n | name) | ⟨dest, comp, jump⟩
  · rfl
  · obtain ⟨n, hpush, hfind⟩ := exists_add_symbol program name
    rw [hpush, Instruction.map, operand, address, find?_foldl_add rest hfind]
    rfl
  · rfl

/-- The instructions of an added list have the operands of the finished program. -/
theorem instructions_foldl_add (program : Program) (is : List (Instruction Address)) :
    (is.foldl add program).instructions.toList =
      program.instructions.toList ++ is.map (·.map (is.foldl add program).operand) := by
  induction is generalizing program with
  | nil => simp
  | cons i rest ih =>
      rw [List.foldl_cons, ih, instructions_add program i rest]
      simp

end Program

theorem assemble_eq_ok_iff {texts : List String} {program : Program} :
    assemble texts = .ok program ↔
      (∀ raw ∈ texts, codeOf raw ≠ [] → (lineOf? raw).isSome) ∧
        ∃ layout, ({} : Layout).placeLines (linesOf texts) = .ok layout ∧
          layout.program = program := by
  have hmap : assemble texts = .ok program ↔
      ∃ layout, ({} : Layout).placeAll 0 texts = .ok layout ∧ layout.program = program := by
    unfold assemble
    cases ({} : Layout).placeAll 0 texts <;> simp [Except.map]
  rw [hmap]
  simp only [Layout.placeAll_eq_ok_iff]
  constructor
  · rintro ⟨layout, ⟨hread, hplace⟩, hprogram⟩
    exact ⟨hread, layout, hplace, hprogram⟩
  · rintro ⟨hread, layout, hplace, hprogram⟩
    exact ⟨layout, ⟨hread, hplace⟩, hprogram⟩

/-- A program is what some lines of assembly spell out: their instructions in their order, each
with the address that the program has for its operand, and their labels, each with the number
of instructions before it. -/
structure Assembled (code : List Line) (program : Program) : Prop where
  instructions :
    program.instructions.toList = (instructionsOf code).map (·.map program.operand)
  labels : ∀ name, program.labels[name]? = labelAddress? 0 code name
  nodup : (labelsOf code).Nodup
  bound : ∀ {name : String} {n : Nat}, program.labels[name]? = some n → n < romSize

theorem Layout.labels_program (layout : Layout) : layout.program.labels = layout.labels := by
  rw [Layout.program, ← Array.foldl_toList, Program.labels_foldl_add]

theorem assembled_of_placeLines {code : List Line} {layout : Layout}
    (h : ({} : Layout).placeLines code = .ok layout) : Assembled code layout.program where
  instructions := by
    have hplaced := Layout.toList_instructions h
    have hadded := Program.instructions_foldl_add ⟨#[], layout.labels, ∅⟩
      layout.instructions.toList
    rw [Array.foldl_toList, hplaced] at hadded
    simpa [Layout.program] using hadded
  labels name := by
    rw [Layout.labels_program]
    simpa using Layout.labels_of_placeLines h name
  nodup := (Layout.nodup_labelsOf h).1
  bound {name n} hname := by
    have hlabel : labelAddress? 0 code name = some n := by
      rw [Layout.labels_program] at hname
      simpa [hname] using (Layout.labels_of_placeLines h name).symm
    obtain ⟨before, after, rfl, rfl⟩ := exists_of_labelAddress?_eq_some hlabel
    exact Layout.labelAddress_lt_romSize h

theorem assembled_of_assemble {texts : List String} {program : Program}
    (h : assemble texts = .ok program) : Assembled (linesOf texts) program := by
  obtain ⟨-, layout, hplace, rfl⟩ := assemble_eq_ok_iff.mp h
  exact assembled_of_placeLines hplace

/-- Where a label is defined, the program has the address of the instruction after it. -/
theorem Assembled.label {before after : List Line} {name : String} {program : Program}
    (h : Assembled (before ++ .label name :: after) program) :
    program.labels[name]? = some (instructionsOf before).length := by
  have hnew : name ∉ labelsOf before := by
    intro hmem
    have hnodup := h.nodup
    rw [labelsOf_append, labelsOf_label] at hnodup
    exact (List.nodup_append.mp hnodup).2.2 name hmem name (by simp) rfl
  rw [h.labels, labelAddress?_append hnew, Nat.zero_add]

end HackBackend.Asm
