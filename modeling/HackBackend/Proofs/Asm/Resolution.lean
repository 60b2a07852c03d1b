import HackBackend.Proofs.Asm.Assembly
import HackBackend.Proofs.Result
import Mathlib.Data.List.Induction

/-!
# What the symbols of a program stand for

A symbol of an assembled text stands for its predefined cell, else for the place of its label, else
for a variable. The variables are the names that are left over. They have consecutive cells in the
order in which they are first used, and there are never so many that a cell needs more than a word.
-/

namespace HackBackend.Asm

/-- The name that an instruction loads the address of. -/
def Instruction.symbol? : Instruction Address → Option String
  | .load (.symbol name) => some name
  | _ => none

/-- A name that is neither predefined nor one of some labels. -/
def isFree (labels : List String) (name : String) : Bool :=
  (predefined? name).isNone && name ∉ labels

/-- The free names that some instructions load, each of them where it is used first. -/
def freeNames (labels : List String) (is : List (Instruction Address)) : List String :=
  ((is.filterMap Instruction.symbol?).filter (isFree labels)).eraseDups

/-- The names in some code that stand for variables. -/
def variablesOf (code : List Line) : List String :=
  freeNames (labelsOf code) (instructionsOf code)

theorem isFree_iff {labels : List String} {name : String} :
    isFree labels name ↔ predefined? name = none ∧ name ∉ labels := by
  simp [isFree]

theorem symbol?_eq_some_iff {i : Instruction Address} {name : String} :
    i.symbol? = some name ↔ i = .load (.symbol name) := by
  rcases i with (n | symbol) | ⟨dest, comp, jump⟩ <;> simp [Instruction.symbol?]

theorem mem_freeNames {labels : List String} {is : List (Instruction Address)} {name : String} :
    name ∈ freeNames labels is ↔
      .load (.symbol name) ∈ is ∧ predefined? name = none ∧ name ∉ labels := by
  simp [freeNames, List.mem_filter, isFree_iff, symbol?_eq_some_iff]

theorem isSome_labelAddress? {start : Nat} {code : List Line} {name : String} :
    (labelAddress? start code name).isSome ↔ name ∈ labelsOf code := by
  induction code generalizing start with
  | nil => simp [labelAddress?]
  | cons line rest ih =>
      cases line with
      | instruction i => rw [labelAddress?, ih, labelsOf_instruction]
      | label label =>
          rw [labelAddress?, labelsOf_label, List.mem_cons]
          by_cases hname : label = name
          · simp [hname]
          · simp [hname, Ne.symm hname, ih]

theorem eraseDups_concat {α : Type} [BEq α] [LawfulBEq α] (xs : List α) (x : α) :
    (xs ++ [x]).eraseDups = if xs.contains x then xs.eraseDups else xs.eraseDups ++ [x] := by
  rw [List.eraseDups_append, List.removeAll, List.filter_cons, List.filter_nil]
  by_cases h : xs.contains x
  · rw [if_pos h, if_neg (by simpa using h)]
    exact List.append_nil _
  · rw [if_neg h, if_pos (by simpa using h)]
    rfl

theorem getElem?_concat_eq_some_iff {α : Type} {xs : List α} {x y : α} {i : Nat} :
    (xs ++ [x])[i]? = some y ↔ xs[i]? = some y ∨ i = xs.length ∧ x = y := by
  rcases Nat.lt_trichotomy i xs.length with hlt | rfl | hgt
  · simp [List.getElem?_append_left hlt, Nat.ne_of_lt hlt]
  · simp
  · have hbeyond : xs[i]? = none := List.getElem?_eq_none (Nat.le_of_lt hgt)
    have hone : i - xs.length ≠ 0 := by omega
    simp [List.getElem?_append_right (Nat.le_of_lt hgt), hbeyond, Nat.ne_of_gt hgt, hone]

/-- A free name that has not been used before is added. -/
theorem freeNames_concat_of_notMem {labels : List String} {is : List (Instruction Address)}
    {name : String} (hfree : isFree labels name) (hnew : name ∉ freeNames labels is) :
    freeNames labels (is ++ [.load (.symbol name)]) = freeNames labels is ++ [name] := by
  have hadded : ([.load (.symbol name)] : List (Instruction Address)).filterMap
      Instruction.symbol? = [name] := rfl
  rw [freeNames, List.mem_eraseDups] at hnew
  rw [freeNames, List.filterMap_append, List.filter_append, hadded, List.filter_cons_of_pos hfree,
    List.filter_nil, eraseDups_concat, if_neg (by simpa using hnew), freeNames]

/-- Any other instruction adds no name. -/
theorem freeNames_concat_of_mem {labels : List String} {is : List (Instruction Address)}
    {i : Instruction Address}
    (hold : ∀ name ∈ i.symbol?, isFree labels name → name ∈ freeNames labels is) :
    freeNames labels (is ++ [i]) = freeNames labels is := by
  rw [freeNames, List.filterMap_append, List.filter_append, freeNames]
  cases hsymbol : i.symbol? with
  | none => simp [hsymbol]
  | some name =>
      have hadded : [i].filterMap Instruction.symbol? = [name] := by simp [hsymbol]
      by_cases hfree : isFree labels name
      · have hused := hold name hsymbol hfree
        rw [freeNames, List.mem_eraseDups] at hused
        rw [hadded, List.filter_cons_of_pos hfree, List.filter_nil, eraseDups_concat,
          if_pos (by simpa using hused)]
      · rw [hadded, List.filter_cons_of_neg hfree, List.filter_nil, List.append_nil]

theorem length_freeNames_le (labels : List String) (is : List (Instruction Address)) :
    (freeNames labels is).length ≤ is.length := by
  induction is using List.reverseRecOn with
  | nil => exact Nat.le_refl 0
  | append_singleton is i ih =>
      rw [List.length_append, List.length_singleton]
      by_cases hold : ∀ name ∈ i.symbol?, isFree labels name → name ∈ freeNames labels is
      · rw [freeNames_concat_of_mem hold]
        exact Nat.le_succ_of_le ih
      · push Not at hold
        obtain ⟨name, hname, hfree, hnew⟩ := hold
        obtain rfl := symbol?_eq_some_iff.mp hname
        rw [freeNames_concat_of_notMem hfree hnew, List.length_append]
        exact Nat.succ_le_succ ih

theorem nodup_freeNames (labels : List String) (is : List (Instruction Address)) :
    (freeNames labels is).Nodup := by
  induction is using List.reverseRecOn with
  | nil => exact .nil
  | append_singleton is i ih =>
      by_cases hold : ∀ name ∈ i.symbol?, isFree labels name → name ∈ freeNames labels is
      · rwa [freeNames_concat_of_mem hold]
      · push Not at hold
        obtain ⟨name, hname, hfree, hnew⟩ := hold
        obtain rfl := symbol?_eq_some_iff.mp hname
        rw [freeNames_concat_of_notMem hfree hnew, List.nodup_append]
        refine ⟨ih, by simp, fun a ha b hb => ?_⟩
        rw [List.mem_singleton.mp hb]
        rintro rfl
        exact hnew ha

namespace Program

/-- The variables of a program have consecutive cells in the order of some names. -/
structure Allocates (program : Program) (names : List String) : Prop where
  size : program.vars.size = names.length
  cell : ∀ name n, program.vars[name]? = some n ↔
    ∃ i, names[i]? = some name ∧ n = variableBase + i

/-- The cell that the next new variable gets. -/
def nextCell (program : Program) : Nat :=
  variableBase + program.vars.size

variable {program : Program} {labels names : List String}

theorem Allocates.mem_iff (h : program.Allocates names) {name : String} :
    name ∈ program.vars ↔ name ∈ names := by
  rw [Std.TreeMap.mem_iff_isSome_getElem?, Option.isSome_iff_exists, List.mem_iff_getElem?]
  simp only [h.cell]
  exact ⟨fun ⟨_, i, hi, _⟩ => ⟨i, hi⟩, fun ⟨i, hi⟩ => ⟨_, i, hi, rfl⟩⟩

/-- The cells of the variables are consecutive. -/
theorem Allocates.exists_cell_iff (h : program.Allocates names) {n : Nat} :
    (∃ name : String, program.vars[name]? = some n) ↔
      variableBase ≤ n ∧ n < variableBase + program.vars.size := by
  rw [h.size]
  constructor
  · rintro ⟨name, hname⟩
    obtain ⟨i, hi, rfl⟩ := (h.cell name n).mp hname
    obtain ⟨hlt, -⟩ := List.getElem?_eq_some_iff.mp hi
    omega
  · rintro ⟨hlow, hhigh⟩
    obtain ⟨i, rfl⟩ := Nat.exists_eq_add_of_le hlow
    have hlt := Nat.lt_of_add_lt_add_left hhigh
    exact ⟨_, (h.cell _ _).mpr ⟨i, List.getElem?_eq_getElem hlt, rfl⟩⟩

/-- A name is left for a variable if it is free and no variable has it yet. -/
theorem find?_eq_none_iff (hlabels : ∀ name, name ∈ program.labels ↔ name ∈ labels)
    (h : program.Allocates names) {name : String} :
    program.find? name = none ↔ isFree labels name ∧ name ∉ names := by
  rw [isFree_iff, ← hlabels, ← h.mem_iff]
  simp [find?, and_assoc]

/-- A new variable comes after all others. -/
theorem Allocates.insert (h : program.Allocates names) {name : String} (hnew : name ∉ names) :
    ({ program with vars := program.vars.insert name program.nextCell } : Program).Allocates
      (names ++ [name]) where
  size := by
    have hfresh : name ∉ program.vars := h.mem_iff.not.mpr hnew
    simp [Std.TreeMap.size_insert, hfresh, h.size]
  cell other n := by
    rw [Layout.getElem?_insert_labels, nextCell, h.size]
    simp only [getElem?_concat_eq_some_iff]
    by_cases hsame : name = other
    · subst hsame
      have hat (i : Nat) : names[i]? ≠ some name := fun hi => hnew (List.mem_of_getElem? hi)
      simp [hat, eq_comm]
    · simp [hsame, h.cell]

/-- Adding an instruction allocates a cell exactly if it loads a new free name. -/
theorem Allocates.add (hlabels : ∀ name, name ∈ program.labels ↔ name ∈ labels)
    {is : List (Instruction Address)} (h : program.Allocates (freeNames labels is))
    (i : Instruction Address) :
    (program.add i).Allocates (freeNames labels (is ++ [i])) := by
  -- Whatever the instruction is, it adds a variable exactly if it adds a name to the list.
  by_cases hold : ∀ name ∈ i.symbol?, isFree labels name → name ∈ freeNames labels is
  · rw [freeNames_concat_of_mem hold]
    rcases i with (n | name) | ⟨dest, comp, jump⟩
    · exact ⟨h.size, h.cell⟩
    · have hfound : program.find? name ≠ none := by
        rw [Ne, find?_eq_none_iff hlabels h]
        exact fun hfree => hfree.2 (hold name rfl hfree.1)
      obtain ⟨n, hn⟩ := Option.ne_none_iff_exists'.mp hfound
      rw [add_symbol_of_some hn]
      exact ⟨h.size, h.cell⟩
    · exact ⟨h.size, h.cell⟩
  · push Not at hold
    obtain ⟨name, hname, hfree, hnew⟩ := hold
    obtain rfl := symbol?_eq_some_iff.mp hname
    have hnone : program.find? name = none := (find?_eq_none_iff hlabels h).mpr ⟨hfree, hnew⟩
    rw [freeNames_concat_of_notMem hfree hnew, add_symbol_of_none hnone]
    have hinsert := h.insert hnew
    exact ⟨hinsert.size, hinsert.cell⟩

/-- Adding some instructions allocates a cell for each new free name, in the order of first use. -/
theorem Allocates.foldl_add (hlabels : ∀ name, name ∈ program.labels ↔ name ∈ labels)
    {before : List (Instruction Address)} (h : program.Allocates (freeNames labels before))
    (is : List (Instruction Address)) :
    (is.foldl Program.add program).Allocates (freeNames labels (before ++ is)) := by
  induction is generalizing program before with
  | nil => simpa using h
  | cons i rest ih =>
      have hnext : ∀ name, name ∈ (program.add i).labels ↔ name ∈ labels := by
        rwa [labels_add]
      rw [← List.singleton_append, ← List.append_assoc]
      exact ih hnext (h.add hlabels i)

/-- A name that has been used has an address. -/
theorem exists_find?_of_mem {is : List (Instruction Address)} {name : String}
    (hname : .load (.symbol name) ∈ is) (program : Program) :
    ∃ n, (is.foldl add program).find? name = some n := by
  induction is generalizing program with
  | nil => cases hname
  | cons i rest ih =>
      rcases List.mem_cons.mp hname with rfl | hname
      · obtain ⟨n, -, hfind⟩ := exists_add_symbol program name
        exact ⟨n, find?_foldl_add rest hfind⟩
      · exact ih hname (program.add i)

end Program

namespace Layout

/-- The program when the first of its instructions have been resolved. -/
def resolved (layout : Layout) (count : Nat) : Program :=
  (layout.instructions.toList.take count).foldl Program.add ⟨#[], layout.labels, ∅⟩

theorem resolved_size (layout : Layout) :
    layout.resolved layout.instructions.size = layout.program := by
  rw [resolved, List.take_of_length_le (by simp), Array.foldl_toList, program]

/-- No more instructions are placed than there is room for. -/
theorem size_le_romSize {layout final : Layout} {code : List Line}
    (h : layout.placeLines code = .ok final) (hsize : layout.instructions.size ≤ romSize) :
    final.instructions.size ≤ romSize := by
  induction code generalizing layout with
  | nil =>
      obtain rfl := Except.ok.inj h
      exact hsize
  | cons line rest ih =>
      obtain ⟨next, hplace, hrest⟩ := placeLines_cons_eq_ok_iff.mp h
      cases line with
      | label name =>
          obtain ⟨-, -, rfl⟩ := place_label_eq_ok_iff.mp hplace
          exact ih hrest hsize
      | instruction i =>
          obtain ⟨hroom, rfl⟩ := place_instruction_eq_ok_iff.mp hplace
          exact ih hrest (by simpa using Nat.succ_le_of_lt hroom)

section

variable {code : List Line} {layout : Layout}
variable (h : ({} : Layout).placeLines code = .ok layout)

include h

theorem mem_labels_iff {name : String} : name ∈ layout.labels ↔ name ∈ labelsOf code := by
  have hlabels : layout.labels[name]? = labelAddress? 0 code name := by
    simpa using labels_of_placeLines h name
  rw [Std.TreeMap.mem_iff_isSome_getElem?, hlabels, isSome_labelAddress?]

/-- The variables that are known after some instructions are the free names in them. -/
theorem allocates_resolved (count : Nat) :
    (layout.resolved count).Allocates
      (freeNames (labelsOf code) ((instructionsOf code).take count)) := by
  have hempty : (⟨#[], layout.labels, ∅⟩ : Program).Allocates (freeNames (labelsOf code) []) :=
    ⟨rfl, by simp [freeNames]⟩
  rw [resolved, toList_instructions h]
  exact hempty.foldl_add (fun _ => mem_labels_iff h) _

theorem allocates_program : layout.program.Allocates (variablesOf code) := by
  have hall := allocates_resolved h layout.instructions.size
  rwa [resolved_size, List.take_of_length_le (by simp [← toList_instructions h])] at hall

/-- A name that is used has an address. -/
theorem exists_find?_program {name : String} (hname : .load (.symbol name) ∈ instructionsOf code) :
    ∃ n, layout.program.find? name = some n := by
  rw [program, ← Array.foldl_toList, toList_instructions h]
  exact Program.exists_find?_of_mem hname _

theorem length_instructionsOf_le : (instructionsOf code).length ≤ romSize := by
  rw [← toList_instructions h, Array.length_toList]
  exact size_le_romSize h (Nat.zero_le _)

/-- The cell of a variable fits into a word, even that of a variable still to come. -/
theorem nextCell_resolved_lt (count : Nat) : (layout.resolved count).nextCell < UInt16.size := by
  have hroom := length_instructionsOf_le h
  have hnames := length_freeNames_le (labelsOf code) ((instructionsOf code).take count)
  have htake := List.length_take_le' count (instructionsOf code)
  have hword : UInt16.size = 65536 := rfl
  rw [Program.nextCell, (allocates_resolved h count).size]
  simp only [variableBase, romSize] at hroom ⊢
  omega

end

end Layout

/-- What a program makes of the lines that some texts hold. -/
structure Resolves (texts : List String) (program : Program) : Prop where
  /-- Every text is blank or holds a line. -/
  read : ∀ raw ∈ texts, codeOf raw = [] ∨ (lineOf? raw).isSome
  /-- There is an instruction for each line that is one. -/
  size : program.instructions.size = (instructionsOf (linesOf texts)).length
  compute : ∀ (i : Nat) (dest : Dest) (comp : Comp) (jump : Jump),
    (instructionsOf (linesOf texts))[i]? = some (.compute dest comp jump) →
      program.instructions[i]? = some (.compute dest comp jump)
  literal : ∀ i n : Nat, (instructionsOf (linesOf texts))[i]? = some (.load (.literal n)) →
    program.instructions[i]? = some (.load n)
  /-- A symbol is looked up in the three tables in this order. -/
  symbol : ∀ (i : Nat) (name : String),
    (instructionsOf (linesOf texts))[i]? = some (.load (.symbol name)) →
      ∃ n, (predefined? name <|> program.labels[name]? <|> program.vars[name]? : Option Nat) =
          some n ∧ program.instructions[i]? = some (.load n)
  /-- A label has the number of instructions before it, and there is only one line for it. -/
  label : ∀ (before : List String) (raw : String) (after : List String) (name : String),
    texts = before ++ raw :: after → lineOf? raw = some (.label name) →
      program.labels[name]? = some (instructionsOf (linesOf before)).length ∧
        name ∉ labelsOf (linesOf before) ∧ name ∉ labelsOf (linesOf after)
  labels : ∀ name : String, name ∈ program.labels ↔ name ∈ labelsOf (linesOf texts)
  vars : ∀ name : String, name ∈ program.vars ↔
    .load (.symbol name) ∈ instructionsOf (linesOf texts) ∧ predefined? name = none ∧
      name ∉ labelsOf (linesOf texts)
  /-- The variables have consecutive cells in the order in which they are used first. -/
  cell : ∀ (name : String) (n : Nat), program.vars[name]? = some n ↔
    ∃ i, (variablesOf (linesOf texts))[i]? = some name ∧ n = variableBase + i
  nodup : (variablesOf (linesOf texts)).Nodup

theorem Assembled.getElem?_instructions {code : List Line} {program : Program}
    (h : Assembled code program) (i : Nat) :
    program.instructions[i]? = (instructionsOf code)[i]?.map (·.map program.operand) := by
  rw [← Array.getElem?_toList, h.instructions, List.getElem?_map]

/-- A label is defined by one line only. -/
theorem Assembled.notMem_labelsOf {before after : List Line} {name : String} {program : Program}
    (h : Assembled (before ++ .label name :: after) program) :
    name ∉ labelsOf before ∧ name ∉ labelsOf after := by
  have hnodup := h.nodup
  rw [labelsOf_append, labelsOf_label] at hnodup
  obtain ⟨-, hafter, hdisjoint⟩ := List.nodup_append.mp hnodup
  exact ⟨fun hmem => hdisjoint name hmem name (List.mem_cons_self ..) rfl,
    (List.nodup_cons.mp hafter).1⟩

theorem linesOf_append_cons {before : List String} {raw : String} {after : List String}
    {line : Line} (hraw : lineOf? raw = some line) :
    linesOf (before ++ raw :: after) = linesOf before ++ line :: linesOf after := by
  rw [linesOf_append, linesOf, linesOf, List.filterMap_cons_some hraw, linesOf]

theorem resolves_of_placeLines {texts : List String} {layout : Layout}
    (hread : ∀ raw ∈ texts, codeOf raw ≠ [] → (lineOf? raw).isSome)
    (h : ({} : Layout).placeLines (linesOf texts) = .ok layout) :
    Resolves texts layout.program where
  read raw hraw := or_iff_not_imp_left.mpr (hread raw hraw)
  size := by
    rw [← Array.length_toList, (assembled_of_placeLines h).instructions, List.length_map]
  compute i dest comp jump hi := by
    rw [(assembled_of_placeLines h).getElem?_instructions, hi]
    rfl
  literal i n hi := by
    rw [(assembled_of_placeLines h).getElem?_instructions, hi]
    rfl
  symbol i name hi := by
    obtain ⟨n, hn⟩ := Layout.exists_find?_program h (List.mem_of_getElem? hi)
    refine ⟨n, hn, ?_⟩
    rw [(assembled_of_placeLines h).getElem?_instructions, hi, Option.map_some, Instruction.map,
      Program.operand, Program.address, hn, Option.getD_some]
  label before raw after name htexts hraw := by
    have hassembled := assembled_of_placeLines h
    rw [htexts, linesOf_append_cons hraw] at hassembled
    exact ⟨hassembled.label, hassembled.notMem_labelsOf⟩
  labels name := by
    rw [Layout.labels_program]
    exact Layout.mem_labels_iff h
  vars name := by rw [(Layout.allocates_program h).mem_iff, variablesOf, mem_freeNames]
  cell := (Layout.allocates_program h).cell
  nodup := nodup_freeNames _ _

/-- Assembling replaces each symbol by what it stands for and leaves all else as it is. While it
does so, the cell that the next new variable would get never needs more than a word. -/
theorem resolves_of_assemble {texts : List String} {program : Program}
    (h : assemble texts = .ok program) :
    Resolves texts program ∧
      ∃ layout, ({} : Layout).placeAll 0 texts = .ok layout ∧ layout.program = program ∧
        ∀ count, (layout.resolved count).nextCell < UInt16.size := by
  obtain ⟨hread, layout, hplace, rfl⟩ := assemble_eq_ok_iff.mp h
  exact ⟨resolves_of_placeLines hread hplace, layout,
    Layout.placeAll_eq_ok_iff.mpr ⟨hread, hplace⟩, rfl, Layout.nextCell_resolved_lt hplace⟩

/-- A text that uses a label before and after its line, two variables and a predefined symbol. -/
def countdown : List String :=
  ["@i", "M=1", "@END // leave", "(LOOP)", "", "@i", "D=M", "@LOOP", "D;JGT", "@R13", "@j", "(END)"]

/-- Its label at the end has the number of all instructions, and its variables have the first two
cells. -/
theorem resolves_countdown :
    ∃ program, assemble countdown = .ok program ∧ Resolves countdown program ∧
      program.labels["END"]? = some 9 ∧ program.instructions[2]? = some (.load 9) ∧
      program.vars["i"]? = some 16 ∧ program.vars["j"]? = some 17 := by
  obtain ⟨program, h⟩ :=
    exists_ok_of_isSome (show (assemble countdown).toOption.isSome by decide)
  obtain ⟨hresolves, -⟩ := resolves_of_assemble h
  have hvariables : variablesOf (linesOf countdown) = ["i", "j"] := by decide
  have hlabel : program.labels["END"]? = some 9 :=
    (hresolves.label countdown.dropLast "(END)" [] "END" rfl (by decide)).1
  obtain ⟨n, hn, hinstruction⟩ := hresolves.symbol 2 "END" (by decide)
  have hfree : predefined? "END" = none := by decide
  obtain rfl : 9 = n := by simpa [hfree, hlabel] using hn
  exact ⟨program, h, hresolves, hlabel, hinstruction,
    (hresolves.cell "i" 16).mpr ⟨0, by rw [hvariables]; rfl, rfl⟩,
    (hresolves.cell "j" 17).mpr ⟨1, by rw [hvariables]; rfl, rfl⟩⟩

end HackBackend.Asm
