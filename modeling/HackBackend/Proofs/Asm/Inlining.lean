import HackBackend.Proofs.Asm.Assembly

/-!
# Labels and their addresses

A label can be left out of some lines if every use of it is replaced by the address that it has.
The lines then assemble to the same instructions and the same variables, and of the labels only
those that were left out are missing.
-/

namespace HackBackend.Asm

variable (names : List String) (address : String → Nat)

/-- The address of a label in place of its name. -/
def inlineAddress : Address → Address
  | .literal n => .literal n
  | .symbol name => if name ∈ names then .literal (address name) else .symbol name

def inlineLine? : Line → Option Line
  | .label name => if name ∈ names then none else some (.label name)
  | .instruction i => some (.instruction (i.map (inlineAddress names address)))

/-- Some lines without some of their labels. -/
def inlineLabels (code : List Line) : List Line :=
  code.filterMap (inlineLine? names address)

/-- The name that a line defines or uses. -/
def Line.name? : Line → Option String
  | .label name => some name
  | .instruction (.load (.symbol name)) => some name
  | _ => none

@[simp] theorem inlineLabels_nil : inlineLabels names address [] = [] := rfl

@[simp] theorem inlineLabels_instruction (i : Instruction Address) (code : List Line) :
    inlineLabels names address (.instruction i :: code) =
      .instruction (i.map (inlineAddress names address)) :: inlineLabels names address code := rfl

theorem inlineLabels_label (name : String) (code : List Line) :
    inlineLabels names address (.label name :: code) =
      if name ∈ names then inlineLabels names address code
      else .label name :: inlineLabels names address code := by
  by_cases h : name ∈ names <;> simp [inlineLabels, inlineLine?, h]

theorem inlineLabels_append (xs ys : List Line) :
    inlineLabels names address (xs ++ ys) =
      inlineLabels names address xs ++ inlineLabels names address ys :=
  List.filterMap_append

variable {names address}

/-- Lines in which none of the labels occurs stay as they are. -/
theorem inlineLabels_eq_self {code : List Line}
    (h : ∀ line ∈ code, ∀ name ∈ line.name?, name ∉ names) :
    inlineLabels names address code = code := by
  induction code with
  | nil => rfl
  | cons line rest ih =>
      obtain ⟨hline, hrest⟩ := List.forall_mem_cons.mp h
      rcases line with ((n | name) | ⟨dest, comp, jump⟩) | name
      · rw [inlineLabels_instruction, ih hrest]
        rfl
      · have hname : name ∉ names := hline name rfl
        rw [inlineLabels_instruction, ih hrest, Instruction.map, inlineAddress, if_neg hname]
      · rw [inlineLabels_instruction, ih hrest]
        rfl
      · rw [inlineLabels_label, if_neg (hline name rfl), ih hrest]

/-- A symbol table without some of its names. -/
def Lacks (names : List String) (table full : SymbolTable) : Prop :=
  ∀ name, table[name]? = if name ∈ names then none else full[name]?

namespace Layout

theorem place_inline {layout next inlined : Layout} {line : Line}
    (h : layout.place line = .ok next)
    (hinstructions : inlined.instructions.toList =
      layout.instructions.toList.map (·.map (inlineAddress names address)))
    (hlabels : Lacks names inlined.labels layout.labels) :
    ∃ last, inlined.placeLines (inlineLabels names address [line]) = .ok last ∧
      last.instructions.toList =
        next.instructions.toList.map (·.map (inlineAddress names address)) ∧
      Lacks names last.labels next.labels := by
  have hsize : inlined.instructions.size = layout.instructions.size := by
    simpa using congrArg List.length hinstructions
  cases line with
  | instruction i =>
      obtain ⟨hroom, rfl⟩ := place_instruction_eq_ok_iff.mp h
      refine ⟨{ inlined with
        instructions := inlined.instructions.push (i.map (inlineAddress names address)) },
        ?_, by simp [hinstructions], hlabels⟩
      rw [inlineLabels_instruction, placeLines_cons_eq_ok_iff]
      exact ⟨_, place_instruction_eq_ok_iff.mpr ⟨hsize ▸ hroom, rfl⟩, rfl⟩
  | label name =>
      obtain ⟨hnew, hroom, rfl⟩ := place_label_eq_ok_iff.mp h
      rw [inlineLabels_label]
      by_cases hname : name ∈ names
      · refine ⟨inlined, by rw [if_pos hname]; rfl, hinstructions, fun other => ?_⟩
        rw [hlabels other, getElem?_insert_labels]
        split
        · rfl
        · rw [if_neg (by rintro rfl; contradiction)]
      · refine ⟨{ inlined with
          labels := inlined.labels.insert name inlined.instructions.size }, ?_, hinstructions,
          fun other => ?_⟩
        · have hfree : name ∉ inlined.labels := by
            have hlookup := hlabels name
            rw [if_neg hname, Std.TreeMap.getElem?_eq_none hnew] at hlookup
            simpa using hlookup
          rw [if_neg hname, placeLines_cons_eq_ok_iff]
          exact ⟨_, place_label_eq_ok_iff.mpr ⟨hfree, hsize ▸ hroom, rfl⟩, rfl⟩
        · rw [getElem?_insert_labels, getElem?_insert_labels, hlabels other, hsize]
          by_cases hsame : name = other
          · subst hsame
            simp [hname]
          · simp [hsame]

theorem placeLines_append_eq_ok_iff {layout final : Layout} {xs ys : List Line} :
    layout.placeLines (xs ++ ys) = .ok final ↔
      ∃ next, layout.placeLines xs = .ok next ∧ next.placeLines ys = .ok final := by
  induction xs generalizing layout with
  | nil => simp [placeLines]
  | cons line rest ih =>
      simp only [List.cons_append, placeLines_cons_eq_ok_iff, ih]
      constructor
      · rintro ⟨first, hfirst, next, hnext, hfinal⟩
        exact ⟨next, ⟨first, hfirst, hnext⟩, hfinal⟩
      · rintro ⟨next, ⟨first, hfirst, hnext⟩, hfinal⟩
        exact ⟨first, hfirst, next, hnext, hfinal⟩

/-- Lines can be placed without labels if they can be placed with them. -/
theorem placeLines_inline {layout final inlined : Layout} {code : List Line}
    (h : layout.placeLines code = .ok final)
    (hinstructions : inlined.instructions.toList =
      layout.instructions.toList.map (·.map (inlineAddress names address)))
    (hlabels : Lacks names inlined.labels layout.labels) :
    ∃ last, inlined.placeLines (inlineLabels names address code) = .ok last ∧
      last.instructions.toList =
        final.instructions.toList.map (·.map (inlineAddress names address)) ∧
      Lacks names last.labels final.labels := by
  induction code generalizing layout inlined with
  | nil =>
      obtain rfl := Except.ok.inj h
      exact ⟨inlined, rfl, hinstructions, hlabels⟩
  | cons line rest ih =>
      obtain ⟨next, hplace, hrest⟩ := placeLines_cons_eq_ok_iff.mp h
      obtain ⟨middle, hmiddle, hinstructions', hlabels'⟩ :=
        place_inline hplace hinstructions hlabels
      obtain ⟨last, hlast, hfinal⟩ := ih hrest hinstructions' hlabels'
      refine ⟨last, ?_, hfinal⟩
      rw [← List.singleton_append, inlineLabels_append]
      exact placeLines_append_eq_ok_iff.mpr ⟨middle, hmiddle, hlast⟩

end Layout

namespace Program

/-- The labels of a program have given addresses, which no predefined name hides. -/
def LabelsAt (program : Program) (names : List String) (address : String → Nat) : Prop :=
  ∀ name ∈ names, predefined? name = none ∧ program.labels[name]? = some (address name)

theorem find?_of_labelsAt {program : Program} (h : program.LabelsAt names address) {name : String}
    (hname : name ∈ names) : program.find? name = some (address name) := by
  obtain ⟨hfree, hlabel⟩ := h name hname
  simp [find?, hfree, hlabel]

theorem find?_of_lacks {program : Program} {table : SymbolTable}
    (h : Lacks names table program.labels) {name : String} (hname : name ∉ names) :
    ({ program with labels := table } : Program).find? name = program.find? name := by
  simp [find?, h name, hname]

/-- An instruction with the address of a label is added like one with its name. -/
theorem add_inline {program : Program} {table : SymbolTable}
    (hlacks : Lacks names table program.labels) (hnames : program.LabelsAt names address)
    (i : Instruction Address) :
    ({ program with labels := table } : Program).add (i.map (inlineAddress names address)) =
      { program.add i with labels := table } := by
  rcases i with (n | name) | ⟨dest, comp, jump⟩
  · rfl
  · by_cases hname : name ∈ names
    · rw [add_symbol_of_some (find?_of_labelsAt hnames hname), Instruction.map, inlineAddress,
        if_pos hname]
      rfl
    · have hsame := find?_of_lacks hlacks hname
      rw [Instruction.map, inlineAddress, if_neg hname]
      cases hfind : program.find? name with
      | some n => rw [add_symbol_of_some hfind, add_symbol_of_some (hsame.trans hfind)]
      | none => rw [add_symbol_of_none hfind, add_symbol_of_none (hsame.trans hfind)]
  · rfl

theorem foldl_add_inline {program : Program} {table : SymbolTable}
    (hlacks : Lacks names table program.labels) (hnames : program.LabelsAt names address)
    (is : List (Instruction Address)) :
    (is.map (·.map (inlineAddress names address))).foldl add { program with labels := table } =
      { is.foldl add program with labels := table } := by
  induction is generalizing program with
  | nil => rfl
  | cons i rest ih =>
      have hlabels := labels_add program i
      have hrest := @ih (program.add i) (hlabels ▸ hlacks)
        (fun name hname => hlabels ▸ hnames name hname)
      rw [List.map_cons, List.foldl_cons, List.foldl_cons, add_inline hlacks hnames, hrest]

end Program

/-- Lines without some of their labels assemble to the same instructions and variables. -/
theorem exists_placeLines_inlineLabels {code : List Line} {layout : Layout}
    (h : ({} : Layout).placeLines code = .ok layout)
    (hnames : layout.program.LabelsAt names address) :
    ∃ inlined, ({} : Layout).placeLines (inlineLabels names address code) = .ok inlined ∧
      inlined.program.instructions = layout.program.instructions ∧
      inlined.program.vars = layout.program.vars ∧
      Lacks names inlined.program.labels layout.program.labels := by
  have hempty : Lacks names ({} : Layout).labels ({} : Layout).labels := by
    intro name
    simp
  obtain ⟨inlined, hinlined, hinstructions, hlacks⟩ := Layout.placeLines_inline h rfl hempty
  have hprogram : inlined.program = { layout.program with labels := inlined.labels } := by
    have hlabels : (⟨#[], layout.labels, ∅⟩ : Program).LabelsAt names address := by
      intro name hname
      have hname := hnames name hname
      rwa [Layout.labels_program] at hname
    have hfold := @Program.foldl_add_inline names address ⟨#[], layout.labels, ∅⟩ _ hlacks hlabels
      layout.instructions.toList
    rw [← hinstructions, Array.foldl_toList, Array.foldl_toList] at hfold
    exact hfold
  refine ⟨inlined, hinlined, by rw [hprogram], by rw [hprogram], ?_⟩
  rw [Layout.labels_program, Layout.labels_program]
  exact hlacks

end HackBackend.Asm
