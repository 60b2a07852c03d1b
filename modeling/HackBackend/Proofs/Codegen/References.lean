import HackBackend.Proofs.Asm.Resolution
import HackBackend.Proofs.Codegen.Placement
import HackBackend.Proofs.Codegen.Symbols

/-!
# What the symbols of operations refer to

An operation names a static, or the place that it sends control to, by a symbol in one of its
instructions. In the program that instruction loads the cell of the static or the address of the
place, unless the symbol means something else as well: the symbol of a static may be that of a
function, of a label or of the place after a call, and the name of a function may be predefined.
-/

namespace HackBackend

namespace StackMachine.Placed

open Vm

/-- The symbol of the static that the operation accesses. -/
def static? (c : Placed) : Option String :=
  match c.op with
  | .push .static offset | .pop .static offset => some (Segment.staticSymbol c.unit offset)
  | _ => none

/-- The number of instructions of the operation before the one with the symbol that it refers to. -/
def operandIndex (c : Placed) : Nat :=
  match c.op with
  | .pop .. | .ifGoto _ => 3
  | .call .. => 45
  | _ => 0

theorem static?_eq_some_iff {c : Placed} {name : String} :
    c.static? = some name ↔ ∃ offset,
      (c.op = .push .static offset ∨ c.op = .pop .static offset) ∧
        Segment.staticSymbol c.unit offset = name := by
  obtain ⟨unit, function, op⟩ := c
  cases op with
  | push segment offset | pop segment offset => cases segment <;> simp [static?]
  | _ => simp [static?]

theorem exists_of_static?_eq_some {c : Placed} {name : String} (h : c.static? = some name) :
    ∃ offset, name = Segment.staticSymbol c.unit offset := by
  obtain ⟨offset, -, hname⟩ := static?_eq_some_iff.mp h
  exact ⟨offset, hname.symm⟩

end StackMachine.Placed

namespace Codegen

open Asm Vm StackMachine Text

/-- The code of an operation has the symbol that the operation refers to at its place. -/
theorem getElem?_operandIndex {options : Options} {n : Counters} {c : Placed}
    {batches : List Batch} (h : lower options n.rom (n.site c) c.op = .ok batches) {name : String}
    (hname : c.static? = some name ∨ c.target? = some name) :
    (instructionsOf (Codegen.codeOf batches))[c.operandIndex]? = some (.load (.symbol name)) := by
  obtain ⟨unit, function, op⟩ := c
  cases op with
  | push segment offset =>
      obtain ⟨place, hplace, rfl⟩ := lower_push_eq_ok_iff.mp h
      cases segment with
      | static =>
          obtain ⟨-, rfl⟩ := Segment.resolve_eq_ok_iff.mp hplace
          rcases hname with hname | hname
          · obtain rfl := Option.some.inj hname
            rfl
          · cases hname
      | _ => rcases hname with hname | hname <;> cases hname
  | pop segment offset =>
      obtain ⟨place, hplace, code, hcode, rfl⟩ := lower_pop_eq_ok_iff.mp h
      cases segment with
      | static =>
          obtain ⟨-, rfl⟩ := Segment.resolve_eq_ok_iff.mp hplace
          obtain rfl := Except.ok.inj hcode
          rcases hname with hname | hname
          · obtain rfl := Option.some.inj hname
            rfl
          · cases hname
      | _ => rcases hname with hname | hname <;> cases hname
  | goto label | ifGoto label =>
      obtain rfl := Except.ok.inj h
      rcases hname with hname | hname
      · cases hname
      · obtain rfl := Option.some.inj hname
        rfl
  | call callee args =>
      obtain ⟨-, rfl⟩ := lower_call_eq_ok_iff.mp h
      rcases hname with hname | hname
      · cases hname
      · obtain rfl := Option.some.inj hname
        rfl
  | _ => rcases hname with hname | hname <;> cases hname

/-- Wherever a text has a symbol as an operand, the program has an address. -/
def Loads (texts : List String) (program : Program) (name : String) (address : Nat) : Prop :=
  ∀ i : Nat, (instructionsOf (linesOf texts))[i]? = some (.load (.symbol name)) →
    program.instructions[i]? = some (.load address)

theorem loads_of_resolves {texts : List String} {program : Program} (h : Resolves texts program)
    {name : String} {address : Nat}
    (haddress : (predefined? name <|> program.labels[name]? <|> program.vars[name]? : Option Nat) =
      some address) : Loads texts program name address := by
  intro i hi
  obtain ⟨n, hn, hload⟩ := h.symbol i name hi
  obtain rfl := Option.some.inj (hn.symm.trans haddress)
  exact hload

/-- A name is one that a run gives to a place: the symbol of a label or a function, or that of the
place after a call. -/
def IsPlace (options : Options) (code : List Placed) (name : String) : Prop :=
  ∃ (position : Nat) (d : Placed), code[position]? = some d ∧ (d.symbol? = some name ∨
    ∃ callee ∈ d.callee?, ((countersAt options code position).site d).returnSymbol callee = name)

/-- The symbol of a static is that of a label or a function, or else the unit of the static is named
like the places after the calls of a function. -/
theorem exists_of_isPlace {options : Options} {code : List Placed} {unit : String} {offset : Nat}
    (h : IsPlace options code (Segment.staticSymbol unit offset)) :
    ∃ d ∈ code, d.symbol? = some (Segment.staticSymbol unit offset) ∨
      ∃ callee ∈ d.callee?, unit = callee ++ "$ret" := by
  obtain ⟨position, d, hd, hsymbol | ⟨callee, hcallee, hback⟩⟩ := h
  · exact ⟨d, List.mem_of_getElem? hd, .inl hsymbol⟩
  · exact ⟨d, List.mem_of_getElem? hd, .inr ⟨callee, hcallee, unit_of_returnSymbol_eq hback⟩⟩

/-- What the symbols of the operations of a run stand for in its text and in the program. -/
structure References (options : Options) (code : List Placed) (texts : List String)
    (program : Program) : Prop where
  /-- The text has the symbol that an operation refers to at its place. -/
  emitted : ∀ position c name, code[position]? = some c →
    c.static? = some name ∨ c.target? = some name →
      (instructionsOf (linesOf texts))[entry options code position + c.operandIndex]? =
        some (.load (.symbol name))
  /-- A static is kept in the cell of a variable, and every use of its symbol loads that cell, if
  the run gives the symbol to no place. -/
  static : ∀ c ∈ code, ∀ name, c.static? = some name → ¬ IsPlace options code name →
    ∃ cell, program.vars[name]? = some cell ∧ name ∉ program.labels ∧
      Loads texts program name cell
  /-- A target that is defined is the address of the instruction after the line that defines it,
  and every use of it loads that address. -/
  target : ∀ c ∈ code, ∀ name, c.target? = some name →
    (∀ callee ∈ c.callee?, predefined? callee = none) → .label name ∈ linesOf texts →
      ∃ before after, linesOf texts = before ++ .label name :: after ∧
        program.labels[name]? = some (instructionsOf before).length ∧
        Loads texts program name (instructionsOf before).length
  /-- A label or a function is defined by a line before the code of what follows it. -/
  place : ∀ (position : Nat) c name, code[position]? = some c → c.symbol? = some name →
    .label name ∈ linesOf texts ∧ program.labels[name]? = some (entry options code position)

/-- An operation whose target is a label or a function of the run loads the address of its code. -/
theorem References.load_entry {options : Options} {code : List Placed} {texts : List String}
    {program : Program} (h : References options code texts program) {i j : Nat} {c d : Placed}
    (hc : code[i]? = some c) (hd : code[j]? = some d) {name : String}
    (htarget : c.target? = some name) (hsymbol : d.symbol? = some name)
    (hcallable : ∀ callee ∈ c.callee?, predefined? callee = none) :
    program.instructions[entry options code i + c.operandIndex]? =
      some (.load (entry options code j)) := by
  obtain ⟨hdefined, hentry⟩ := h.place j d name hd hsymbol
  obtain ⟨before, after, -, hlabel, hloads⟩ :=
    h.target c (List.mem_of_getElem? hc) name htarget hcallable hdefined
  obtain hsame : (instructionsOf before).length = entry options code j :=
    Option.some.inj (hlabel.symm.trans hentry)
  rw [← hsame]
  exact hloads _ (h.emitted i c name hc (.inr htarget))

section

variable {options : Options} {units : List (String × Text.Source)} {chunks : List (List Line)}

/-- The text of a run has the symbol that an operation refers to where the counters tell. -/
theorem getElem?_runCode
    (h : lowerAll options (startCounters options) (codeOfUnits units) = .ok chunks)
    {position : Nat} {c : Placed} (hc : (codeOfUnits units)[position]? = some c) {name : String}
    (hname : c.static? = some name ∨ c.target? = some name) :
    (instructionsOf (runCode options chunks))[
      entry options (codeOfUnits units) position + c.operandIndex]? =
        some (.load (.symbol name)) := by
  obtain ⟨batches, before, after, hlower, hcode, hcount⟩ := exists_runCode_eq h hc
  have hoperand := getElem?_operandIndex hlower hname
  obtain ⟨hlt, -⟩ := List.getElem?_eq_some_iff.mp hoperand
  rw [hcode, instructionsOf_append, instructionsOf_append, ← hcount, ← length_instructionsOf,
    List.getElem?_append_right (Nat.le_add_right ..), Nat.add_sub_cancel_left,
    List.getElem?_append_left hlt, hoperand]

/-- The symbol of a static that is not that of a place is no label of the run. -/
theorem notMem_labelsOf_of_static
    (h : lowerAll options (startCounters options) (codeOfUnits units) = .ok chunks) {c : Placed}
    {name : String} (hstatic : c.static? = some name)
    (hplace : ¬ IsPlace options (codeOfUnits units) name) :
    name ∉ labelsOf (runCode options chunks) := by
  obtain ⟨offset, rfl⟩ := Placed.exists_of_static?_eq_some hstatic
  rw [labelsOf_runCode, List.mem_append, List.mem_singleton, not_or]
  refine ⟨fun hmem => ?_, append_toString_ne_haltLabel⟩
  obtain ⟨j, d, hd, hdefines⟩ := exists_defines_of_mem h hmem
  rcases hdefines with hown | ⟨hcallee, hback⟩ | ⟨-, hcompare⟩
  · exact hplace ⟨j, d, hd, .inl hown⟩
  · exact hplace ⟨j, d, hd, .inr ⟨_, hcallee, hback⟩⟩
  · exact compareSymbol_ne_staticSymbol _ _ hcompare

end

/-- In a run that is translated and assembled, the symbol of a static stands for the cell of its
variable if the run gives it to no place, and a target that is defined for the place where it is
defined. -/
theorem references_of_assemble {options : Options} {units : List (String × Text.Source)}
    {texts : List String} {program : Program} (hunits : ∀ unit ∈ units, isSymbol unit.1.toList)
    (hgenerate : generate options units = .ok texts) (hassemble : assemble texts = .ok program) :
    References options (codeOfUnits units) texts program := by
  obtain ⟨-, chunks, hlowered, hspells⟩ := spells_of_generate hgenerate
  obtain ⟨hlines, -⟩ := linesOf_of_spells hspells (readable_runCode hunits hlowered)
  obtain ⟨hread, layout, hplace, hprogram⟩ := assemble_eq_ok_iff.mp hassemble
  have hresolves : Resolves texts program := hprogram ▸ resolves_of_placeLines hread hplace
  have hassembled := assembled_of_assemble hassemble
  have hbuilt : Built options (codeOfUnits units) program :=
    built_of_build (bind_eq_ok_iff.mpr ⟨texts, hgenerate, hassemble⟩)
  have hemitted : ∀ position c name, (codeOfUnits units)[position]? = some c →
      c.static? = some name ∨ c.target? = some name →
        (instructionsOf (linesOf texts))[
          entry options (codeOfUnits units) position + c.operandIndex]? =
            some (.load (.symbol name)) := by
    intro position c name hc hname
    rw [hlines]
    exact getElem?_runCode hlowered hc hname
  refine ⟨hemitted, ?_, ?_, ?_⟩
  · intro c hc name hstatic hnoPlace
    obtain ⟨position, hposition⟩ := List.mem_iff_getElem?.mp hc
    have hused := List.mem_of_getElem? (hemitted position c name hposition (.inl hstatic))
    have hfree : predefined? name = none := by
      obtain ⟨offset, rfl⟩ := Placed.exists_of_static?_eq_some hstatic
      exact predefined?_staticSymbol c.unit offset
    have hlabel : name ∉ labelsOf (linesOf texts) := by
      rw [hlines]
      exact notMem_labelsOf_of_static hlowered hstatic hnoPlace
    -- Neither of the first two tables has the name, and it is used, so a variable was allocated.
    have hvar : name ∈ program.vars := (hresolves.vars name).mpr ⟨hused, hfree, hlabel⟩
    have hnone : name ∉ program.labels := (hresolves.labels name).not.mpr hlabel
    obtain ⟨cell, hcell⟩ :=
      Option.isSome_iff_exists.mp (Std.TreeMap.mem_iff_isSome_getElem?.mp hvar)
    refine ⟨cell, hcell, hnone, loads_of_resolves hresolves ?_⟩
    simp [hfree, Std.TreeMap.getElem?_eq_none hnone, hcell]
  · intro c _ name htarget hcallable hdefined
    obtain ⟨before, after, hsplit⟩ := List.append_of_mem hdefined
    have hlabel : program.labels[name]? = some (instructionsOf before).length :=
      Assembled.label (hsplit ▸ hassembled)
    refine ⟨before, after, hsplit, hlabel, loads_of_resolves hresolves ?_⟩
    simp [predefined?_of_target hcallable htarget, hlabel]
  · intro position c name hc hsymbol
    obtain ⟨hnamed, unit, hunit, hname⟩ := named_of_mem_codeOfUnits c (List.mem_of_getElem? hc)
    have hlabel := hbuilt.label_of_symbol hc (hname ▸ hunits unit hunit) hnamed hsymbol
    refine ⟨mem_labelsOf.mp ((hresolves.labels name).mp ?_), hlabel⟩
    rw [Std.TreeMap.mem_iff_isSome_getElem?, hlabel]
    rfl

/-- A unit with a static, two branches to a label and a call of a function. -/
def countedCall : List (String × Text.Source) :=
  [("Main", .ofString
    "push static 3\nif-goto END\ncall f 0\nlabel END\ngoto END\nfunction f 0\nreturn")]

/-- The branches lead to the label, the call to the function, and the static has a cell. -/
theorem references_countedCall :
    ∃ texts program, generate {} countedCall = .ok texts ∧ assemble texts = .ok program ∧
      References {} (codeOfUnits countedCall) texts program ∧
      (∃ cell, program.vars["Main.3"]? = some cell ∧
        program.instructions[0]? = some (.load cell)) ∧
      program.instructions[10]? = some (.load 59) ∧ program.instructions[59]? = some (.load 59) ∧
      program.instructions[57]? = some (.load 61) := by
  have hcode : codeOfUnits countedCall =
      [⟨"Main", none, .push .static 3⟩, ⟨"Main", none, .ifGoto "END"⟩,
        ⟨"Main", none, .call "f" 0⟩, ⟨"Main", none, .label "END"⟩, ⟨"Main", none, .goto "END"⟩,
        ⟨"Main", none, .function "f" 0⟩, ⟨"Main", some "f", .ret⟩] := by decide +kernel
  have hfits : ∀ unit ∈ countedCall, Fits unit.2 := by decide +kernel
  obtain ⟨program, hbuild⟩ :=
    @exists_build_of_layout? {} countedCall _ (by decide) hfits hcode (by decide +kernel)
  obtain ⟨texts, hgenerate, hassemble⟩ := bind_eq_ok_iff.mp hbuild
  have hreferences := references_of_assemble (by decide) hgenerate hassemble
  refine ⟨texts, program, hgenerate, hassemble, hreferences, ?_, ?_, ?_, ?_⟩
  all_goals rw [hcode] at hreferences
  · have hown : ¬ ∃ d ∈ codeOfUnits countedCall, d.symbol? = some "Main.3" ∨
        ∃ callee ∈ d.callee?, "Main" = callee ++ "$ret" := by
      rw [hcode]
      decide
    rw [hcode] at hown
    obtain ⟨cell, hcell, -, hloads⟩ := hreferences.static _ (List.mem_cons_self ..) "Main.3"
      (by decide) fun hplace => hown (@exists_of_isPlace _ _ "Main" 3 hplace)
    exact ⟨cell, hcell,
      hloads 0 (hreferences.emitted 0 _ "Main.3" rfl (.inl (by decide)))⟩
  · exact @References.load_entry _ _ _ _ hreferences 1 3 _ _ rfl rfl "Main$END"
      (by decide) (by decide) (by decide)
  · exact @References.load_entry _ _ _ _ hreferences 4 3 _ _ rfl rfl "Main$END"
      (by decide) (by decide) (by decide)
  · exact @References.load_entry _ _ _ _ hreferences 2 5 _ _ rfl rfl "f"
      (by decide) (by decide) (by decide)

/-- A run begins with the use of a static, and the program loads the address of a label there and
has no variable for the static. -/
def ReadsLabel (units : List (String × Text.Source)) (name : String) : Prop :=
  (∀ unit ∈ units, isSymbol unit.1.toList) ∧
    ∃ program c address, build {} units = .ok program ∧ (codeOfUnits units)[0]? = some c ∧
      c.static? = some name ∧ program.vars[name]? = none ∧
      program.labels[name]? = some address ∧ program.instructions[0]? = some (.load address)

theorem readsLabel_of_layout? {units : List (String × Text.Source)} {name : String}
    (hunits : ∀ unit ∈ units, isSymbol unit.1.toList) (hfits : ∀ unit ∈ units, Fits unit.2)
    (hstatic : (codeOfUnits units)[0]?.bind Placed.static? = some name)
    (hmisread : (layout? {} (codeOfUnits units)).any (fun layout =>
      (layout.program.vars[name]?).isNone && (layout.program.labels[name]?).isSome &&
        layout.program.instructions[0]? = (layout.program.labels[name]?).map .load) = true) :
    ReadsLabel units name := by
  obtain ⟨c, hc, hname⟩ := Option.bind_eq_some_iff.mp hstatic
  obtain ⟨layout, hbuild, hprogram⟩ := exists_layout_of_any hunits hfits rfl hmisread
  simp only [Bool.and_eq_true, Option.isNone_iff_eq_none, decide_eq_true_eq] at hprogram
  obtain ⟨⟨hvar, hlabel⟩, hload⟩ := hprogram
  obtain ⟨address, haddress⟩ := Option.isSome_iff_exists.mp hlabel
  rw [haddress] at hload
  exact ⟨hunits, layout.program, c, address, hbuild, hc, hname, hvar, haddress, hload⟩

/-- A run that calls a function with the name of a predefined symbol. -/
def keyboardTarget : List (String × Text.Source) :=
  [("Main", .ofString "call KBD 0\nfunction KBD 0")]

/-- The symbol of a static may be that of a function, of a label, or of the place after a call, and
then its use loads the address of that place. A call of a function with the name of the keyboard
loads the address of the keyboard. -/
theorem shared_symbols_misread :
    ReadsLabel [("Main", .ofString "push static 0\nfunction Main.0 0")] "Main.0" ∧
      ReadsLabel [("Main$x", .ofString "push static 0"), ("Main", .ofString "label x.0")]
        "Main$x.0" ∧
      ReadsLabel [("f$ret", .ofString "push static 0"),
        ("Main", .ofString "call f 0\nfunction f 0")] "f$ret.0" ∧
      ∃ program address, build {} keyboardTarget = .ok program ∧
        (codeOfUnits keyboardTarget)[0]? = some ⟨"Main", none, .call "KBD" 0⟩ ∧
        program.labels["KBD"]? = some address ∧
        program.instructions[45]? = some (.load keyboard) ∧ address ≠ keyboard := by
  have hcode : codeOfUnits keyboardTarget =
      [⟨"Main", none, .call "KBD" 0⟩, ⟨"Main", none, .function "KBD" 0⟩] := by decide +kernel
  refine ⟨?function, ?label, ?back, ?call⟩
  case function | label | back =>
    exact readsLabel_of_layout? (by decide) (by decide +kernel) (by decide +kernel)
      (by decide +kernel)
  case call =>
    obtain ⟨layout, hbuild, hkeyboard⟩ := @exists_layout_of_any {} keyboardTarget _
      (fun layout => layout.program.labels["KBD"]? = some 47 ∧
        layout.program.instructions[45]? = some (.load keyboard))
      (by decide) (by decide +kernel) hcode (by decide +kernel)
    obtain ⟨hlabel, hload⟩ := of_decide_eq_true hkeyboard
    exact ⟨layout.program, 47, hbuild, by rw [hcode]; rfl, hlabel, hload, by decide⟩

end Codegen

end HackBackend
