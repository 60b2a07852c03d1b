import HackBackend.Proofs.Asm.Linking
import HackBackend.Proofs.Codegen.Building
import HackBackend.Proofs.Machine.Block

/-!
# Where the code of an operation stands

In a finished program the code of every operation stands at the address that the counters give
for its position, and the labels in it have the addresses of the instructions after them.
-/

namespace HackBackend

namespace Asm

/-- Where lines stand in an assembled text, their instructions stand in the program. -/
theorem Assembled.holds {before row after : List Line} {program : Program}
    (h : Assembled (before ++ row ++ after) program) :
    Machine.Holds program (instructionsOf before).length (program.linked row) := by
  refine ⟨program.linked before, program.linked after, ?_, by simp [Program.linked]⟩
  rw [h.instructions]
  simp [Program.linked]

end Asm

namespace Codegen

open Asm Machine Vm StackMachine Text

/-- A program is built from the code of a run under some options: all of the code can be read, and
what is read has been assembled. -/
def Built (options : Options) (code : List Placed) (program : Program) : Prop :=
  ∃ chunks, lowerAll options (startCounters options) code = .ok chunks ∧
    (∀ line ∈ runCode options chunks, (lineOf? line.text).isSome) ∧
    Assembled (reread (runCode options chunks)) program

theorem built_of_build {options : Options} {units : List (String × Text.Source)}
    {program : Program} (h : build options units = .ok program) :
    Built options (codeOfUnits units) program := by
  obtain ⟨texts, hgenerate, hassemble⟩ := bind_eq_ok_iff.mp h
  obtain ⟨-, chunks, hlowered, hspells⟩ := spells_of_generate hgenerate
  obtain ⟨hlines, hread⟩ := linesOf_eq_reread hspells
  refine ⟨chunks, hlowered, hread.mp (assemble_eq_ok_iff.mp hassemble).1, ?_⟩
  rw [← hlines]
  exact assembled_of_assemble hassemble

/-- The counters before the operation at a position. -/
def countersAt (options : Options) (code : List Placed) (position : Nat) : Counters :=
  (startCounters options).afterAll options (code.take position)

/-- The address of the first instruction of the operation at a position. -/
def entry (options : Options) (code : List Placed) (position : Nat) : Nat :=
  (countersAt options code position).rom

theorem countersAt_succ {options : Options} {code : List Placed} {position : Nat} {c : Placed}
    (h : code[position]? = some c) :
    countersAt options code (position + 1) =
      (countersAt options code position).after options c := by
  rw [countersAt, countersAt, List.take_add_one, h, Counters.afterAll_append]
  rfl

theorem entry_succ {options : Options} {code : List Placed} {position : Nat} {c : Placed}
    (h : code[position]? = some c) :
    entry options code (position + 1) = entry options code position + c.op.size := by
  rw [entry, countersAt_succ h]
  rfl

/-- Code that is read as what it is stands in the program, and its labels are defined there. -/
def Stands (program : Program) (address : Nat) (code : List Line) : Prop :=
  Holds program address (program.linked code) ∧
    ∀ before name after, code = before ++ .label name :: after →
      program.labels[name]? = some (address + (instructionsOf before).length)

theorem stands_of_assembled {before row after : List Line} {program : Program}
    (h : Assembled (before ++ row ++ after) program) :
    Stands program (instructionsOf before).length row := by
  refine ⟨h.holds, ?_⟩
  rintro start name rest rfl
  have hsplit : before ++ (start ++ .label name :: rest) ++ after =
      (before ++ start) ++ .label name :: (rest ++ after) := by simp
  rw [hsplit] at h
  simpa using h.label

/-- In the code of a run, the code of the operation at a position comes after as many instructions
as the counters tell. -/
theorem exists_runCode_eq {options : Options} {code : List Placed} {chunks : List (List Line)}
    (h : lowerAll options (startCounters options) code = .ok chunks) {position : Nat} {c : Placed}
    (hc : code[position]? = some c) :
    ∃ batches before after, lower options (entry options code position)
        ((countersAt options code position).site c) c.op = .ok batches ∧
      runCode options chunks = before ++ (Codegen.codeOf batches ++ after) ∧
      before.countP Line.isInstruction = entry options code position := by
  rw [eq_take_append_cons_drop hc, lowerAll_append_eq_ok_iff] at h
  obtain ⟨first, hfirst, last, hlast, rfl⟩ := h
  obtain ⟨batches, hlower, later, -, rfl⟩ := lowerAll_cons_eq_ok_iff.mp hlast
  refine ⟨batches, bootCode options ++ first.flatten, later.flatten ++ haltBatch.code, hlower,
    by simp [runCode], ?_⟩
  rw [List.countP_append]
  exact countP_of_lowerAll hfirst

/-- There is code for the operation at a position, all of it can be read, and what is read stands
there. -/
theorem Built.stands_reread {options : Options} {code : List Placed} {program : Program}
    (h : Built options code program) {position : Nat} {c : Placed}
    (hc : code[position]? = some c) :
    ∃ batches, lower options (entry options code position)
        ((countersAt options code position).site c) c.op = .ok batches ∧
      (∀ line ∈ Codegen.codeOf batches, (lineOf? line.text).isSome) ∧
      Stands program (entry options code position) (reread (Codegen.codeOf batches)) := by
  obtain ⟨chunks, hlowered, hread, hassembled⟩ := h
  obtain ⟨batches, before, after, hlower, hcode, hcount⟩ := exists_runCode_eq hlowered hc
  rw [hcode, List.forall_mem_append, List.forall_mem_append] at hread
  obtain ⟨hbefore, hrow, -⟩ := hread
  rw [hcode, ← List.append_assoc, reread_append, reread_append] at hassembled
  have haddress : (instructionsOf (reread before)).length = entry options code position :=
    (length_instructionsOf_reread hbefore).trans hcount
  exact ⟨batches, hlower, hrow, haddress ▸ stands_of_assembled hassembled⟩

/-- Code that is read as what it is stands there itself. -/
theorem Built.stands {options : Options} {code : List Placed} {program : Program}
    (h : Built options code program) {position : Nat} {c : Placed}
    (hc : code[position]? = some c) :
    ∃ batches, lower options (entry options code position)
        ((countersAt options code position).site c) c.op = .ok batches ∧
      ((∀ line ∈ Codegen.codeOf batches, line.Readable) →
        Stands program (entry options code position) (Codegen.codeOf batches)) := by
  obtain ⟨batches, hlower, -, hstands⟩ := h.stands_reread hc
  exact ⟨batches, hlower, fun hreadable => reread_eq_self hreadable ▸ hstands⟩

/-- The symbol that an operation gives to its place is a label with the address of the place. -/
theorem Built.label_of_symbol {options : Options} {code : List Placed} {program : Program}
    (h : Built options code program) {position : Nat} {c : Placed}
    (hc : code[position]? = some c) (hunit : isSymbol c.unit.toList) (hnamed : c.Named)
    {name : String} (hname : c.symbol? = some name) :
    program.labels[name]? = some (entry options code position) := by
  obtain ⟨batches, hlower, hstands⟩ := h.stands hc
  obtain ⟨-, hlabels⟩ := hstands (readable_of_lower (.inr hunit) hnamed hlower)
  obtain ⟨unit, function, op⟩ := c
  cases op with
  | label label =>
      obtain rfl := Except.ok.inj hlower
      obtain rfl := Option.some.inj hname
      exact hlabels [] _ [] rfl
  | function label locals =>
      obtain rfl := Except.ok.inj hlower
      obtain rfl := Option.some.inj hname
      exact hlabels [] _ (zeroLocals locals) (by simp [Codegen.codeOf, functionCode])
  | _ => cases hname

/-! ### Names that are not predefined -/

theorem predefined?_returnSymbol (site : Site) (callee : String) :
    predefined? (site.returnSymbol callee) = none :=
  predefined?_eq_none_of_mem (.inl rfl) (by simp [Site.returnSymbol])

theorem predefined?_compareSymbol (site : Site) : predefined? site.compareSymbol = none :=
  predefined?_eq_none_of_mem (.inr rfl) (by simp [Site.compareSymbol])

theorem predefined?_labelSymbol (c : Placed) (name : String) :
    predefined? (c.labelSymbol name) = none :=
  predefined?_eq_none_of_mem (.inl rfl) (by simp [Placed.labelSymbol])

/-- The symbol of a static has a dot, and no predefined symbol has one. -/
theorem predefined?_staticSymbol (unit : String) (offset : Nat) :
    predefined? (Segment.staticSymbol unit offset) = none := by
  have hdot : ∀ entry ∈ predefined, '.' ∉ entry.1.toList := by decide
  exact predefined?_eq_none hdot (by simp [Segment.staticSymbol])

/-- No target of a branch is predefined, and that of a call only if the name of a function is. -/
theorem predefined?_of_target {c : Placed}
    (hcallable : ∀ callee ∈ c.callee?, predefined? callee = none) {name : String}
    (hname : c.target? = some name) : predefined? name = none := by
  obtain ⟨unit, function, op⟩ := c
  cases op with
  | goto label | ifGoto label =>
      obtain rfl := Option.some.inj hname
      exact predefined?_labelSymbol _ label
  | call callee args =>
      obtain rfl := Option.some.inj hname
      exact hcallable callee rfl
  | _ => cases hname

/-- The code of the bootstrap stands at the beginning. -/
theorem Built.boot {options : Options} {code : List Placed} {program : Program}
    (h : Built options code program) : Holds program 0 (program.linked (bootCode options)) := by
  obtain ⟨chunks, -, -, hassembled⟩ := h
  rw [runCode, List.append_assoc, reread_append,
    reread_eq_self (readable_bootCode options)] at hassembled
  exact @Assembled.holds [] (bootCode options) _ program hassembled

/-- The halt loop stands behind the code of all operations. -/
theorem Built.halt {options : Options} {code : List Placed} {program : Program}
    (h : Built options code program) :
    Stands program (entry options code code.length) haltBatch.code := by
  obtain ⟨chunks, hlowered, hread, hassembled⟩ := h
  rw [runCode, List.forall_mem_append] at hread
  rw [runCode, reread_append, reread_eq_self readable_haltBatch,
    ← List.append_nil haltBatch.code, ← List.append_assoc] at hassembled
  have haddress : (instructionsOf (reread (bootCode options ++ chunks.flatten))).length =
      entry options code code.length := by
    rw [length_instructionsOf_reread hread.1, List.countP_append, entry, countersAt,
      List.take_length]
    exact countP_of_lowerAll hlowered
  rw [← haddress]
  exact stands_of_assembled hassembled

/-- A label stands at an address of the program memory. -/
theorem Built.labels_lt {options : Options} {code : List Placed} {program : Program}
    (h : Built options code program) {name : String} {n : Nat}
    (hname : program.labels[name]? = some n) : n < romSize := by
  obtain ⟨chunks, -, -, hassembled⟩ := h
  exact hassembled.bound hname

namespace Built

variable {options : Options} {code : List Placed} {program : Program}
variable (h : Built options code program)

include h

theorem stands_call {position : Nat} {c : Placed} (hc : code[position]? = some c)
    (hnamed : c.Named) {name : String} {args : Nat} (hop : c.op = .call name args) :
    Stands program (entry options code position)
      (Codegen.codeOf (callBatches name
        (((countersAt options code position).site c).returnSymbol name) args)) := by
  obtain ⟨batches, hlower, hstands⟩ := h.stands hc
  rw [hop] at hlower
  obtain ⟨hargs, rfl⟩ := lower_call_eq_ok_iff.mp hlower
  have hname := hnamed.op name (by rw [hop]; rfl)
  exact hstands (readable_callBatches hname (isSymbol_returnSymbol _ hname) hargs)

theorem stands_function {position : Nat} {c : Placed} (hc : code[position]? = some c)
    (hnamed : c.Named) {name : String} {locals : Nat} (hop : c.op = .function name locals) :
    Stands program (entry options code position) (functionCode name locals) := by
  obtain ⟨batches, hlower, hstands⟩ := h.stands hc
  rw [hop] at hlower
  obtain rfl := Except.ok.inj hlower
  rw [codeOf_single] at hstands
  exact hstands (readable_functionCode (hnamed.op name (by rw [hop]; rfl)) locals)

theorem stands_return {position : Nat} {c : Placed} (hc : code[position]? = some c)
    (hop : c.op = .ret) :
    Stands program (entry options code position) (Codegen.codeOf returnBatches) := by
  obtain ⟨batches, hlower, hstands⟩ := h.stands hc
  rw [hop] at hlower
  obtain rfl := Except.ok.inj hlower
  exact hstands readable_returnBatches

end Built

end Codegen

end HackBackend
