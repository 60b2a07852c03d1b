import HackBackend.Proofs.Codegen.Histories
import HackBackend.Proofs.Codegen.Uses

/-!
# The variables of a program

The assembler takes every name that it does not know for a variable. In the program of a run whose
targets are all labels or functions of the run, the only such names are statics: every other name
that is loaded is predefined, or a line of the run defines it.
-/

namespace HackBackend.Codegen

open Asm Vm StackMachine Text

/-- Every target in some code is the symbol of a label or a function of it. -/
def Linked (code : List Placed) : Prop :=
  ∀ c ∈ code, ∀ name ∈ c.target?, ∃ d ∈ code, d.symbol? = some name

instance (code : List Placed) : Decidable (Linked code) :=
  inferInstanceAs (Decidable (∀ c ∈ code, ∀ name ∈ c.target?, ∃ d ∈ code, d.symbol? = some name))

/-- The names of a run that are no statics: those that are predefined, and those of its places. -/
inductive IsKnown (options : Options) (code : List Placed) (name : String) : Prop where
  | predefined (h : predefined? name ≠ none)
  /-- The place to which a call returns, or where a comparison goes on. -/
  | madeUp (h : name ∈ allMadeUp options (startCounters options) code)
  | halt (h : name = haltLabel)
  /-- A label, or the entry of a function. -/
  | symbol {c : Placed} (hc : c ∈ code) (h : c.symbol? = some name)
  | target {c : Placed} (hc : c ∈ code) (h : c.target? = some name)

/-- The variables of a program are the statics of its code, and no known name is one of them. -/
structure VarsAreStatics (options : Options) (code : List Placed) (program : Program) : Prop where
  static : ∀ name ∈ program.vars, ∃ c ∈ code, ∃ offset,
    (c.op = .push .static offset ∨ c.op = .pop .static offset) ∧
      name = Segment.staticSymbol c.unit offset
  known : ∀ name, IsKnown options code name → name ∉ program.vars

variable {options : Options} {code : List Placed} {chunks : List (List Line)}

/-- A name that the code of a run defines. -/
theorem mem_labelsOf_runCode
    (h : lowerAll options (startCounters options) code = .ok chunks) {name : String} :
    name ∈ labelsOf (runCode options chunks) ↔
      name ∈ allMadeUp options (startCounters options) code ∨
        (∃ c ∈ code, c.symbol? = some name) ∨ name = haltLabel := by
  rw [labelsOf_runCode, List.mem_append, mem_labelsOf_flatten h, List.mem_singleton, or_assoc]

/-- In linked code, each known name is predefined or a label. -/
theorem IsKnown.mem_labelsOf
    (hlowered : lowerAll options (startCounters options) code = .ok chunks)
    (hlinked : Linked code) {name : String} (h : IsKnown options code name) :
    predefined? name ≠ none ∨ name ∈ labelsOf (runCode options chunks) := by
  rw [mem_labelsOf_runCode hlowered]
  cases h with
  | predefined h => exact .inl h
  | madeUp h => exact .inr (.inl h)
  | halt h => exact .inr (.inr (.inr h))
  | symbol hc h => exact .inr (.inr (.inl ⟨_, hc, h⟩))
  | target hc h => exact .inr (.inr (.inl (hlinked _ hc name h)))

/-- Each name in the code of a run is a static or a known name. -/
theorem static_or_isKnown_of_mem
    (hlowered : lowerAll options (startCounters options) code = .ok chunks) {name : String}
    (h : .load (.symbol name) ∈ instructionsOf (runCode options chunks)) :
    (∃ c ∈ code, c.static? = some name) ∨ IsKnown options code name := by
  by_cases hfree : predefined? name = none
  · have huse : name ∈ usesOf (runCode options chunks) :=
      mem_usesOf.mpr ⟨mem_instructionsOf.mp h, hfree⟩
    rw [usesOf_runCode, List.mem_append, mem_usesOf_flatten hlowered, List.mem_singleton] at huse
    rcases huse with (hmade | ⟨c, hc, hstatic | ⟨htarget, -⟩⟩) | hhalt
    · exact .inr (.madeUp hmade)
    · exact .inl ⟨c, hc, hstatic⟩
    · exact .inr (.target hc htarget)
    · exact .inr (.halt hhalt)
  · exact .inr (.predefined hfree)

/-- The variables of an assembled text are statics if the text spells out linked code. -/
theorem varsAreStatics_of_spells {texts : List String} {program : Program}
    (hlowered : lowerAll options (startCounters options) code = .ok chunks)
    (hspells : List.Forall₂ Spells texts (runCode options chunks))
    (hnamed : ∀ c ∈ code, IsStem c.unit ∧ c.Named) (hlinked : Linked code)
    (hassemble : assemble texts = .ok program) : VarsAreStatics options code program := by
  have hreadable : ∀ line ∈ runCode options chunks, line.Readable :=
    readable_run (fun c hc => (hnamed c hc).1) (fun c hc => (hnamed c hc).2) hlowered
  obtain ⟨hlines, -⟩ := linesOf_of_spells hspells hreadable
  obtain ⟨hresolves, -⟩ := resolves_of_assemble hassemble
  have hvars : ∀ name ∈ program.vars, ¬ IsKnown options code name := by
    intro name hname hknown
    obtain ⟨-, hfree, hlabel⟩ := (hresolves.vars name).mp hname
    rw [hlines] at hlabel
    rcases hknown.mem_labelsOf hlowered hlinked with hpredefined | hdefined
    · exact hpredefined hfree
    · exact hlabel hdefined
  constructor
  · intro name hname
    obtain ⟨hload, -, -⟩ := (hresolves.vars name).mp hname
    rw [hlines] at hload
    rcases static_or_isKnown_of_mem hlowered hload with ⟨c, hc, hstatic⟩ | hknown
    · obtain ⟨offset, hop, hsymbol⟩ := Placed.static?_eq_some_iff.mp hstatic
      exact ⟨c, hc, offset, hop, hsymbol.symm⟩
    · exact absurd hknown (hvars name hname)
  · intro name hknown hname
    exact hvars name hname hknown

/-- The variables of a program that is built from linked units are their statics. -/
theorem varsAreStatics_of_build {units : List (String × Text.Source)} {program : Program}
    (hunits : ∀ unit ∈ units, isSymbol unit.1.toList) (hlinked : Linked (codeOfUnits units))
    (h : build options units = .ok program) :
    VarsAreStatics options (codeOfUnits units) program := by
  obtain ⟨texts, hgenerate, hassemble⟩ := bind_eq_ok_iff.mp h
  obtain ⟨-, chunks, hlowered, hspells⟩ := spells_of_generate hgenerate
  have hnamed : ∀ c ∈ codeOfUnits units, IsStem c.unit ∧ c.Named := by
    intro c hc
    obtain ⟨hc, unit, hunit, hname⟩ := named_of_mem_codeOfUnits c hc
    exact ⟨.inr (hname ▸ hunits unit hunit), hc⟩
  exact varsAreStatics_of_spells hlowered hspells hnamed hlinked hassemble

namespace Generator

/-- If the finished text of a run is assembled, and every target in it is a label or a function of
it, then the variables of the program are statics of the run, and no other name is one. -/
theorem variables_are_statics {options : Options} {requests : List Request} {program : Program}
    (hunits : ∀ name, .beginUnit name ∈ requests → name = "" ∨ isSymbol name.toList)
    (hlinked : Linked ((new options).codeOfRequests requests))
    (hassemble : assemble ((new options).after requests).finish = .ok program) :
    VarsAreStatics options ((new options).codeOfRequests requests) program := by
  obtain ⟨chunks, hlowered, hspells, -⟩ := spells_history options requests
  have hnamed := named_of_mem_codeOfRequests (named_new options) hunits
  exact varsAreStatics_of_spells hlowered hspells hnamed hlinked hassemble

/-- A run with a static, a comparison, a label and branches to it, a call, and a refused command. -/
def linkedRun : List Request :=
  [.beginUnit "Main", .command ⟨.pop, some "static", some 3, ⟨1, "pop static 3"⟩⟩,
    .command ⟨.compare .eq, none, none, ⟨2, "eq"⟩⟩,
    .command ⟨.ifGoto, some "END", none, ⟨3, "if-goto END"⟩⟩,
    .command ⟨.goto, some "1", none, ⟨4, "goto 1"⟩⟩,
    .command ⟨.label, some "END", none, ⟨5, "label END"⟩⟩,
    .command ⟨.call, some "f", some 0, ⟨6, "call f 0"⟩⟩,
    .command ⟨.function, some "f", some 0, ⟨7, "function f 0"⟩⟩]

/-- The options that the run is translated with. -/
def linkedOptions : Options :=
  { compare := .symbolic, comments := false }

/-- The static is a variable. The places after the comparison and after the call are none. -/
theorem variables_are_statics_linkedRun :
    ∃ program, assemble ((new linkedOptions).after linkedRun).finish = .ok program ∧
      VarsAreStatics linkedOptions ((new linkedOptions).codeOfRequests linkedRun) program ∧
      program.vars["Main.3"]? = some variableBase ∧ "Main:CMP_0" ∉ program.vars ∧
      "f$ret.0" ∉ program.vars := by
  have hunits : ∀ name, .beginUnit name ∈ linkedRun → name = "" ∨ isSymbol name.toList := by
    intro name hname
    simp only [linkedRun, List.mem_cons, Request.beginUnit.injEq, reduceCtorEq, List.not_mem_nil,
      or_false] at hname
    rw [hname]
    decide
  have hlinked : Linked ((new linkedOptions).codeOfRequests linkedRun) := by
    decide +kernel
  have hassemble : (assemble ((new linkedOptions).after linkedRun).finish).toOption.any
      (fun program => program.vars["Main.3"]? = some variableBase) = true := by
    decide +kernel
  obtain ⟨program, hassembled, hcell⟩ := exists_ok_of_any hassemble
  have hstatics := variables_are_statics hunits hlinked hassembled
  have hmade : ∀ name ∈ ["Main:CMP_0", "f$ret.0"], name ∈ allMadeUp linkedOptions
      (startCounters linkedOptions) ((new linkedOptions).codeOfRequests linkedRun) := by
    decide +kernel
  refine ⟨program, hassembled, hstatics, of_decide_eq_true hcell, ?_, ?_⟩
  · exact hstatics.known _ (.madeUp (hmade _ (by simp)))
  · exact hstatics.known _ (.madeUp (hmade _ (by simp)))

end Generator

end HackBackend.Codegen
