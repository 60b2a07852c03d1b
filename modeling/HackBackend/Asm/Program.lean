import HackBackend.Asm.Predefined
import HackBackend.Asm.Reader
import Std.Data.TreeMap

/-!
# Programs

Assembling takes two passes. The first gives each label the address of the instruction that
follows it. The second replaces each symbol by its address: that of the predefined cell, else
that of the label, else that of a variable. A variable gets the next free cell when it is
first used.
-/

namespace HackBackend.Asm

/-- Names with their addresses. -/
abbrev SymbolTable := Std.TreeMap String Nat

/-- Instructions in their places, with the addresses of labels and variables. -/
structure Program where
  instructions : Array (Instruction Nat)
  labels : SymbolTable
  /-- The variables with their cells. -/
  vars : SymbolTable

/-- The instructions and labels of the lines that have been placed so far. -/
structure Layout where
  labels : SymbolTable := ∅
  instructions : Array (Instruction Address) := #[]

namespace Layout

/-- Places one line after the lines that have been placed. -/
def place (layout : Layout) : Line → Except Cause Layout
  | .label name =>
      if name ∈ layout.labels then .error (.duplicateLabel name)
      else if romSize ≤ layout.instructions.size then .error .romFull
      else .ok { layout with labels := layout.labels.insert name layout.instructions.size }
  | .instruction i =>
      if romSize ≤ layout.instructions.size then .error .romFull
      else .ok { layout with instructions := layout.instructions.push i }

/-- Reads a line and places what it holds. -/
def placeText (layout : Layout) (number : Nat) (raw : String) : Except Error Layout :=
  match readLine number raw with
  | .error e => .error e
  | .ok none => .ok layout
  | .ok (some line) =>
      match layout.place line with
      | .error cause => .error (.located cause (sourceLine number raw))
      | .ok layout => .ok layout

/-- Places some lines, the first of which comes after line `number`. -/
def placeAll (layout : Layout) (number : Nat) : List String → Except Error Layout
  | [] => .ok layout
  | raw :: rest =>
      match layout.placeText (number + 1) raw with
      | .error e => .error e
      | .ok layout => layout.placeAll (number + 1) rest

end Layout

/-- The address that an operand stands for, and the variables after its use. -/
def resolve (labels vars : SymbolTable) : Address → Nat × SymbolTable
  | .literal n => (n, vars)
  | .symbol name =>
      match (predefined? name <|> labels[name]? <|> vars[name]? : Option Nat) with
      | some address => (address, vars)
      | none =>
          let address := variableBase + vars.size
          (address, vars.insert name address)

/-- Adds an instruction to a program whose labels are all known. -/
def Program.add (program : Program) : Instruction Address → Program
  | .load address =>
      let (n, vars) := resolve program.labels program.vars address
      { program with
        instructions := program.instructions.push (.load n), vars := vars }
  | .compute dest comp jump =>
      { program with instructions := program.instructions.push (.compute dest comp jump) }

def Layout.program (layout : Layout) : Program :=
  layout.instructions.foldl Program.add ⟨#[], layout.labels, ∅⟩

/-- The program that some lines of assembly text spell. -/
def assemble (lines : List String) : Except Error Program :=
  (({} : Layout).placeAll 0 lines).map Layout.program

end HackBackend.Asm
