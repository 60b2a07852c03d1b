/-!
# The Hack platform

Sizes and fixed addresses of the 16-bit computer that the generated code runs on.
-/

namespace HackBackend

/-- A machine word. It is read as a signed number by jumps and as an unsigned one by addresses. -/
abbrev Word := BitVec 16

/-- The largest number that an address instruction can load: it has 15 bits. -/
def maxLiteral : Nat := 0x7fff

/-- The number of instructions that fit into the program memory. -/
def romSize : Nat := 0x8000

/-- The first cell that the assembler gives to a variable. -/
def variableBase : Nat := 16

/-- The first cell of the screen. -/
def screenBase : Nat := 0x4000

/-- The cell of the keyboard, which is the last one of the data memory. -/
def keyboard : Nat := 0x6000

/-- The number of cells of the data memory. -/
def ramSize : Nat := keyboard + 1

/-- The label of the loop that a program ends in. -/
def haltLabel : String := "$HALT"

end HackBackend
