import HackBackend.Asm.Line
import HackBackend.Diagnostic
import HackBackend.Text.Blank
import HackBackend.Text.Decimal
import HackBackend.Text.Pieces
import HackBackend.Text.Symbol

/-!
# Reading assembly

Of a line only the part before the first `//` counts, and in it no blank does. It is an
address instruction, a label, or a computation with an optional destination before `=` and
an optional jump after `;`.
-/

namespace HackBackend.Asm

/-- What follows the `@` of an address instruction. -/
def readAddress (cs : List Char) : Option Address :=
  match Text.numeral? maxLiteral cs with
  | some n => some (.literal n)
  | none => if Text.isSymbol cs then some (.symbol (String.ofList cs)) else none

/-- What follows the opening bracket of a label. -/
def readLabel (cs : List Char) : Option String :=
  if cs.getLast? = some ')' ∧ Text.isSymbol cs.dropLast then some (String.ofList cs.dropLast)
  else none

/-- A computation with its jump, if it has one. -/
def readJump (cs : List Char) : Option (Comp × Jump) :=
  match Text.pieces (· == ';') cs with
  | [comp] => (Comp.ofText? (String.ofList comp)).map (·, .never)
  | [comp, jump] => do
      let comp ← Comp.ofText? (String.ofList comp)
      let jump ← Jump.ofText? (String.ofList jump)
      some (comp, jump)
  | _ => none

/-- A computation with its destination, if it has one, and its jump. -/
def readCompute (cs : List Char) : Option (Instruction Address) :=
  match Text.pieces (· == '=') cs with
  | [rest] => do
      let (comp, jump) ← readJump rest
      some (.compute .nowhere comp jump)
  | [dest, rest] => do
      let dest ← Dest.ofLetters? dest
      let (comp, jump) ← readJump rest
      some (.compute dest comp jump)
  | _ => none

/-- The line that some code without blanks spells. -/
def lineOfCode : List Char → Option Line
  | '@' :: cs => (readAddress cs).map fun address => .instruction (.load address)
  | '(' :: cs => (readLabel cs).map .label
  | cs => (readCompute cs).map .instruction

/-- The part of a line that carries meaning. -/
def codeOf (raw : String) : List Char :=
  Text.unspaced (Text.uncommented raw.toList)

/-- A line as messages about assembly show it. -/
def sourceLine (number : Nat) (raw : String) : SourceLine :=
  ⟨number, String.ofList (Text.trim raw.toList)⟩

/-- Reads one line. A line without code holds nothing. -/
def readLine (number : Nat) (raw : String) : Except Error (Option Line) :=
  match codeOf raw with
  | [] => .ok none
  | code =>
      match lineOfCode code with
      | some line => .ok (some line)
      | none => .error (.located .invalidAssembly (sourceLine number raw))

end HackBackend.Asm
