import HackBackend.Vm.Keyword
import HackBackend.Vm.Segment

/-!
# Diagnostics

Each way in which an input can be wrong is a `Cause`. An `Error` is a cause at a line, or the
failure of a reader, which has no line. The wording of the messages is fixed here.
-/

namespace HackBackend

/-- A line of input as messages show it: its number, counted from 1, and its text. -/
structure SourceLine where
  number : Nat
  text : String
deriving DecidableEq, Repr

def SourceLine.display (line : SourceLine) : String :=
  "line " ++ toString line.number ++ ": " ++ line.text

inductive ErrorKind where
  | parse | arity | invalidSegment | range | duplicateLabel | input
deriving DecidableEq, Repr

inductive Cause where
  | invalidUtf8
  | malformedCommand
  | unknownCommand (word : String)
  /-- A third word that is not a number of at most 16 bits. -/
  | expectedNumber (word : String)
  | invalidSymbol (text : String)
  /-- A label that could coincide with a generated return address. -/
  | reservedLabel (label : String)
  | invalidAssembly
  /-- A command line of more than three words. -/
  | extraParts (keyword : Vm.Keyword) (parts : String)
  /-- Arguments that do not fit the arity of the keyword. -/
  | wrongArguments (keyword : Vm.Keyword)
  | unknownSegment (name : String)
  | popConstant
  | offsetOutOfRange (segment : Vm.Segment) (offset limit : Nat)
  | targetBeyondRom (target : Nat)
  | tooManyArguments (count : Nat)
  | romFull
  | duplicateLabel (label : String)
deriving DecidableEq, Repr

namespace Cause

def kind : Cause → ErrorKind
  | invalidUtf8 | malformedCommand | unknownCommand _ | expectedNumber _ | invalidSymbol _
  | reservedLabel _ | invalidAssembly => .parse
  | extraParts .. | wrongArguments _ => .arity
  | unknownSegment _ | popConstant => .invalidSegment
  | offsetOutOfRange .. | targetBeyondRom _ | tooManyArguments _ | romFull => .range
  | duplicateLabel _ => .duplicateLabel

def reason : Cause → String
  | invalidUtf8 => "line is not valid UTF-8"
  | malformedCommand => "malformed command"
  | unknownCommand word => s!"unknown command '{word}'"
  | expectedNumber word => s!"expected number '{word}'"
  | invalidSymbol text => s!"invalid symbol '{text}'"
  | reservedLabel label => s!"label '{label}' is reserved for return addresses"
  | invalidAssembly => "invalid assembly"
  | extraParts keyword parts => s!"'{keyword.text}' has extra parts '{parts}'"
  | wrongArguments keyword => s!"'{keyword.text}' expects {keyword.arity.text}"
  | unknownSegment name => s!"invalid segment '{name}'"
  | popConstant => "invalid segment 'constant (pop)'"
  | offsetOutOfRange segment offset limit =>
      s!"{segment.name} offset {offset} out of range 0..={limit}"
  | targetBeyondRom target => s!"comparison target {target} beyond ROM"
  | tooManyArguments count => s!"argument count {count} too large"
  | romFull => s!"program exceeds {romSize} instructions"
  | duplicateLabel label => s!"duplicate label name '{label}'"

end Cause

inductive Error where
  | located (cause : Cause) (line : SourceLine)
  /-- A reader failed with the given text. -/
  | input (message : String)
deriving DecidableEq, Repr

namespace Error

def kind : Error → ErrorKind
  | located cause _ => cause.kind
  | input _ => .input

/-- The line that an error refers to, if there is one. -/
def line? : Error → Option SourceLine
  | located _ line => some line
  | input _ => none

def message : Error → String
  | located cause line => cause.reason ++ " on " ++ line.display
  | input message => message

end Error

end HackBackend
