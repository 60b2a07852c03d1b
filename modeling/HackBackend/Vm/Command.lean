import HackBackend.Diagnostic
import HackBackend.Text.Decimal
import HackBackend.Text.Symbol

/-!
# Commands and operations

A `Command` is what a line says: a keyword, perhaps a name, perhaps a number. An `Operation`
is a command whose arguments fit its keyword. Whether an offset lies within its segment is
not decided here, since the answer may depend on what is done with it.
-/

namespace HackBackend.Vm

structure Command where
  keyword : Keyword
  name : Option String
  number : Option Nat
  source : SourceLine
deriving DecidableEq, Repr

inductive Operation where
  | push (segment : Segment) (offset : Nat)
  | pop (segment : Segment) (offset : Nat)
  | unary (f : Unary)
  | binary (f : Binary)
  | compare (r : Relation)
  | label (name : String)
  | goto (name : String)
  | ifGoto (name : String)
  | function (name : String) (locals : Nat)
  | call (name : String) (args : Nat)
  | ret
deriving DecidableEq, Repr

/-- The mark that begins the last part of a return address label. -/
def returnMark : String := "ret."

/-- The return mark followed by a numeral: no label of a program may have this form. -/
def isReserved (label : String) : Bool :=
  (returnMark.toList.isPrefixOf? label.toList).any Text.isNumeral

/-- A name that may stand for a function. -/
def checkSymbol (name : String) : Except Cause String :=
  if Text.isSymbol name.toList then .ok name else .error (.invalidSymbol name)

/-- A name that may stand for a place to branch to. -/
def checkLabel (name : String) : Except Cause String := do
  let label ← checkSymbol name
  if isReserved label then .error (.reservedLabel label) else .ok label

def checkSegment (name : String) : Except Cause Segment :=
  match Segment.ofName? name with
  | some segment => .ok segment
  | none => .error (.unknownSegment name)

namespace Command

/-- The operation that a command stands for. Which arguments are present is looked at first,
then what they are. -/
def operation (c : Command) : Except Cause Operation :=
  match c.keyword, c.name, c.number with
  | .push, some name, some n => (checkSegment name).map (.push · n)
  | .pop, some name, some n => (checkSegment name).map (.pop · n)
  | .unary f, none, none => .ok (.unary f)
  | .binary f, none, none => .ok (.binary f)
  | .compare r, none, none => .ok (.compare r)
  | .label, some name, none => (checkLabel name).map .label
  | .goto, some name, none => (checkLabel name).map .goto
  | .ifGoto, some name, none => (checkLabel name).map .ifGoto
  | .function, some name, some n => (checkSymbol name).map (.function · n)
  | .call, some name, some n => (checkSymbol name).map (.call · n)
  | .ret, none, none => .ok .ret
  | keyword, _, _ => .error (.wrongArguments keyword)

/-- An error of this command, at the line that it was read from. -/
def fail (c : Command) (cause : Cause) : Error :=
  .located cause c.source

end Command

end HackBackend.Vm
