import HackBackend.Platform

/-!
# Memory segments

Four segments are reached through a base pointer that the running program moves. The others
have a fixed place: `temp` and `pointer` name registers, `static` names one cell per unit and
offset, and `constant` is no place at all but the number itself.
-/

namespace HackBackend.Vm

/-- The segments whose first cell is found in a base pointer. -/
inductive Base where
  | locals | arguments | this | that
deriving DecidableEq, Repr

inductive Segment where
  | constant
  | based (base : Base)
  | static
  | pointer
  | temp
deriving DecidableEq, Repr

/-- The register that holds the base of a segment. -/
def Base.register : Base → String
  | locals => "LCL"
  | arguments => "ARG"
  | this => "THIS"
  | that => "THAT"

/-- Where the value of a segment offset is found. -/
inductive Access where
  /-- The value is the number itself. -/
  | constant (value : Nat)
  /-- The value is in the cell that lies `offset` cells above the base. -/
  | indirect (base : Base) (offset : Nat)
  /-- The value is in the cell that a symbol names. -/
  | direct (symbol : String)
deriving DecidableEq, Repr

namespace Segment

def all : List Segment :=
  [constant, based .locals, static, based .arguments, based .this, based .that, pointer, temp]

theorem mem_all (s : Segment) : s ∈ all := by
  rcases s with _ | b | _ | _ | _
  case based => cases b <;> decide
  all_goals decide

def name : Segment → String
  | constant => "constant"
  | based .locals => "local"
  | based .arguments => "argument"
  | based .this => "this"
  | based .that => "that"
  | static => "static"
  | pointer => "pointer"
  | temp => "temp"

def ofName? (name : String) : Option Segment :=
  all.find? fun s => s.name = name

@[simp] theorem ofName?_name (s : Segment) : ofName? s.name = some s := by
  rcases s with _ | b | _ | _ | _
  case based => cases b <;> decide
  all_goals decide

/-- The first of the registers that the `temp` segment names. -/
def tempBase : Nat := 5

/-- The largest offset of a segment. A unit may have any number of statics. -/
def limit? : Segment → Option Nat
  | constant | based _ => some maxLiteral
  | temp => some 7
  | pointer => some 1
  | static => none

/-- The cell that a unit's static with a given number is kept in. -/
def staticSymbol (unit : String) (offset : Nat) : String :=
  unit ++ "." ++ toString offset

/-- Where an offset of a segment is found in a unit. -/
def access (unit : String) (s : Segment) (offset : Nat) : Access :=
  match s with
  | constant => .constant offset
  | based base => .indirect base offset
  | temp => .direct ("R" ++ toString (tempBase + offset))
  | pointer => .direct (if offset = 0 then "THIS" else "THAT")
  | static => .direct (staticSymbol unit offset)

end Segment

end HackBackend.Vm
