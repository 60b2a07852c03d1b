import HackBackend.Vm.Stream

/-!
# The code of a run

The operations of all units of a run make up one list. Each stands in a unit and perhaps in a
function, which a `function` command opens and the next `return` closes. A label belongs to the
function that it stands in, or else to its unit, and a branch looks for its label there.
-/

namespace HackBackend.StackMachine

open Vm

/-- An operation and where it stands. -/
structure Placed where
  unit : String
  function : Option String
  op : Operation
deriving DecidableEq, Repr

namespace Placed

/-- The name that labels are scoped by where the operation stands. -/
def scope (c : Placed) : String :=
  c.function.getD c.unit

/-- The symbol of a label in the scope of the operation. -/
def labelSymbol (c : Placed) (label : String) : String :=
  c.scope ++ "$" ++ label

/-- The symbol that names the place of the operation, if it gives one. -/
def symbol? (c : Placed) : Option String :=
  match c.op with
  | .label name => some (c.labelSymbol name)
  | .function name _ => some name
  | _ => none

/-- The symbol of the place that the operation may send control to. -/
def target? (c : Placed) : Option String :=
  match c.op with
  | .goto name | .ifGoto name => some (c.labelSymbol name)
  | .call name _ => some name
  | _ => none

/-- The function that the operation calls. -/
def callee? (c : Placed) : Option String :=
  match c.op with
  | .call name _ => some name
  | _ => none

/-- The number of calls that the operation makes up a return label for. -/
def calls (c : Placed) : Nat :=
  match c.op with
  | .call .. => 1
  | _ => 0

end Placed

/-- The function that is open after an operation. -/
def functionAfter (function : Option String) : Operation → Option String
  | .function name _ => some name
  | .ret => none
  | _ => function

/-- Operations that follow one another in a unit. -/
def placeOps (unit : String) : Option String → List Operation → List Placed
  | _, [] => []
  | function, op :: rest => ⟨unit, function, op⟩ :: placeOps unit (functionAfter function op) rest

/-- The operation of a command that could be read, if its arguments fit. -/
def operation? : Except Error Command → Option Operation
  | .ok c => c.operation.toOption
  | .error _ => none

/-- The operations of a source, as far as it has them. -/
def operationsOf (source : Text.Source) : List Operation :=
  (Stream.ofSource source).toList.filterMap operation?

/-- The code of a unit, in which no function is open at first. -/
def codeOfUnit (unit : String × Text.Source) : List Placed :=
  placeOps unit.1 none (operationsOf unit.2)

def codeOfUnits (units : List (String × Text.Source)) : List Placed :=
  units.flatMap codeOfUnit

end HackBackend.StackMachine
