import HackBackend.Codegen.Batch
import HackBackend.Codegen.Options
import HackBackend.Vm.Address
import HackBackend.Vm.Command

/-!
# Code sequences

The code of each operation, as batches of lines with a comment for each batch. The first batch
of an operation has no comment of its own: it takes the text of the command.

The stack pointer `SP` holds the address one past the topmost value. `R13` keeps the address of
an indirect store, `R14` the frame and `R15` the return address while a function returns.
-/

namespace HackBackend.Codegen

open Asm Vm

/-- Where in a run a command stands: its unit, the function that it belongs to, and the numbers
of the next call and of the next comparison that need a label. -/
structure Site where
  unit : String := ""
  function : Option String := none
  calls : Nat := 0
  compares : Nat := 0
deriving DecidableEq, Repr

namespace Site

/-- The name that labels of the program are scoped by. -/
def scope (site : Site) : String :=
  site.function.getD site.unit

def labelSymbol (site : Site) (label : String) : String :=
  site.scope ++ "$" ++ label

/-- The label of the place to which a call returns. -/
def returnSymbol (site : Site) (callee : String) : String :=
  callee ++ "$" ++ returnMark ++ toString site.calls

/-- The label of the place where a comparison goes on if its relation holds. -/
def compareSymbol (site : Site) : String :=
  site.unit ++ ":CMP_" ++ toString site.compares

end Site

/-- The number of words that a call saves: the return address and four base pointers. -/
def frameSize : Nat := 5

/-- Takes the topmost value off the stack into D. -/
def popD : List Line :=
  [.symbol "SP", .store .am (.dec .m), .store .d (.copy .m)]

def incrementSp : List Line :=
  [.symbol "SP", .store .m (.inc .m)]

/-- Puts D on top of the stack. -/
def pushD : List Line :=
  [.symbol "SP", .store .a (.copy .m), .store .m (.copy .d)] ++ incrementSp

/-- Loads the value at a place into D. -/
def loadD : Access → List Line
  | .constant value => [.literal value, .store .d (.copy .a)]
  | .indirect base offset =>
      [.symbol base.register, .store .d (.copy .m), .literal offset, .store .a (.add .a),
        .store .d (.copy .m)]
  | .direct name => [.symbol name, .store .d (.copy .m)]

def pushCode (place : Access) : List Line :=
  loadD place ++ pushD

/-- Moves the topmost value to a place. The number itself is no place to move it to. -/
def popCode : Access → Except Cause (List Line)
  | .constant _ => .error .popConstant
  | .indirect base offset => .ok <|
      [.symbol base.register, .store .d (.copy .m), .literal offset, .store .d (.add .a),
        .symbol "R13", .store .m (.copy .d)] ++
      popD ++ [.symbol "R13", .store .a (.copy .m), .store .m (.copy .d)]
  | .direct name => .ok (popD ++ [.symbol name, .store .m (.copy .d)])

def unaryComp : Unary → Comp
  | .neg => .neg .m
  | .not => .not .m

/-- The right operand is in D and the left one in M. -/
def binaryComp : Binary → Comp
  | .add => .add .m
  | .sub => .subFrom .m
  | .and => .and .m
  | .or => .or .m

def unaryCode (f : Unary) : List Line :=
  [.symbol "SP", .store .a (.dec .m), .store .m (unaryComp f)]

def binaryCode (f : Binary) : List Line :=
  popD ++ [.store .a (.dec .a), .store .m (binaryComp f)]

/-- The number of instructions of a comparison. -/
def compareLength : Nat := 11

/-- Leaves -1 in place of two values that stand in a relation, and 0 in place of two others.
The result is -1 at first; unless the jump to `target` is taken it becomes 0. -/
def compareCode (r : Relation) (target : Line) : List Line :=
  popD ++
    [.store .a (.dec .a), .store .d (.subFrom .m), .store .m .minusOne,
      target, .jump (.copy .d) (relationJump r),
      .symbol "SP", .store .a (.dec .m), .store .m .zero]

def ifGotoCode (test : BranchTest) (target : String) : List Line :=
  popD ++ [.symbol target, .jump (.copy .d) test.jump]

def gotoCode (target : String) : List Line :=
  [.symbol target, .jump .zero .always]

/-- Puts a number of zeros on top of the stack. -/
def zeroLocals (count : Nat) : List Line :=
  if count = 0 then []
  else
    [.symbol "SP", .store .a (.copy .m)] ++
      (List.replicate count [Line.store .m .zero, .store .a (.inc .a)]).flatten ++
      [.store .d (.copy .a), .symbol "SP", .store .m (.copy .d)]

def functionCode (name : String) (locals : Nat) : List Line :=
  .label name :: zeroLocals locals

/-- The base pointers in the order in which a call saves them. -/
def savedBases : List Base :=
  [.locals, .arguments, .this, .that]

def saveBase (base : Base) : Batch where
  comment := some ("push " ++ base.register)
  code := [.symbol base.register, .store .d (.copy .m)] ++ pushD

def callBatches (callee returnTo : String) (args : Nat) : List Batch :=
  [{ code := [.symbol returnTo, .store .d (.copy .a)] ++ pushD }] ++
    savedBases.map saveBase ++
    [{ comment := some s!"ARG = SP-{args}-{frameSize}"
       code := [.symbol "SP", .store .d (.copy .m), .literal (args + frameSize),
         .store .d (.sub .a), .symbol "ARG", .store .m (.copy .d)] },
     { comment := some "LCL = SP"
       code := [.symbol "SP", .store .d (.copy .m), .symbol "LCL", .store .m (.copy .d)] },
     { code := gotoCode callee ++ [.label returnTo] }]

def restoreBase (base : Base) : Batch where
  comment := some s!"FRAME = FRAME-1; {base.register} = *FRAME"
  code := [.symbol "R14", .store .am (.dec .m), .store .d (.copy .m), .symbol base.register,
    .store .m (.copy .d)]

/-- The return address is fetched before the result is stored, since a call without arguments
has its result take the place of the return address. -/
def returnBatches : List Batch :=
  [{ code := [.symbol "LCL", .store .d (.copy .m), .symbol "R14", .store .m (.copy .d)] },
   { comment := some "RET = *(FRAME-5)"
     code := [.literal frameSize, .store .a (.sub .a),
       .store .d (.copy .m), .symbol "R15", .store .m (.copy .d)] },
   { comment := some "*ARG = pop()"
     code := [.symbol "SP", .store .a (.dec .m), .store .d (.copy .m), .symbol "ARG",
       .store .a (.copy .m), .store .m (.copy .d)] },
   { comment := some "SP = ARG + 1"
     code := [.symbol "ARG", .store .d (.inc .m), .symbol "SP", .store .m (.copy .d)] }] ++
    savedBases.reverse.map restoreBase ++
    [{ code := [.symbol "R15", .store .a (.copy .m), .jump .zero .always] }]

/-- The address that the stack starts at. -/
def stackBase : Nat := 256

def bootstrapBatch : Batch where
  comment := some "bootstrap: SP = 256"
  code := [.literal stackBase, .store .d (.copy .a), .symbol "SP", .store .m (.copy .d)]

def haltBatch : Batch where
  comment := some "end of program"
  code := .label haltLabel :: gotoCode haltLabel

/-- The code of an operation, given the number of instructions before it. -/
def lower (options : Options) (rom : Nat) (site : Site) :
    Operation → Except Cause (List Batch)
  | .push segment offset => do
      let place ← segment.resolve site.unit offset
      .ok [{ code := pushCode place }]
  | .pop segment offset => do
      let place ← segment.resolve site.unit offset
      let code ← popCode place
      .ok [{ code := code }]
  | .unary f => .ok [{ code := unaryCode f }]
  | .binary f => .ok [{ code := binaryCode f }]
  | .compare r =>
      match options.compare with
      | .absolute =>
          let target := rom + compareLength
          if target ≤ maxLiteral then .ok [{ code := compareCode r (.literal target) }]
          else .error (.targetBeyondRom target)
      | .symbolic =>
          let target := site.compareSymbol
          .ok [{ code := compareCode r (.symbol target) ++ [.label target] }]
  | .label name => .ok [{ code := [.label (site.labelSymbol name)] }]
  | .goto name => .ok [{ code := gotoCode (site.labelSymbol name) }]
  | .ifGoto name => .ok [{ code := ifGotoCode options.branch (site.labelSymbol name) }]
  | .function name locals => .ok [{ code := functionCode name locals }]
  | .call name args =>
      if args + frameSize ≤ maxLiteral then
        .ok (callBatches name (site.returnSymbol name) args)
      else .error (.tooManyArguments args)
  | .ret => .ok returnBatches

/-- Where the command after an operation stands. -/
def Site.after (options : Options) (site : Site) : Operation → Site
  | .compare _ =>
      match options.compare with
      | .absolute => site
      | .symbolic => { site with compares := site.compares + 1 }
  | .function name _ => { site with function := some name }
  | .call _ _ => { site with calls := site.calls + 1 }
  | .ret => { site with function := none }
  | _ => site

end HackBackend.Codegen
