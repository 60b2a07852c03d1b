import HackBackend.Asm.Instruction

/-!
# Lines of assembly and their spelling

A line of assembly is an instruction or a label. `Line.text` is the usual spelling: no blanks,
and the places that take a value in the order A, D, M.
-/

namespace HackBackend.Asm

/-- What an instruction of an assembly text loads. -/
inductive Address where
  | literal (n : Nat)
  | symbol (name : String)
deriving DecidableEq, Repr

inductive Line where
  | instruction (i : Instruction Address)
  /-- A name for the address of the instruction that comes next. -/
  | label (name : String)
deriving DecidableEq, Repr

def Register.text : Register → String
  | d => "D"
  | a => "A"
  | m => "M"

def Input.text (y : Input) : String :=
  y.toRegister.text

namespace Comp

def text : Comp → String
  | zero => "0"
  | one => "1"
  | minusOne => "-1"
  | copy x => x.text
  | not x => "!" ++ x.text
  | neg x => "-" ++ x.text
  | inc x => x.text ++ "+1"
  | dec x => x.text ++ "-1"
  | add y => "D+" ++ y.text
  | sub y => "D-" ++ y.text
  | subFrom y => y.text ++ "-D"
  | and y => "D&" ++ y.text
  | or y => "D|" ++ y.text

/-- The 28 computations. -/
def all : List Comp :=
  [zero, one, minusOne] ++
    [copy, not, neg, inc, dec].flatMap (fun f => [Register.d, .a, .m].map f) ++
    [add, sub, subFrom, and, or].flatMap (fun f => [Input.a, .m].map f)

theorem mem_all (c : Comp) : c ∈ all := by
  rcases c with _ | _ | _ | x | x | x | x | x | y | y | y | y | y
  case copy | not | neg | inc | dec => cases x <;> decide
  case add | sub | subFrom | and | or => cases y <;> decide
  all_goals decide

def ofText? (text : String) : Option Comp :=
  all.find? fun c => c.text = text

/-- A computation is known by its spelling. -/
@[simp] theorem ofText?_text (c : Comp) : ofText? c.text = some c := by
  have spelled : ∀ c ∈ all, ofText? c.text = some c := by decide +kernel
  exact spelled c (mem_all c)

end Comp

namespace Jump

/-- The spelling of a jump; that of the jump never taken is empty. -/
def text : Jump → String
  | never => ""
  | gt => "JGT"
  | eq => "JEQ"
  | ge => "JGE"
  | lt => "JLT"
  | ne => "JNE"
  | le => "JLE"
  | always => "JMP"

/-- The jumps that are spelled out. -/
def conditions : List Jump :=
  [gt, eq, ge, lt, ne, le, always]

def ofText? (text : String) : Option Jump :=
  conditions.find? fun j => j.text = text

theorem ofText?_text {j : Jump} (h : j ≠ never) : ofText? j.text = some j := by
  cases j with
  | never => exact absurd rfl h
  | _ => decide +kernel

end Jump

namespace Dest

/-- The letters of the places, in the usual order. -/
def letters (dest : Dest) : List Char :=
  (if dest.toA then ['A'] else []) ++ (if dest.toD then ['D'] else []) ++
    (if dest.toM then ['M'] else [])

/-- The places that some letters name: each of A, D and M at most once, in any order. -/
def ofLetters? (cs : List Char) : Option Dest :=
  if !cs.isEmpty && cs.all fun c => (c = 'A' || c = 'D' || c = 'M') && cs.count c = 1 then
    some ⟨cs.contains 'A', cs.contains 'D', cs.contains 'M'⟩
  else none

theorem ofLetters?_letters {dest : Dest} (h : dest ≠ nowhere) :
    ofLetters? dest.letters = some dest := by
  obtain ⟨a, d, m⟩ := dest
  cases a <;> cases d <;> cases m <;> first | decide | exact absurd rfl h

end Dest

def Address.text : Address → String
  | literal n => toString n
  | symbol name => name

def Instruction.text : Instruction Address → String
  | load address => "@" ++ address.text
  | compute dest comp jump =>
      (if dest = .nowhere then "" else String.ofList dest.letters ++ "=") ++ comp.text ++
        (if jump = .never then "" else ";" ++ jump.text)

namespace Line

def text : Line → String
  | instruction i => i.text
  | label name => "(" ++ name ++ ")"

/-- Only an instruction takes up a place in the program. -/
def isInstruction : Line → Bool
  | instruction _ => true
  | label _ => false

/-- Loads the address that a name stands for. -/
def symbol (name : String) : Line :=
  .instruction (.load (.symbol name))

def literal (n : Nat) : Line :=
  .instruction (.load (.literal n))

/-- Stores the value of a computation. -/
def store (dest : Dest) (comp : Comp) : Line :=
  .instruction (.compute dest comp .never)

/-- Jumps on the value of a computation. -/
def jump (comp : Comp) (jump : Jump) : Line :=
  .instruction (.compute .nowhere comp jump)

end Line

end HackBackend.Asm
