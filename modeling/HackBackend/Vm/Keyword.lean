/-!
# Keywords of the stack language

A command line opens with a keyword, in any mixture of ASCII cases. `if-goto` may also be
written without its hyphen.
-/

namespace HackBackend.Vm

/-- Operations on the top of the stack. -/
inductive Unary where
  | neg | not
deriving DecidableEq, Repr

/-- Operations that replace the two topmost values by one. -/
inductive Binary where
  | add | sub | and | or
deriving DecidableEq, Repr

/-- Comparisons of the two topmost values. -/
inductive Relation where
  | eq | lt | gt
deriving DecidableEq, Repr

inductive Keyword where
  | push | pop
  | unary (f : Unary)
  | binary (f : Binary)
  | compare (r : Relation)
  | label | goto | ifGoto
  | function | call | ret
deriving DecidableEq, Repr

/-- What a keyword demands after it: nothing, one name, or a name and a number. -/
inductive Arity where
  | none | name | nameAndNumber
deriving DecidableEq, Repr

namespace Keyword

/-- The keywords with their spellings, the usual one of each keyword first. -/
def spellings : List (Keyword × String) :=
  [(push, "push"), (pop, "pop"),
    (binary .add, "add"), (binary .sub, "sub"), (binary .or, "or"), (binary .and, "and"),
    (compare .eq, "eq"), (compare .lt, "lt"), (compare .gt, "gt"),
    (unary .neg, "neg"), (unary .not, "not"),
    (label, "label"), (goto, "goto"), (ifGoto, "if-goto"), (ifGoto, "ifgoto"),
    (function, "function"), (call, "call"), (ret, "return")]

/-- The usual spelling of a keyword. -/
def text : Keyword → String
  | push => "push"
  | pop => "pop"
  | binary .add => "add"
  | binary .sub => "sub"
  | binary .or => "or"
  | binary .and => "and"
  | compare .eq => "eq"
  | compare .lt => "lt"
  | compare .gt => "gt"
  | unary .neg => "neg"
  | unary .not => "not"
  | label => "label"
  | goto => "goto"
  | ifGoto => "if-goto"
  | function => "function"
  | call => "call"
  | ret => "return"

/-- The keyword that a word spells, whatever the case of its ASCII letters. -/
def ofWord? (word : List Char) : Option Keyword :=
  (spellings.find? fun entry => entry.2.toList = word.map Char.toLower).map Prod.fst

theorem ofWord?_text (k : Keyword) : ofWord? k.text.toList = some k := by
  rcases k with _ | _ | f | f | r | _ | _ | _ | _ | _ | _
  case unary => cases f <;> decide +kernel
  case binary => cases f <;> decide +kernel
  case compare => cases r <;> decide +kernel
  all_goals decide +kernel

def arity : Keyword → Arity
  | push | pop | function | call => .nameAndNumber
  | label | goto | ifGoto => .name
  | unary _ | binary _ | compare _ | ret => .none

end Keyword

def Arity.text : Arity → String
  | .none => "no arguments"
  | .name => "exactly one argument"
  | .nameAndNumber => "two arguments"

end HackBackend.Vm
