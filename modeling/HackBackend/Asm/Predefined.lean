import HackBackend.Platform

/-!
# Predefined symbols

Names that stand for a fixed memory cell, whatever else a program says about them.
-/

namespace HackBackend.Asm

/-- The predefined symbols with their cells. -/
def predefined : List (String × Nat) :=
  [("SP", 0), ("LCL", 1), ("ARG", 2), ("THIS", 3), ("THAT", 4),
    ("SCREEN", screenBase), ("KBD", keyboard)] ++
    (List.range 16).map fun n => ("R" ++ toString n, n)

def predefined? (name : String) : Option Nat :=
  predefined.lookup name

/-- No name is predefined twice, so the order of the table does not matter. -/
theorem nodup_predefined : (predefined.map Prod.fst).Nodup := by
  decide +kernel

theorem predefined_le : ∀ entry ∈ predefined, entry.2 ≤ maxLiteral := by
  decide +kernel

end HackBackend.Asm
