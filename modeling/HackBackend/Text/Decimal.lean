/-!
# Decimal numerals

A numeral is a non-empty row of the ten ASCII digits, leading zeros allowed.
-/

namespace HackBackend.Text

/-- The number that a row of digits denotes, most significant digit first. -/
def decimalValue (cs : List Char) : Nat :=
  Nat.ofDigitChars 10 cs 0

def isNumeral (cs : List Char) : Bool :=
  !cs.isEmpty && cs.all Char.isDigit

/-- The number written in a text, if the text is a numeral of at most `limit`. -/
def numeral? (limit : Nat) (cs : List Char) : Option Nat :=
  if isNumeral cs ∧ decimalValue cs ≤ limit then some (decimalValue cs) else none

theorem numeral?_eq_some_iff {limit n : Nat} {cs : List Char} :
    numeral? limit cs = some n ↔ isNumeral cs ∧ decimalValue cs = n ∧ n ≤ limit := by
  unfold numeral?
  split <;> grind

theorem isNumeral_toDigits (n : Nat) : isNumeral (Nat.toDigits 10 n) := by
  have digits : ∀ c ∈ Nat.toDigits 10 n, c.isDigit = true := fun c hc =>
    Nat.isDigit_of_mem_toDigits (by decide) (by decide) hc
  simpa [isNumeral] using digits

/-- Reading the digits of a number gives the number back. -/
theorem decimalValue_toDigits (n : Nat) : decimalValue (Nat.toDigits 10 n) = n :=
  Nat.ofDigitChars_toDigits (by decide) (by decide)

end HackBackend.Text
