/-!
# Blanks and comments

A blank is a character with the Unicode property `White_Space`. Both languages drop what
follows the first `//` of a line; blanks at the two ends of a command line carry no meaning,
and in an assembly line no blank does.
-/

namespace HackBackend.Text

/-- The code points of the Unicode property `White_Space`, as first and last of each run. -/
def blankRanges : List (Nat × Nat) :=
  [(0x0009, 0x000D), (0x0020, 0x0020), (0x0085, 0x0085), (0x00A0, 0x00A0), (0x1680, 0x1680),
    (0x2000, 0x200A), (0x2028, 0x2029), (0x202F, 0x202F), (0x205F, 0x205F), (0x3000, 0x3000)]

def isBlank (c : Char) : Bool :=
  blankRanges.any fun r => r.1 ≤ c.toNat && c.toNat ≤ r.2

/-- The blanks that separate the words of a command. -/
def isSeparator (c : Char) : Bool :=
  c = ' ' || c = '\t' || c = '\r' || c = '\n'

theorem isBlank_of_isSeparator {c : Char} (h : isSeparator c) : isBlank c := by
  simp only [isSeparator, Bool.or_eq_true, decide_eq_true_eq] at h
  rcases h with ((rfl | rfl) | rfl) | rfl <;> decide

/-- A text without the blanks at its two ends. -/
def trim (cs : List Char) : List Char :=
  ((cs.dropWhile isBlank).reverse.dropWhile isBlank).reverse

/-- A text without any of its blanks. -/
def unspaced (cs : List Char) : List Char :=
  cs.filter fun c => !isBlank c

theorem not_isBlank_of_mem_unspaced {cs : List Char} {c : Char} (h : c ∈ unspaced cs) :
    isBlank c = false := by
  simpa using (List.mem_filter.mp h).2

/-- The part of a text before the first `//`. -/
def uncommented (cs : List Char) : List Char :=
  (cs.foldr
    (fun c (next, code) => (some c, if c = '/' ∧ next = some '/' then [] else c :: code))
    (none, [])).2

@[simp] theorem uncommented_nil : uncommented [] = [] := rfl

theorem uncommented_cons (c : Char) (cs : List Char) :
    uncommented (c :: cs) =
      if c = '/' ∧ cs.head? = some '/' then [] else c :: uncommented cs := by
  cases cs <;> rfl

/-- A text without `//` is all code. -/
theorem uncommented_eq_self {cs : List Char} (h : '/' ∉ cs) : uncommented cs = cs := by
  induction cs with
  | nil => rfl
  | cons c cs ih =>
      simp only [List.mem_cons, not_or] at h
      rw [uncommented_cons, if_neg fun hc => h.1 hc.1.symm, ih h.2]

end HackBackend.Text
