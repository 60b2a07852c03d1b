/-!
# Symbols

A symbol names a label or a memory cell: a non-empty row of ASCII letters, ASCII digits and
the four marks `_`, `.`, `$` and `:`, which does not begin with a digit.
-/

namespace HackBackend.Text

def isSymbolChar (c : Char) : Bool :=
  c.isAlphanum || c = '_' || c = '.' || c = '$' || c = ':'

def isSymbol (cs : List Char) : Bool :=
  match cs with
  | [] => false
  | c :: _ => !c.isDigit && cs.all isSymbolChar

@[simp] theorem isSymbol_nil : isSymbol [] = false := rfl

theorem isSymbol_cons (c : Char) (cs : List Char) :
    isSymbol (c :: cs) = (!c.isDigit && (c :: cs).all isSymbolChar) := rfl

theorem isSymbolChar_of_mem {cs : List Char} (h : isSymbol cs) : ∀ c ∈ cs, isSymbolChar c := by
  cases cs with
  | nil => simp
  | cons c cs =>
      simp only [isSymbol_cons, Bool.and_eq_true, List.all_eq_true] at h
      exact h.2

/-- Symbol characters may be appended to a symbol. -/
theorem isSymbol_append {cs ds : List Char} (h : isSymbol cs) (hd : ∀ d ∈ ds, isSymbolChar d) :
    isSymbol (cs ++ ds) := by
  cases cs with
  | nil => simp at h
  | cons c cs =>
      simp only [isSymbol_cons, Bool.and_eq_true, List.all_eq_true, List.cons_append] at h ⊢
      refine ⟨h.1, fun x hx => ?_⟩
      rcases List.mem_append.mp (List.cons_append ▸ hx) with hx | hx
      · exact h.2 x hx
      · exact hd x hx

end HackBackend.Text
