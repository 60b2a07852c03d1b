import HackBackend.Proofs.Codegen.Labels
import Std.Data.String.ToNat

/-!
# The symbols that are made up

The symbol of a label, the symbol that a call returns to and the symbol of a comparison are each put
together from names, marks and a number. They are taken apart again here: what stands behind the
last `$` and the number at the end of a symbol are known from the symbol.
-/

namespace HackBackend

namespace Text

/-- What stands before and behind the last character of a kind is known from the whole row. -/
theorem append_cons_inj_of_notMem {x : Char} {xs xs' ys ys' : List Char} (hys : x ∉ ys)
    (hys' : x ∉ ys') (h : xs ++ x :: ys = xs' ++ x :: ys') : xs = xs' ∧ ys = ys' := by
  have hinner {as zs zs' : List Char} (hzs : x ∉ zs) (hsame : x :: zs = as ++ x :: zs') :
      as = [] ∧ zs = zs' := by
    cases as with
    | nil => exact ⟨rfl, (List.cons.inj hsame).2⟩
    | cons a as =>
        obtain ⟨-, rfl⟩ := List.cons.inj hsame
        exact absurd (by simp) hzs
  rcases List.append_eq_append_iff.mp h with ⟨as, rfl, hrest⟩ | ⟨as, rfl, hrest⟩
  · obtain ⟨rfl, rfl⟩ := hinner hys hrest
    exact ⟨(List.append_nil _).symm, rfl⟩
  · obtain ⟨rfl, rfl⟩ := hinner hys' hrest
    exact ⟨List.append_nil _, rfl⟩

theorem notMem_toString {c : Char} (hc : c.isDigit = false) (n : Nat) :
    c ∉ (toString n).toList := by
  intro hmem
  simp [isDigit_of_mem_toString c hmem] at hc

/-- A text and the number behind it are known from the two of them together. -/
theorem append_toString_inj {s t : String} {m n : Nat}
    (hs : ∀ c ∈ s.toList.getLast?, c.isDigit = false)
    (ht : ∀ c ∈ t.toList.getLast?, c.isDigit = false)
    (h : s ++ toString m = t ++ toString n) : s = t ∧ m = n := by
  obtain rfl := head_eq_of_append_toString hs ht h
  exact ⟨rfl, Nat.repr_inj.mp ((String.append_right_inj s).mp h)⟩

end Text

namespace Vm

theorem isReserved_returnMark (n : Nat) : isReserved (returnMark ++ toString n) := by
  simp [isReserved, returnMark, List.isPrefixOf?, Text.isNumeral_toDigits]

end Vm

namespace Codegen

open Vm StackMachine Text

/-! ### The symbols of labels -/

section

variable {c d : Placed} {site : Site} {name : String}

theorem labelSymbol_inj {label : String} (hname : '$' ∉ name.toList) (hlabel : '$' ∉ label.toList)
    (h : c.labelSymbol name = d.labelSymbol label) : c.scope = d.scope ∧ name = label := by
  have hlist : c.scope.toList ++ '$' :: name.toList = d.scope.toList ++ '$' :: label.toList := by
    simpa [Placed.labelSymbol] using congrArg String.toList h
  obtain ⟨hscope, hsame⟩ := append_cons_inj_of_notMem hname hlabel hlist
  exact ⟨String.toList_injective hscope, String.toList_injective hsame⟩

/-- A return symbol is the symbol of a label only if the label is reserved or holds a `$`. -/
theorem isReserved_of_labelSymbol_eq {callee : String} (hname : '$' ∉ name.toList)
    (h : c.labelSymbol name = site.returnSymbol callee) : isReserved name := by
  have hmark : '$' ∉ (returnMark ++ toString site.calls).toList := by
    rw [String.toList_append, List.mem_append, not_or]
    exact ⟨by decide, notMem_toString rfl _⟩
  have hlist : c.scope.toList ++ '$' :: name.toList =
      callee.toList ++ '$' :: (returnMark ++ toString site.calls).toList := by
    simpa [Placed.labelSymbol, Site.returnSymbol] using congrArg String.toList h
  obtain ⟨-, hsame⟩ := append_cons_inj_of_notMem hname hmark hlist
  rw [String.toList_injective hsame]
  exact isReserved_returnMark site.calls

/-- The symbol of a comparison is that of a label only if the label ends like it. -/
theorem exists_of_labelSymbol_eq (h : c.labelSymbol name = site.compareSymbol) :
    ∃ start, name = start ++ ":CMP_" ++ toString site.compares := by
  have hmark : '$' ∉ (":CMP_" ++ toString site.compares).toList := by
    rw [String.toList_append, List.mem_append, not_or]
    exact ⟨by decide, notMem_toString rfl _⟩
  have hlist : c.scope.toList ++ '$' :: name.toList =
      site.unit.toList ++ (":CMP_" ++ toString site.compares).toList := by
    simpa [Placed.labelSymbol, Site.compareSymbol] using congrArg String.toList h
  rcases List.append_eq_append_iff.mp hlist with ⟨as, -, hrest⟩ | ⟨as, -, hrest⟩
  · cases as with
    | nil => simp at hrest
    | cons a as =>
        refine ⟨String.ofList as, String.toList_injective ?_⟩
        simpa using (List.cons.inj hrest).2
  · exact absurd (hrest ▸ List.mem_append_right as (List.mem_cons_self ..)) hmark

theorem labelSymbol_ne_haltLabel (hscope : isSymbol c.scope.toList) (hname : '$' ∉ name.toList) :
    c.labelSymbol name ≠ haltLabel := by
  intro h
  have hlist : c.scope.toList ++ '$' :: name.toList = [] ++ '$' :: "HALT".toList := by
    simpa [Placed.labelSymbol, haltLabel] using congrArg String.toList h
  obtain ⟨hempty, -⟩ := append_cons_inj_of_notMem hname (by decide) hlist
  simp [hempty] at hscope

end

/-! ### The symbols with a number -/

section

variable {site other : Site}

/-- The part of a symbol before its number does not end in a digit. -/
theorem getLast?_returnSymbol (callee : String) :
    ∀ c ∈ (callee ++ "$" ++ returnMark).toList.getLast?, c.isDigit = false := by
  simp [returnMark]

theorem getLast?_compareSymbol (unit : String) :
    ∀ c ∈ (unit ++ ":CMP_").toList.getLast?, c.isDigit = false := by
  simp

theorem returnSymbol_inj {name callee : String}
    (h : site.returnSymbol name = other.returnSymbol callee) :
    name = callee ∧ site.calls = other.calls := by
  obtain ⟨hhead, hcalls⟩ :=
    append_toString_inj (getLast?_returnSymbol name) (getLast?_returnSymbol callee) h
  rw [String.append_left_inj, String.append_left_inj] at hhead
  exact ⟨hhead, hcalls⟩

theorem compareSymbol_inj (h : site.compareSymbol = other.compareSymbol) :
    site.unit = other.unit ∧ site.compares = other.compares := by
  obtain ⟨hhead, hcompares⟩ :=
    append_toString_inj (getLast?_compareSymbol site.unit) (getLast?_compareSymbol other.unit) h
  exact ⟨(String.append_left_inj _).mp hhead, hcompares⟩

theorem returnSymbol_ne_compareSymbol (callee : String) :
    site.returnSymbol callee ≠ other.compareSymbol := by
  intro h
  obtain ⟨hhead, -⟩ :=
    append_toString_inj (getLast?_returnSymbol callee) (getLast?_compareSymbol other.unit) h
  have hlast := congrArg (fun s : String => s.toList.getLast?) hhead
  simp [returnMark] at hlast

theorem getLast?_staticSymbol (unit : String) :
    ∀ c ∈ (unit ++ ".").toList.getLast?, c.isDigit = false := by
  simp

/-- The symbol of a static tells its unit and its offset: no number has a dot. -/
theorem staticSymbol_inj {unit unit' : String} {offset offset' : Nat}
    (h : Segment.staticSymbol unit offset = Segment.staticSymbol unit' offset') :
    unit = unit' ∧ offset = offset' := by
  obtain ⟨hhead, hoffset⟩ :=
    append_toString_inj (getLast?_staticSymbol unit) (getLast?_staticSymbol unit') h
  exact ⟨(String.append_left_inj ".").mp hhead, hoffset⟩

/-- A return symbol is that of a static only in a unit with the name of the callee and its mark. -/
theorem unit_of_returnSymbol_eq {callee unit : String} {offset : Nat}
    (h : site.returnSymbol callee = Segment.staticSymbol unit offset) :
    unit = callee ++ "$ret" := by
  obtain ⟨hhead, -⟩ :=
    append_toString_inj (getLast?_returnSymbol callee) (getLast?_staticSymbol unit) h
  have hmark : returnMark = "ret" ++ "." := rfl
  rw [hmark, ← String.append_assoc, String.append_left_inj, String.append_assoc] at hhead
  exact hhead.symm

theorem compareSymbol_ne_staticSymbol (unit : String) (offset : Nat) :
    site.compareSymbol ≠ Segment.staticSymbol unit offset := by
  intro h
  obtain ⟨hhead, -⟩ :=
    append_toString_inj (getLast?_compareSymbol site.unit) (getLast?_staticSymbol unit) h
  have hlast := congrArg (fun s : String => s.toList.getLast?) hhead
  simp at hlast

/-- No symbol that ends in a number is the halt label. -/
theorem append_toString_ne_haltLabel {s : String} {n : Nat} : s ++ toString n ≠ haltLabel := by
  intro h
  have hne : (toString n).toList ≠ [] := by simp
  have hlast := congrArg (fun s : String => s.toList.getLast?) h
  simp only [String.toList_append, List.getLast?_append_of_ne_nil _ hne] at hlast
  exact notMem_toString rfl n (List.mem_of_getLast? hlast)

theorem returnSymbol_ne_haltLabel (callee : String) : site.returnSymbol callee ≠ haltLabel :=
  append_toString_ne_haltLabel

theorem compareSymbol_ne_haltLabel : site.compareSymbol ≠ haltLabel :=
  append_toString_ne_haltLabel

end

end Codegen

end HackBackend
