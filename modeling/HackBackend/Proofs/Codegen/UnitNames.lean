import HackBackend.Proofs.Codegen.Building
import HackBackend.Proofs.Codegen.Symbols
import HackBackend.Proofs.Text.Layout

/-!
# The names of units in generated text

The name of a unit stands as it is in front of the symbols of its statics, and of its labels where
no function is open. Nothing else in the text of a run depends on it. Since the assembler drops the
blanks of a line, it reads such a symbol as if the unit were named without them.
-/

namespace HackBackend

open Asm Vm StackMachine Text

/-- A name without its blanks. -/
def spaceless (name : String) : String :=
  String.ofList (unspaced name.toList)

theorem toList_spaceless (name : String) : (spaceless name).toList = unspaced name.toList :=
  String.toList_ofList

namespace Asm

section

variable {unit suffix : String} (hslash : '/' ∉ unit.toList)
variable (hsuffix : isSymbol suffix.toList)

include hslash hsuffix

/-- The code of a text with the name of a unit in it, and of one that follows it. -/
theorem unspaced_uncommented_append {rest : List Char} (hrest : '/' ∉ rest)
    (hblank : ∀ c ∈ rest, isBlank c = false) :
    unspaced (uncommented ((unit ++ suffix).toList ++ rest)) =
      (spaceless unit ++ suffix).toList ++ rest := by
  have hchars := isSymbolChar_of_mem hsuffix
  have hcode : '/' ∉ (unit ++ suffix).toList ++ rest := by
    simp [hslash, hrest, slash_notMem_of_isSymbolChar hchars]
  have hdense : unspaced suffix.toList = suffix.toList :=
    unspaced_eq_self fun c hc => isBlank_of_isSymbolChar (hchars c hc)
  rw [uncommented_eq_self hcode, String.toList_append, String.toList_append, toList_spaceless]
  rw [unspaced, List.filter_append, List.filter_append, ← unspaced, ← unspaced, ← unspaced, hdense,
    unspaced_eq_self hblank]

/-- The assembler reads the symbol without the blanks in the name of the unit. -/
theorem lineOf?_symbol_append :
    lineOf? (Line.symbol (unit ++ suffix)).text =
      lineOfCode ('@' :: (spaceless unit ++ suffix).toList) := by
  have hcode := @unspaced_uncommented_append unit suffix hslash hsuffix [] (by simp) (by simp)
  rw [List.append_nil, List.append_nil] at hcode
  rw [Line.symbol, lineOf?, codeOf_load, Address.text, hcode]

theorem lineOf?_label_append (hstem : IsStem (spaceless unit)) :
    lineOf? (Line.label (unit ++ suffix)).text = some (.label (spaceless unit ++ suffix)) := by
  have hcode := @unspaced_uncommented_append unit suffix hslash hsuffix [')'] (by decide)
    (List.forall_mem_singleton.mpr (by decide))
  have hname := isSymbol_stem_append hstem hsuffix
  rw [lineOf?, codeOf_label, hcode, lineOfCode, readLabel, List.getLast?_concat,
    List.dropLast_concat, if_pos ⟨rfl, hname⟩, String.ofList_toList]
  rfl

end

/-- Every line can be read if the name of the unit in it is a symbol without its blanks, or nothing
but blanks. -/
theorem Line.Owned.isSome_lineOf? {isUnit : String → Prop} {line : Line} (h : line.Owned isUnit)
    (hunit : ∀ unit, isUnit unit → '/' ∉ unit.toList ∧ IsStem (spaceless unit)) :
    (lineOf? line.text).isSome := by
  cases h with
  | readable h =>
      rw [lineOf?_text h]
      rfl
  | @symbol unit suffix hisUnit hsuffix =>
      obtain ⟨hslash, hstem⟩ := hunit unit hisUnit
      have hname := isSymbol_stem_append hstem hsuffix
      rw [lineOf?_symbol_append hslash hsuffix, lineOfCode, readAddress_of_isSymbol hname]
      rfl
  | @label unit suffix hisUnit hsuffix =>
      obtain ⟨hslash, hstem⟩ := hunit unit hisUnit
      rw [lineOf?_label_append hslash hsuffix hstem]
      rfl

/-- If the symbol of a static can be read, it is read as that of the unit without the blanks in its
name. -/
theorem lineOf?_static {unit : String} (hslash : '/' ∉ unit.toList) {offset : Nat} {line : Line}
    (h : lineOf? (Line.symbol (Segment.staticSymbol unit offset)).text = some line) :
    line = .symbol (Segment.staticSymbol (spaceless unit) offset) := by
  have hsuffix : isSymbol ("." ++ toString offset).toList :=
    isSymbol_toString_append (by decide) all_isSymbolChar_toString
  have hnumeral :
      numeral? maxLiteral (spaceless unit ++ ("." ++ toString offset)).toList = none := by
    have hdot : '.' ∈ (spaceless unit ++ ("." ++ toString offset)).toList := by simp
    rw [numeral?, if_neg]
    simp only [isNumeral, Bool.and_eq_true, List.all_eq_true]
    rintro ⟨⟨-, hdigits⟩, -⟩
    exact absurd (hdigits '.' hdot) (by decide)
  rw [Segment.staticSymbol, String.append_assoc, lineOf?_symbol_append hslash hsuffix, lineOfCode,
    readAddress, hnumeral] at h
  simp only [Option.map_eq_some_iff, Option.ite_none_right_eq_some, Option.some.injEq] at h
  obtain ⟨address, ⟨-, rfl⟩, rfl⟩ := h
  rw [Segment.staticSymbol, String.append_assoc, String.ofList_toList]
  rfl

/-! ### Names that are read as addresses -/

/-- The address that a program has for what a name is read as, which may also be a number. -/
def Program.cellOf (program : Program) (name : String) : Nat :=
  ((readAddress (unspaced (uncommented name.toList))).map program.operand).getD 0

/-- If a name can be read at all, its address is loaded. -/
theorem exists_lineOf?_symbol {name : String} (h : (lineOf? (Line.symbol name).text).isSome)
    (program : Program) :
    ∃ address, lineOf? (Line.symbol name).text = some (.instruction (.load address)) ∧
      program.operand address = program.cellOf name := by
  obtain ⟨line, hline⟩ := Option.isSome_iff_exists.mp h
  have hread := hline
  rw [Line.symbol, lineOf?, codeOf_load, Address.text, lineOfCode, Option.map_eq_some_iff] at hread
  obtain ⟨address, haddress, rfl⟩ := hread
  exact ⟨address, hline, by rw [Program.cellOf, haddress]; rfl⟩

/-- A symbol is read as itself. -/
theorem Program.cellOf_of_isSymbol {name : String} (h : isSymbol name.toList) (program : Program) :
    program.cellOf name = program.address name := by
  rw [cellOf, unspaced_uncommented_eq_self (isSymbolChar_of_mem h), readAddress_of_isSymbol h,
    String.ofList_toList]
  rfl

/-! ### Names that are symbols and labels -/

theorem readLabel_concat (cs : List Char) :
    readLabel (cs ++ [')']) = if isSymbol cs then some (String.ofList cs) else none := by
  simp [readLabel]

/-- No address holds a bracket. -/
theorem bracket_notMem_of_readAddress {cs : List Char} (h : (readAddress cs).isSome) :
    ')' ∉ cs := by
  intro hmem
  have hnumeral : numeral? maxLiteral cs = none := by
    rw [numeral?, if_neg]
    simp only [isNumeral, Bool.and_eq_true, List.all_eq_true]
    rintro ⟨⟨-, hdigits⟩, -⟩
    exact absurd (hdigits _ hmem) (by decide)
  have hsymbol : ¬ isSymbol cs := fun hcs =>
    absurd (isSymbolChar_of_mem hcs _ hmem) (by decide)
  simp [readAddress, hnumeral, hsymbol] at h

/-- If a name can be read both as a symbol and as a label, it is the same name both times, without
its blanks: a comment in it would leave the label without its bracket. -/
theorem lineOf?_symbol_label {name : String} (hsymbol : (lineOf? (Line.symbol name).text).isSome)
    (hlabel : (lineOf? (Line.label name).text).isSome) :
    lineOf? (Line.symbol name).text = some (.symbol (spaceless name)) ∧
      lineOf? (Line.label name).text = some (.label (spaceless name)) := by
  rw [Line.symbol, lineOf?, codeOf_load, Address.text, lineOfCode] at hsymbol ⊢
  rw [lineOf?, codeOf_label, lineOfCode] at hlabel ⊢
  rw [Option.isSome_map] at hsymbol hlabel
  have hcode := isCode_uncommented name.toList
  generalize uncommented name.toList = code at hcode hsymbol
  generalize hname : name.toList = cs at hcode hlabel
  cases hcode with
  | whole hmark =>
      have hbracket : uncommented (code ++ [')']) = code ++ [')'] :=
        uncommented_of_not_mark (not_mark_concat (by decide) hmark)
      have hdense : unspaced (code ++ [')']) = unspaced code ++ [')'] := List.filter_append ..
      rw [hbracket, hdense, readLabel_concat] at hlabel ⊢
      have hvalid : isSymbol (unspaced code) := by
        by_contra hinvalid
        simp [hinvalid] at hlabel
      have hspaceless : spaceless name = String.ofList (unspaced code) := by rw [spaceless, hname]
      rw [readAddress_of_isSymbol hvalid, if_pos hvalid, hspaceless]
      exact ⟨rfl, rfl⟩
  | @before _ comment hmark =>
      exfalso
      rw [List.append_assoc, uncommented_append_mark hmark] at hlabel
      obtain ⟨label, hread⟩ := Option.isSome_iff_exists.mp hlabel
      rw [readLabel, Option.ite_none_right_eq_some] at hread
      exact bracket_notMem_of_readAddress hsymbol (List.mem_of_getLast? hread.1.1)

end Asm

namespace Codegen

/-- The names in the code of some operations are symbols, or the names of their units in front of
them. -/
theorem owned_of_lowerAll {options : Options} {isUnit : String → Prop} {n : Counters}
    {code : List Placed} {chunks : List (List Line)} (hunit : ∀ c ∈ code, isUnit c.unit)
    (hnamed : ∀ c ∈ code, c.Named) (h : lowerAll options n code = .ok chunks) :
    ∀ line ∈ chunks.flatten, line.Owned isUnit :=
  forall_mem_of_lowerAll (fun c hc _ _ => owned_of_lower (hunit c hc) (hnamed c hc)) h

theorem owned_runCode {options : Options} {units : List (String × Text.Source)}
    {chunks : List (List Line)} {isUnit : String → Prop} (hunits : ∀ unit ∈ units, isUnit unit.1)
    (h : lowerAll options (startCounters options) (codeOfUnits units) = .ok chunks) :
    ∀ line ∈ runCode options chunks, line.Owned isUnit := by
  have hunit : ∀ c ∈ codeOfUnits units, isUnit c.unit := by
    intro c hc
    obtain ⟨-, unit, hunit, hname⟩ := named_of_mem_codeOfUnits c hc
    rw [hname]
    exact hunits unit hunit
  have hchunks := owned_of_lowerAll hunit (fun c hc => (named_of_mem_codeOfUnits c hc).1) h
  exact List.forall_mem_append.mpr ⟨List.forall_mem_append.mpr
    ⟨owned_of_readable (readable_bootCode options), hchunks⟩, owned_of_readable readable_haltBatch⟩

end Codegen

end HackBackend
