import HackBackend.Asm.Reader
import Mathlib.Tactic.Common

/-!
# Spelling and reading

A line of assembly whose names are symbols and whose literals have 15 bits is read back from its
spelling. A line with other names may be refused; where it is read, an instruction still is one,
and so is a label. A comment at the end of a line makes no difference to what is read.
-/

namespace HackBackend.Text

/-- A blank before a comment keeps it from being read as part of the text. -/
theorem unspaced_uncommented_comment (cs comment : List Char) :
    unspaced (uncommented (cs ++ ' ' :: '/' :: '/' :: comment)) = unspaced (uncommented cs) := by
  induction cs with
  | nil =>
      have hblank : isBlank ' ' = true := by decide
      simp [uncommented_cons, unspaced, hblank]
  | cons c cs ih =>
      have hhead : (cs ++ ' ' :: '/' :: '/' :: comment).head? = some '/' ↔
          cs.head? = some '/' := by
        cases cs <;> simp
      rw [List.cons_append, uncommented_cons, uncommented_cons]
      simp only [hhead]
      split
      · rfl
      · simp only [unspaced, List.filter_cons] at ih ⊢
        rw [ih]

theorem unspaced_eq_self {cs : List Char} (h : ∀ c ∈ cs, isBlank c = false) :
    unspaced cs = cs := by
  simpa [unspaced] using h

theorem isSymbolChar_toNat {c : Char} (h : isSymbolChar c) :
    (48 ≤ c.toNat ∧ c.toNat ≤ 58) ∨ (65 ≤ c.toNat ∧ c.toNat ≤ 90) ∨
      (97 ≤ c.toNat ∧ c.toNat ≤ 122) ∨ c.toNat = 95 ∨ c.toNat = 46 ∨ c.toNat = 36 := by
  simp only [isSymbolChar, Char.isAlphanum] at h
  delta Char.isAlpha Char.isUpper Char.isLower Char.isDigit at h
  simp only [Bool.or_eq_true, Bool.and_eq_true, decide_eq_true_eq, ge_iff_le,
    UInt32.le_iff_toNat_le] at h
  rcases h with ((((h | h) | h) | h) | h) | h
  case inr | inl.inr | inl.inl.inr | inl.inl.inl.inr => subst h; decide
  · simp at h
    omega
  · simp at h
    omega

theorem isBlank_of_isSymbolChar {c : Char} (h : isSymbolChar c) : isBlank c = false := by
  have := isSymbolChar_toNat h
  simp [isBlank, blankRanges]
  omega

theorem ne_of_isSymbolChar {c d : Char} (h : isSymbolChar c) (hd : isSymbolChar d = false) :
    c ≠ d := by
  rintro rfl
  simp [h] at hd

theorem isSymbolChar_of_isDigit {c : Char} (h : c.isDigit) : isSymbolChar c := by
  simp [isSymbolChar, Char.isAlphanum, h]

theorem isDigit_of_mem_toString {n : Nat} : ∀ c ∈ (toString n).toList, c.isDigit := by
  intro c hc
  have hmem : c ∈ Nat.toDigits 10 n := by simpa using hc
  exact Nat.isDigit_of_mem_toDigits (by decide) (by decide) hmem

theorem all_isSymbolChar_toString {n : Nat} : (toString n).toList.all isSymbolChar := by
  refine List.all_eq_true.mpr fun c hc => ?_
  simp [isSymbolChar, Char.isAlphanum, isDigit_of_mem_toString c hc]

theorem isSymbol_toString_append {name suffix : String} (h : isSymbol name.toList)
    (hsuffix : suffix.toList.all isSymbolChar) : isSymbol (name ++ suffix).toList := by
  rw [String.toList_append]
  exact isSymbol_append h (List.all_eq_true.mp hsuffix)

theorem slash_notMem_of_isSymbolChar {cs : List Char} (h : ∀ c ∈ cs, isSymbolChar c) : '/' ∉ cs :=
  fun hmem => ne_of_isSymbolChar (h _ hmem) (by decide) rfl

/-- A text of symbol characters is all code. -/
theorem unspaced_uncommented_eq_self {cs : List Char} (h : ∀ c ∈ cs, isSymbolChar c) :
    unspaced (uncommented cs) = cs := by
  rw [uncommented_eq_self (slash_notMem_of_isSymbolChar h),
    unspaced_eq_self fun c hc => isBlank_of_isSymbolChar (h c hc)]

/-- A symbol is not a numeral. -/
theorem numeral?_of_isSymbol {cs : List Char} (h : isSymbol cs) (limit : Nat) :
    numeral? limit cs = none := by
  cases cs with
  | nil => simp at h
  | cons c cs =>
      have hc : c.isDigit = false := by
        simp only [isSymbol_cons, Bool.and_eq_true, Bool.not_eq_true'] at h
        exact h.1
      simp [numeral?, isNumeral, hc]

end HackBackend.Text

namespace HackBackend.Asm

open Text

/-- The line that a text is read as, if it is read as one. -/
def lineOf? (raw : String) : Option Line :=
  lineOfCode (codeOf raw)

theorem codeOf_comment (line comment : String) :
    codeOf (line ++ " //" ++ comment) = codeOf line := by
  simp only [codeOf, String.toList_append, List.append_assoc]
  exact unspaced_uncommented_comment line.toList comment.toList

/-- A text without code is not a line. -/
theorem lineOfCode_nil : lineOfCode [] = none := by
  decide

theorem readLine_eq_ok_some_iff {number : Nat} {raw : String} {line : Line} :
    readLine number raw = .ok (some line) ↔ lineOf? raw = some line := by
  unfold readLine lineOf?
  cases h : codeOf raw with
  | nil => simp [lineOfCode_nil]
  | cons c cs => cases hline : lineOfCode (c :: cs) <;> simp [hline]

theorem readLine_eq_ok_none_iff {number : Nat} {raw : String} :
    readLine number raw = .ok none ↔ codeOf raw = [] := by
  unfold readLine
  cases h : codeOf raw with
  | nil => simp
  | cons c cs => cases hline : lineOfCode (c :: cs) <;> simp [hline]

theorem readLine_eq_error_iff {number : Nat} {raw : String} {e : Error} :
    readLine number raw = .error e ↔
      codeOf raw ≠ [] ∧ lineOfCode (codeOf raw) = none ∧
        e = .located .invalidAssembly (sourceLine number raw) := by
  unfold readLine
  cases h : codeOf raw with
  | nil => simp
  | cons c cs => cases hline : lineOfCode (c :: cs) <;> simp [hline, eq_comm]

/-- A text that is read without an error is blank or holds a line. -/
theorem isSome_of_readLine {number : Nat} {raw : String} {found : Option Line}
    (h : readLine number raw = .ok found) (hcode : codeOf raw ≠ []) : (lineOf? raw).isSome := by
  cases found with
  | none => exact absurd (readLine_eq_ok_none_iff.mp h) hcode
  | some line =>
      rw [readLine_eq_ok_some_iff.mp h]
      rfl

/-- The code of a text that opens with a mark goes on with the code of what follows. -/
theorem codeOf_of_cons {raw : String} {c : Char} {cs : List Char} (h : raw.toList = c :: cs)
    (hslash : c ≠ '/') (hblank : isBlank c = false) :
    codeOf raw = c :: unspaced (uncommented cs) := by
  rw [codeOf, h, uncommented_cons, if_neg fun hc => hslash hc.1]
  simp [unspaced, hblank]

/-- The code of an address line, whatever its address is spelled like. -/
theorem codeOf_load (address : Address) :
    codeOf (Line.instruction (.load address)).text =
      '@' :: unspaced (uncommented address.text.toList) := by
  apply codeOf_of_cons _ (by decide) (by decide)
  simp [Line.text, Instruction.text]

/-- The code of a label, whatever its name is. -/
theorem codeOf_label (name : String) :
    codeOf (Line.label name).text = '(' :: unspaced (uncommented (name.toList ++ [')'])) := by
  apply codeOf_of_cons _ (by decide) (by decide)
  simp [Line.text]

/-- A text that opens with neither mark is read as a computation. -/
theorem lineOfCode_of_ne {c : Char} {cs : List Char} (hat : c ≠ '@') (hbracket : c ≠ '(') :
    lineOfCode (c :: cs) = (readCompute (c :: cs)).map .instruction := by
  unfold lineOfCode
  split <;> simp_all

/-- The lines that are read back from their spelling. -/
def Line.Readable : Line → Prop
  | .instruction (.load (.literal n)) => n ≤ maxLiteral
  | .instruction (.load (.symbol name)) => isSymbol name.toList
  | .instruction (.compute ..) => True
  | .label name => isSymbol name.toList

theorem lineOf?_literal {n : Nat} (h : n ≤ maxLiteral) :
    lineOf? (Line.literal n).text = some (.literal n) := by
  have htext : (Address.literal n).text.toList = Nat.toDigits 10 n := by
    simp [Address.text]
  have hnumeral : isNumeral (Nat.toDigits 10 n) := isNumeral_toDigits n
  have hdigits : ∀ c ∈ Nat.toDigits 10 n, isSymbolChar c := by
    intro c hc
    simp only [isNumeral, Bool.and_eq_true, List.all_eq_true] at hnumeral
    exact isSymbolChar_of_isDigit (hnumeral.2 c hc)
  have hvalue : numeral? maxLiteral (Nat.toDigits 10 n) = some n :=
    numeral?_eq_some_iff.mpr ⟨hnumeral, decimalValue_toDigits n, h⟩
  rw [Line.literal, lineOf?, codeOf_load, htext, unspaced_uncommented_eq_self hdigits]
  simp [lineOfCode, readAddress, hvalue]

theorem readAddress_of_isSymbol {name : List Char} (h : isSymbol name) :
    readAddress name = some (.symbol (String.ofList name)) := by
  simp [readAddress, numeral?_of_isSymbol h, h]

theorem lineOf?_symbol {name : String} (h : isSymbol name.toList) :
    lineOf? (Line.symbol name).text = some (.symbol name) := by
  rw [Line.symbol, lineOf?, codeOf_load, Address.text,
    unspaced_uncommented_eq_self (isSymbolChar_of_mem h), lineOfCode, readAddress_of_isSymbol h,
    String.ofList_toList]
  rfl

theorem lineOf?_label {name : String} (h : isSymbol name.toList) :
    lineOf? (Line.label name).text = some (.label name) := by
  have hcode : unspaced (uncommented (name.toList ++ [')'])) = name.toList ++ [')'] := by
    have hslash : '/' ∉ name.toList ++ [')'] := by
      simpa using slash_notMem_of_isSymbolChar (isSymbolChar_of_mem h)
    have hblank : ∀ c ∈ name.toList ++ [')'], isBlank c = false := by
      intro c hc
      rcases List.mem_append.mp hc with hc | hc
      · exact isBlank_of_isSymbolChar (isSymbolChar_of_mem h c hc)
      · rw [List.mem_singleton.mp hc]
        decide
    rw [uncommented_eq_self hslash, unspaced_eq_self hblank]
  rw [lineOf?, codeOf_label, hcode]
  simp [lineOfCode, readLabel, h]

/-- What no spelling of a computation, a jump or a destination holds. -/
def isForeign (c : Char) : Bool :=
  isBlank c || c = '/' || c = '@' || c = '(' || c = '=' || c = ';'

theorem compText_not_isForeign (comp : Comp) : ∀ c ∈ comp.text.toList, isForeign c = false := by
  have spelled : ∀ comp ∈ Comp.all, comp.text.toList.all fun c => !isForeign c := by
    decide
  simpa using spelled comp (Comp.mem_all comp)

theorem jumpText_not_isForeign (jump : Jump) : ∀ c ∈ jump.text.toList, isForeign c = false := by
  have spelled : jump.text.toList.all fun c => !isForeign c := by
    cases jump <;> decide
  simpa using spelled

theorem letters_not_isForeign (dest : Dest) : ∀ c ∈ dest.letters, isForeign c = false := by
  have spelled : dest.letters.all fun c => !isForeign c := by
    obtain ⟨a, d, m⟩ := dest
    cases a <;> cases d <;> cases m <;> decide
  simpa using spelled

theorem compText_ne_nil (comp : Comp) : comp.text.toList ≠ [] := by
  have spelled : ∀ comp ∈ Comp.all, comp.text.toList ≠ [] := by decide
  exact spelled comp (Comp.mem_all comp)

/-- A computation and its jump are read back from their spelling. -/
theorem readJump_text (comp : Comp) (jump : Jump) :
    readJump (comp.text.toList ++ (if jump = .never then [] else ';' :: jump.text.toList)) =
      some (comp, jump) := by
  have hcomp : ∀ c ∈ comp.text.toList, (c == ';') = false := by
    intro c hc
    have := compText_not_isForeign comp c hc
    simp_all [isForeign]
  have hjump : ∀ c ∈ jump.text.toList, (c == ';') = false := by
    intro c hc
    have := jumpText_not_isForeign jump c hc
    simp_all [isForeign]
  by_cases h : jump = .never
  · simp [h, readJump, pieces_eq_singleton hcomp]
  · simp [h, readJump, pieces_append_cons hcomp, pieces_eq_singleton hjump, Jump.ofText?_text h]

theorem jumpTail_ne_equals (comp : Comp) (jump : Jump) :
    ∀ c ∈ comp.text.toList ++ (if jump = .never then [] else ';' :: jump.text.toList),
      (c == '=') = false := by
  intro c hc
  rcases List.mem_append.mp hc with hc | hc
  · have := compText_not_isForeign comp c hc
    simp_all [isForeign]
  · by_cases h : jump = .never
    · simp [h] at hc
    · rw [if_neg h] at hc
      rcases List.mem_cons.mp hc with rfl | hc
      · rfl
      · have := jumpText_not_isForeign jump c hc
        simp_all [isForeign]

/-- Without a destination the value is stored nowhere. -/
theorem readCompute_nowhere (comp : Comp) (jump : Jump) :
    readCompute (comp.text.toList ++ (if jump = .never then [] else ';' :: jump.text.toList)) =
      some (.compute .nowhere comp jump) := by
  simp [readCompute, pieces_eq_singleton (jumpTail_ne_equals comp jump), readJump_text]

/-- A destination may be spelled by its letters in any order. -/
theorem readCompute_dest {letters : List Char} {dest : Dest}
    (h : Dest.ofLetters? letters = some dest) (comp : Comp) (jump : Jump) :
    readCompute (letters ++ '=' :: (comp.text.toList ++
        if jump = .never then [] else ';' :: jump.text.toList)) =
      some (.compute dest comp jump) := by
  have hletters : ∀ c ∈ letters, (c == '=') = false := by
    intro c hc
    simp only [Dest.ofLetters?, Option.ite_none_right_eq_some, Bool.and_eq_true,
      List.all_eq_true] at h
    have := (h.1.2 c hc).1
    grind
  rw [readCompute, pieces_append_cons hletters rfl,
    pieces_eq_singleton (jumpTail_ne_equals comp jump)]
  simp [h, readJump_text]

theorem readCompute_text (dest : Dest) (comp : Comp) (jump : Jump) :
    readCompute ((if dest = .nowhere then [] else dest.letters ++ ['=']) ++ comp.text.toList ++
        (if jump = .never then [] else ';' :: jump.text.toList)) =
      some (.compute dest comp jump) := by
  rw [List.append_assoc]
  by_cases h : dest = .nowhere
  · rw [if_pos h, List.nil_append, readCompute_nowhere, h]
  · rw [if_neg h, List.append_assoc, List.singleton_append,
      readCompute_dest (Dest.ofLetters?_letters h)]

theorem toList_computeText (dest : Dest) (comp : Comp) (jump : Jump) :
    (Line.instruction (.compute dest comp jump)).text.toList =
      (if dest = .nowhere then [] else dest.letters ++ ['=']) ++ comp.text.toList ++
        (if jump = .never then [] else ';' :: jump.text.toList) := by
  simp only [Line.text, Instruction.text, String.toList_append]
  split <;> split <;> simp

/-- A computation is spelled without blanks, comments and the marks of the other lines. -/
theorem computeText_plain (dest : Dest) (comp : Comp) (jump : Jump) :
    ∀ c ∈ (Line.instruction (.compute dest comp jump)).text.toList,
      isBlank c = false ∧ c ≠ '/' ∧ c ≠ '@' ∧ c ≠ '(' := by
  intro c hc
  have hmark : c = '=' ∨ c = ';' ∨ isForeign c = false := by
    rw [toList_computeText] at hc
    rcases List.mem_append.mp hc with hc | hc
    · rcases List.mem_append.mp hc with hc | hc
      · split at hc
        · simp at hc
        · rcases List.mem_append.mp hc with hc | hc
          · exact .inr (.inr (letters_not_isForeign dest c hc))
          · exact .inl (List.mem_singleton.mp hc)
      · exact .inr (.inr (compText_not_isForeign comp c hc))
    · split at hc
      · simp at hc
      · rcases List.mem_cons.mp hc with rfl | hc
        · exact .inr (.inl rfl)
        · exact .inr (.inr (jumpText_not_isForeign jump c hc))
  rcases hmark with rfl | rfl | h
  · decide
  · decide
  · simp_all [isForeign]

theorem lineOf?_compute (dest : Dest) (comp : Comp) (jump : Jump) :
    lineOf? (Line.instruction (.compute dest comp jump)).text =
      some (.instruction (.compute dest comp jump)) := by
  have hplain := computeText_plain dest comp jump
  have hcode : codeOf (Line.instruction (.compute dest comp jump)).text =
      (Line.instruction (.compute dest comp jump)).text.toList := by
    rw [codeOf, uncommented_eq_self fun hmem => (hplain _ hmem).2.1 rfl,
      unspaced_eq_self fun c hc => (hplain c hc).1]
  rw [lineOf?, hcode]
  cases hcs : (Line.instruction (.compute dest comp jump)).text.toList with
  | nil =>
      rw [toList_computeText] at hcs
      simp [compText_ne_nil comp] at hcs
  | cons c cs =>
      have hc := hplain c (by simp [hcs])
      rw [lineOfCode_of_ne hc.2.2.1 hc.2.2.2, ← hcs, toList_computeText, readCompute_text]
      rfl

/-- There is no comment in the spelling of a line that can be read. -/
theorem slash_notMem_text {line : Line} (h : line.Readable) : '/' ∉ line.text.toList := by
  rcases line with ((n | name) | ⟨dest, comp, jump⟩) | name
  · have hdigits : ∀ c ∈ Nat.toDigits 10 n, isSymbolChar c := fun c hc =>
      isSymbolChar_of_isDigit (Nat.isDigit_of_mem_toDigits (by decide) (by decide) hc)
    simpa [Line.text, Instruction.text, Address.text] using slash_notMem_of_isSymbolChar hdigits
  · have hname : '/' ∉ name.toList := slash_notMem_of_isSymbolChar (isSymbolChar_of_mem h)
    simpa [Line.text, Instruction.text, Address.text] using hname
  · exact fun hmem => (computeText_plain dest comp jump _ hmem).2.1 rfl
  · have hname : '/' ∉ name.toList := slash_notMem_of_isSymbolChar (isSymbolChar_of_mem h)
    simpa [Line.text] using hname

/-- A line that can be read is read back from its spelling. -/
theorem lineOf?_text {line : Line} (h : line.Readable) : lineOf? line.text = some line := by
  rcases line with ((n | name) | ⟨dest, comp, jump⟩) | name
  · exact lineOf?_literal h
  · exact lineOf?_symbol h
  · exact lineOf?_compute dest comp jump
  · exact lineOf?_label h

/-- Whatever its names are, a line is read as an instruction only if it is one. -/
theorem isInstruction_of_lineOf?_text {line read : Line} (h : lineOf? line.text = some read) :
    read.isInstruction = line.isInstruction := by
  rcases line with (address | ⟨dest, comp, jump⟩) | name
  case instruction.load =>
    rw [lineOf?, codeOf_load] at h
    obtain ⟨read, -, rfl⟩ := Option.map_eq_some_iff.mp h
    rfl
  case instruction.compute =>
    rw [lineOf?_compute] at h
    rw [← Option.some.inj h]
  case label =>
    rw [lineOf?, codeOf_label] at h
    obtain ⟨read, -, rfl⟩ := Option.map_eq_some_iff.mp h
    rfl

/-- A spelled line is no empty line. -/
theorem codeOf_text_ne_nil (line : Line) : codeOf line.text ≠ [] := by
  rcases line with (address | ⟨dest, comp, jump⟩) | name
  case instruction.compute =>
    intro hnil
    have hline := lineOf?_compute dest comp jump
    rw [lineOf?, hnil, lineOfCode_nil] at hline
    cases hline
  case instruction.load =>
    rw [codeOf_load]
    exact List.cons_ne_nil _ _
  case label =>
    rw [codeOf_label]
    exact List.cons_ne_nil _ _

end HackBackend.Asm
