import HackBackend.Proofs.Asm.Spelling
import HackBackend.Proofs.Text.Layout
import Mathlib.Data.List.Nodup

/-!
# The grammar of assembly lines

A `Derivation` is a syntax tree of a line: it says what text it derives and which line that text
stands for. The reader finds a valid derivation of the code of a line whenever there is one, there
is at most one, and a line that is denoted by one is read back from its spelling, however it is
spaced and whatever comment comes after it.
-/

namespace HackBackend.Asm

open Text

/-- Distinct letters among A, D and M, in any order. -/
structure IsDest (letters : List Char) : Prop where
  ne_nil : letters ≠ []
  nodup : letters.Nodup
  places : ∀ c ∈ letters, c ∈ ['A', 'D', 'M']

/-- The places that some letters name. -/
def destOf (letters : List Char) : Dest :=
  ⟨letters.contains 'A', letters.contains 'D', letters.contains 'M'⟩

theorem ofLetters?_eq_some_iff {letters : List Char} {dest : Dest} :
    Dest.ofLetters? letters = some dest ↔ IsDest letters ∧ destOf letters = dest := by
  have hletters : (!letters.isEmpty && letters.all fun c =>
      (c = 'A' || c = 'D' || c = 'M') && letters.count c = 1) ↔ IsDest letters := by
    simp only [Bool.and_eq_true, List.all_eq_true, Bool.or_eq_true, decide_eq_true_eq,
      Bool.not_eq_true', List.isEmpty_eq_false_iff]
    constructor
    · rintro ⟨hne, hall⟩
      exact ⟨hne, List.nodup_iff_count_eq_one.mpr fun c hc => (hall c hc).2,
        fun c hc => by simpa [or_assoc] using (hall c hc).1⟩
    · rintro ⟨hne, hnodup, hplaces⟩
      exact ⟨hne, fun c hc => ⟨by simpa [or_assoc] using hplaces c hc,
        List.nodup_iff_count_eq_one.mp hnodup c hc⟩⟩
  rw [Dest.ofLetters?, Option.ite_none_right_eq_some, hletters, Option.some.injEq, destOf]

theorem Comp.ofText?_eq_some_iff {text : String} {comp : Comp} :
    Comp.ofText? text = some comp ↔ comp.text = text := by
  constructor
  · intro h
    simpa using List.find?_some h
  · rintro rfl
    exact Comp.ofText?_text comp

theorem Jump.ofText?_eq_some_iff {text : String} {jump : Jump} :
    Jump.ofText? text = some jump ↔ jump ≠ .never ∧ jump.text = text := by
  constructor
  · intro h
    refine ⟨?_, by simpa using List.find?_some h⟩
    rintro rfl
    exact absurd (List.mem_of_find?_eq_some h) (by decide)
  · rintro ⟨hne, rfl⟩
    exact Jump.ofText?_text hne

/-! ### Derivations -/

/-- A syntax tree of a line. The jump never taken stands for no jump part at all. -/
inductive Derivation where
  | literal (digits : List Char)
  | symbol (name : List Char)
  | label (name : List Char)
  | compute (letters : Option (List Char)) (comp : Comp) (jump : Jump)

namespace Derivation

/-- The side conditions on the leaves of a tree. -/
def Valid : Derivation → Prop
  | literal digits => isNumeral digits ∧ decimalValue digits ≤ 32767
  | symbol name => isSymbol name
  | label name => isSymbol name
  | compute letters _ _ => ∀ cs ∈ letters, IsDest cs

/-- The text that a tree derives. -/
def text : Derivation → List Char
  | literal digits => '@' :: digits
  | symbol name => '@' :: name
  | label name => '(' :: (name ++ [')'])
  | compute letters comp jump =>
      letters.elim [] (· ++ ['=']) ++
        (comp.text.toList ++ if jump = .never then [] else ';' :: jump.text.toList)

/-- The line that a tree denotes. -/
def line : Derivation → Line
  | literal digits => .literal (decimalValue digits)
  | symbol name => .symbol (String.ofList name)
  | label name => .label (String.ofList name)
  | compute letters comp jump => .instruction (.compute (letters.elim .nowhere destOf) comp jump)

end Derivation

/-! ### What is derived is read -/

theorem isDest_not_isForeign {letters : List Char} (h : IsDest letters) :
    ∀ c ∈ letters, isForeign c = false := by
  intro c hc
  have hplace := h.places c hc
  simp only [List.mem_cons, List.not_mem_nil, or_false] at hplace
  rcases hplace with rfl | rfl | rfl <;> decide

/-- A computation does not open with the mark of another kind of line. -/
theorem lineOfCode_compute {letters : Option (List Char)} (h : ∀ cs ∈ letters, IsDest cs)
    (comp : Comp) (jump : Jump) :
    lineOfCode (Derivation.compute letters comp jump).text =
      (readCompute (Derivation.compute letters comp jump).text).map .instruction := by
  obtain ⟨c, cs, htext, hc⟩ : ∃ c cs,
      (Derivation.compute letters comp jump).text = c :: cs ∧ isForeign c = false := by
    cases letters with
    | none =>
        obtain ⟨c, cs, hcomp⟩ := List.exists_cons_of_ne_nil (compText_ne_nil comp)
        have hc := compText_not_isForeign comp c (by rw [hcomp]; exact List.mem_cons_self ..)
        exact ⟨c, _, by rw [Derivation.text, hcomp]; rfl, hc⟩
    | some letters =>
        have hdest : IsDest letters := h letters rfl
        obtain ⟨c, cs, rfl⟩ := List.exists_cons_of_ne_nil hdest.ne_nil
        exact ⟨c, _, rfl, isDest_not_isForeign hdest c (List.mem_cons_self ..)⟩
  rw [htext]
  apply lineOfCode_of_ne <;> rintro rfl <;> exact absurd hc (by decide)

theorem lineOfCode_text {d : Derivation} (h : d.Valid) : lineOfCode d.text = some d.line := by
  cases d with
  | literal digits =>
      have hvalue : numeral? maxLiteral digits = some (decimalValue digits) :=
        numeral?_eq_some_iff.mpr ⟨h.1, rfl, h.2⟩
      simp [Derivation.text, lineOfCode, readAddress, hvalue, Derivation.line, Line.literal]
  | symbol name =>
      simp [Derivation.text, lineOfCode, readAddress_of_isSymbol h, Derivation.line, Line.symbol]
  | label name =>
      have hname : isSymbol name := h
      simp [Derivation.text, lineOfCode, readLabel, hname, Derivation.line]
  | compute letters comp jump =>
      rw [lineOfCode_compute h]
      cases letters with
      | none =>
          rw [Derivation.text, Option.elim_none, List.nil_append, readCompute_nowhere]
          rfl
      | some letters =>
          have hdest : Dest.ofLetters? letters = some (destOf letters) :=
            ofLetters?_eq_some_iff.mpr ⟨h letters rfl, rfl⟩
          rw [Derivation.text, Option.elim_some, List.append_assoc, List.singleton_append,
            readCompute_dest hdest]
          rfl

/-! ### What is read is derived -/

theorem exists_of_readAddress {cs : List Char} {address : Address}
    (h : readAddress cs = some address) :
    ∃ d : Derivation, d.Valid ∧ d.text = '@' :: cs ∧ d.line = .instruction (.load address) := by
  rw [readAddress] at h
  cases hnumeral : numeral? maxLiteral cs with
  | some n =>
      rw [hnumeral] at h
      obtain rfl := Option.some.inj h
      obtain ⟨hdigits, rfl, hlimit⟩ := numeral?_eq_some_iff.mp hnumeral
      exact ⟨.literal cs, ⟨hdigits, hlimit⟩, rfl, rfl⟩
  | none =>
      rw [hnumeral] at h
      obtain ⟨hsymbol, hname⟩ := Option.ite_none_right_eq_some.mp h
      obtain rfl := Option.some.inj hname
      exact ⟨.symbol cs, hsymbol, rfl, rfl⟩

theorem exists_of_readLabel {cs : List Char} {name : String} (h : readLabel cs = some name) :
    ∃ d : Derivation, d.Valid ∧ d.text = '(' :: cs ∧ d.line = .label name := by
  obtain ⟨⟨hlast, hsymbol⟩, hname⟩ := Option.ite_none_right_eq_some.mp h
  obtain rfl := Option.some.inj hname
  refine ⟨.label cs.dropLast, hsymbol, ?_, rfl⟩
  rw [Derivation.text, List.dropLast_append_getLast? _ hlast]

theorem eq_of_readJump {cs : List Char} {comp : Comp} {jump : Jump}
    (h : readJump cs = some (comp, jump)) :
    cs = comp.text.toList ++ if jump = .never then [] else ';' :: jump.text.toList := by
  unfold readJump at h
  split at h
  case h_1 word hpieces =>
    obtain rfl := eq_of_pieces_eq_singleton hpieces
    obtain ⟨comp, hcomp, heq⟩ := Option.map_eq_some_iff.mp h
    obtain ⟨rfl, rfl⟩ := Prod.mk.inj heq
    rw [Comp.ofText?_eq_some_iff.mp hcomp]
    simp
  case h_2 word word' hpieces =>
    obtain ⟨s, rest, hs, rfl, hrest⟩ := exists_of_pieces_eq_cons hpieces
    obtain rfl := eq_of_pieces_eq_singleton hrest
    obtain ⟨comp, hcomp, h⟩ := Option.bind_eq_some_iff.mp h
    obtain ⟨jump, hjump, heq⟩ := Option.bind_eq_some_iff.mp h
    obtain ⟨rfl, rfl⟩ := Prod.mk.inj (Option.some.inj heq)
    obtain ⟨hne, htext⟩ := Jump.ofText?_eq_some_iff.mp hjump
    rw [Comp.ofText?_eq_some_iff.mp hcomp, if_neg hne, htext, eq_of_beq hs]
    simp
  case h_3 => cases h

theorem exists_of_readCompute {cs : List Char} {i : Instruction Address}
    (h : readCompute cs = some i) :
    ∃ d : Derivation, d.Valid ∧ d.text = cs ∧ d.line = .instruction i := by
  unfold readCompute at h
  split at h
  case h_1 rest hpieces =>
    obtain rfl := eq_of_pieces_eq_singleton hpieces
    obtain ⟨⟨comp, jump⟩, hjump, heq⟩ := Option.bind_eq_some_iff.mp h
    obtain rfl := Option.some.inj heq
    exact ⟨.compute none comp jump, by simp [Derivation.Valid], (eq_of_readJump hjump).symm, rfl⟩
  case h_2 letters rest hpieces =>
    obtain ⟨s, rest, hs, rfl, hrest⟩ := exists_of_pieces_eq_cons hpieces
    obtain rfl := eq_of_pieces_eq_singleton hrest
    obtain ⟨dest, hdest, h⟩ := Option.bind_eq_some_iff.mp h
    obtain ⟨⟨comp, jump⟩, hjump, heq⟩ := Option.bind_eq_some_iff.mp h
    obtain rfl := Option.some.inj heq
    obtain ⟨hletters, rfl⟩ := ofLetters?_eq_some_iff.mp hdest
    refine ⟨.compute (some letters) comp jump, by simpa [Derivation.Valid] using hletters, ?_, rfl⟩
    rw [Derivation.text, ← eq_of_readJump hjump, eq_of_beq hs]
    simp
  case h_3 => cases h

/-- The reader follows the grammar. -/
theorem lineOfCode_eq_some_iff {cs : List Char} {line : Line} :
    lineOfCode cs = some line ↔ ∃ d : Derivation, d.Valid ∧ d.text = cs ∧ d.line = line := by
  constructor
  · intro h
    unfold lineOfCode at h
    split at h
    · obtain ⟨address, haddress, rfl⟩ := Option.map_eq_some_iff.mp h
      exact exists_of_readAddress haddress
    · obtain ⟨name, hname, rfl⟩ := Option.map_eq_some_iff.mp h
      exact exists_of_readLabel hname
    · obtain ⟨i, hi, rfl⟩ := Option.map_eq_some_iff.mp h
      exact exists_of_readCompute hi
  · rintro ⟨d, hvalid, rfl, rfl⟩
    exact lineOfCode_text hvalid

/-! ### One derivation for each text -/

/-- Two destinations that are followed by the same text are the same. -/
theorem letters_eq_of_elim {letters letters' : Option (List Char)}
    (h : letters.elim [] (· ++ ['=']) = letters'.elim [] (· ++ ['='])) : letters = letters' := by
  rcases letters with _ | cs <;> rcases letters' with _ | cs'
  case none.none => rfl
  case some.some => exact congrArg some (List.append_cancel_right h)
  all_goals simp at h

/-- The grammar is unambiguous. -/
theorem Derivation.eq_of_text_eq {d d' : Derivation} (hd : d.Valid) (hd' : d'.Valid)
    (h : d.text = d'.text) : d = d' := by
  have hline : d.line = d'.line :=
    Option.some.inj ((lineOfCode_text hd).symm.trans ((congrArg _ h).trans (lineOfCode_text hd')))
  cases d <;> cases d'
  case literal.literal => exact congrArg Derivation.literal (List.cons.inj h).2
  case symbol.symbol => exact congrArg Derivation.symbol (List.cons.inj h).2
  case label.label =>
    exact congrArg Derivation.label (List.append_cancel_right (List.cons.inj h).2)
  case compute.compute =>
    simp only [Derivation.line, Line.instruction.injEq, Instruction.compute.injEq] at hline
    obtain ⟨-, rfl, rfl⟩ := hline
    rw [letters_eq_of_elim (List.append_cancel_right h)]
  -- trees of different kinds denote different lines
  all_goals simp [Derivation.line, Line.literal, Line.symbol] at hline

/-! ### Lines -/

/-- A line is denoted by the tree of its usual spelling, if its names are symbols and its literals
are not too large. -/
theorem readable_iff {line : Line} : line.Readable ↔ ∃ d : Derivation, d.Valid ∧ d.line = line := by
  constructor
  · intro h
    obtain ⟨d, hvalid, -, hline⟩ := lineOfCode_eq_some_iff.mp (lineOf?_text h)
    exact ⟨d, hvalid, hline⟩
  · rintro ⟨d, hvalid, rfl⟩
    cases d with
    | literal digits => exact hvalid.2
    | symbol name | label name =>
        have hname : isSymbol name := hvalid
        simpa [Derivation.line, Line.symbol, Line.Readable] using hname
    | compute letters comp jump => trivial

/-- Whatever is read has symbols for its names, and no literal that is too large. -/
theorem readable_of_lineOf? {raw : String} {line : Line} (h : lineOf? raw = some line) :
    line.Readable := by
  obtain ⟨d, hvalid, -, hline⟩ := lineOfCode_eq_some_iff.mp h
  exact readable_iff.mpr ⟨d, hvalid, hline⟩

/-- Blanks anywhere in a line make no difference to what it is read as. -/
theorem codeOf_of_unspaced {line : Line} (h : line.Readable) {text : String}
    (htext : unspaced text.toList = line.text.toList) :
    '/' ∉ text.toList ∧ lineOfCode (unspaced text.toList) = some line := by
  constructor
  · intro hmem
    have hkept : '/' ∈ unspaced text.toList := List.mem_filter.mpr ⟨hmem, by decide⟩
    exact slash_notMem_text h (htext ▸ hkept)
  · have hself : unspaced line.text.toList = line.text.toList := by
      rw [← htext]
      exact unspaced_eq_self fun c hc => not_isBlank_of_mem_unspaced hc
    have hread := lineOf?_text h
    rw [lineOf?, codeOf, uncommented_eq_self (slash_notMem_text h), hself] at hread
    rw [htext, hread]

theorem readLine_of_unspaced {line : Line} (h : line.Readable) {text : String}
    (htext : unspaced text.toList = line.text.toList) (number : Nat) :
    readLine number text = .ok (some line) := by
  obtain ⟨hslash, hread⟩ := codeOf_of_unspaced h htext
  apply readLine_eq_ok_some_iff.mpr
  rw [lineOf?, codeOf, uncommented_eq_self hslash, hread]

theorem readLine_of_unspaced_comment {line : Line} (h : line.Readable) {text : String}
    (htext : unspaced text.toList = line.text.toList) (comment : String) (number : Nat) :
    readLine number (text ++ "//" ++ comment) = .ok (some line) := by
  obtain ⟨hslash, hread⟩ := codeOf_of_unspaced h htext
  have hcode : codeOf (text ++ "//" ++ comment) = unspaced text.toList := by
    have hmark : ("//" : String).toList = commentMark := rfl
    rw [codeOf, String.toList_append, String.toList_append, hmark,
      uncommented_append_mark (not_mark_of_notMem hslash)]
  apply readLine_eq_ok_some_iff.mpr
  rw [lineOf?, hcode, hread]

/-- What of a line counts: its code, without blanks. -/
def IsContent (raw : String) (s : List Char) : Prop :=
  ∃ code, IsCode raw.toList code ∧ s = unspaced code

theorem isContent_iff {raw : String} {s : List Char} : IsContent raw s ↔ s = codeOf raw := by
  simp only [IsContent, isCode_iff, exists_eq_left, codeOf]

/-- A line without content holds nothing, and the content of any other line is what its only
derivation denotes, or an error that shows the trimmed line if it has none. Every line that has a
derivation is read back from its spelling, with blanks anywhere in it and a comment behind it. -/
theorem assemblyLine_grammar (number : Nat) (raw : String) :
    ∃ s, (∀ other, IsContent raw other ↔ other = s) ∧
      (readLine number raw = .ok none ↔ s = []) ∧
      (∀ line, readLine number raw = .ok (some line) ↔
        ∃ d : Derivation, d.Valid ∧ d.text = s ∧ d.line = line) ∧
      (∀ e, readLine number raw = .error e ↔
        s ≠ [] ∧ (¬ ∃ d : Derivation, d.Valid ∧ d.text = s) ∧ e.kind = .parse ∧
          ∃ t, IsTrimmed raw.toList t ∧
            e = .located .invalidAssembly ⟨number, String.ofList t⟩) ∧
      (∀ d d' : Derivation, d.Valid → d'.Valid → d.text = d'.text → d = d') ∧
      ∀ line, (∃ d : Derivation, d.Valid ∧ d.line = line) →
        ∀ text comment : String, unspaced text.toList = line.text.toList →
          readLine number text = .ok (some line) ∧
            readLine number (text ++ "//" ++ comment) = .ok (some line) := by
  refine ⟨codeOf raw, fun _ => isContent_iff, readLine_eq_ok_none_iff, fun line => ?_,
    fun e => ?_, fun _ _ => Derivation.eq_of_text_eq, fun line hline text comment htext => ?_⟩
  · rw [readLine_eq_ok_some_iff, lineOf?, lineOfCode_eq_some_iff]
  · have hnone : lineOfCode (codeOf raw) = none ↔
        ¬ ∃ d : Derivation, d.Valid ∧ d.text = codeOf raw := by
      rw [Option.eq_none_iff_forall_ne_some]
      simp only [ne_eq, lineOfCode_eq_some_iff, not_exists, not_and]
      exact ⟨fun h d hvalid htext => h d.line d hvalid htext rfl,
        fun h line d hvalid htext _ => h d hvalid htext⟩
    rw [readLine_eq_error_iff, hnone]
    constructor
    · rintro ⟨hne, hno, rfl⟩
      exact ⟨hne, hno, rfl, _, isTrimmed_trim raw.toList, rfl⟩
    · rintro ⟨hne, hno, -, t, ht, rfl⟩
      exact ⟨hne, hno, by rw [isTrimmed_iff.mp ht, sourceLine]⟩
  · have hreadable := readable_iff.mpr hline
    exact ⟨readLine_of_unspaced hreadable htext number,
      readLine_of_unspaced_comment hreadable htext comment number⟩

end HackBackend.Asm
