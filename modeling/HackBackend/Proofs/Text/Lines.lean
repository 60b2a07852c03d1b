import HackBackend.Text.Lines
import HackBackend.Text.Symbol
import Mathlib.Tactic.Common

/-!
# Bytes and their lines

Bytes make up lines in one way only: each newline ends a line, with one carriage return before it,
and what is left at the end is a line if there is anything left. A reader of bytes hands over
these lines, each as a text, or as a fault if it is not UTF-8.
-/

namespace HackBackend.Text

/-- Some bytes and the lines that they make up. -/
inductive IsLines : List UInt8 → List (List UInt8) → Prop
  /-- No bytes make up no lines. -/
  | empty : IsLines [] []
  /-- Bytes after the last newline are a line, with a carriage return at the end if there is one. -/
  | unended {line : List UInt8} (hline : newline ∉ line) (hne : line ≠ []) : IsLines line [line]
  /-- Bytes up to a newline are a line, but for one carriage return before it. -/
  | ended {line rest : List UInt8} {lines : List (List UInt8)} (hline : newline ∉ line)
      (hrest : IsLines rest lines) : IsLines (line ++ newline :: rest) (dropReturn line :: lines)

theorem beq_newline_of_notMem {line : List UInt8} (h : newline ∉ line) :
    ∀ b ∈ line, (b == newline) = false := by
  intro b hb
  rw [beq_eq_false_iff_ne]
  rintro rfl
  exact h hb

/-- The first newline ends the first line. -/
theorem splitLines_ended {line : List UInt8} (h : newline ∉ line) (rest : List UInt8) :
    splitLines (line ++ newline :: rest) = (line :: (splitLines rest).1, (splitLines rest).2) := by
  have hparts : pieces (· == newline) (line ++ newline :: rest) =
      line :: pieces (· == newline) rest :=
    pieces_append_cons (beq_newline_of_notMem h) (beq_self_eq_true newline) rest
  have hne : pieces (· == newline) rest ≠ [] := pieces_ne_nil _ rest
  simp only [splitLines, hparts, List.dropLast_cons_of_ne_nil hne, List.getLast_cons hne]

/-- Without a newline nothing is ended. -/
theorem splitLines_unended {line : List UInt8} (h : newline ∉ line) :
    splitLines line = ([], line) := by
  have hparts : pieces (· == newline) line = [line] :=
    pieces_eq_singleton (beq_newline_of_notMem h)
  simp only [splitLines, hparts, List.dropLast_singleton, List.getLast_singleton]

/-- The lines are what is ended by newlines, and then what is left. -/
theorem IsLines.eq_splitLines {bytes : List UInt8} {lines : List (List UInt8)}
    (h : IsLines bytes lines) :
    lines = (splitLines bytes).1.map dropReturn ++
      if (splitLines bytes).2.isEmpty then [] else [(splitLines bytes).2] := by
  induction h with
  | empty => rfl
  | unended hline hne => simp [splitLines_unended hline, hne]
  | @ended line rest lines hline _ ih =>
      rw [splitLines_ended hline, List.map_cons, List.cons_append]
      exact congrArg (dropReturn line :: ·) ih

/-- Bytes make up lines in one way only. -/
theorem IsLines.unique {bytes : List UInt8} {lines lines' : List (List UInt8)}
    (h : IsLines bytes lines) (h' : IsLines bytes lines') : lines = lines' :=
  h.eq_splitLines.trans h'.eq_splitLines.symm

/-- A reader of bytes hands over the lines that they make up. -/
theorem IsLines.lines_source {bytes : ByteArray} {lines : List (List UInt8)}
    (h : IsLines bytes.data.toList lines) :
    Source.lines ⟨bytes, none⟩ = lines.map decodeLine := by
  rcases hsplit : splitLines bytes.data.toList with ⟨ended, last⟩
  rw [h.eq_splitLines, hsplit, Source.lines]
  simp only [hsplit, List.map_append, List.map_map]
  cases last <;> rfl

/-- All bytes make up lines. -/
theorem exists_isLines (bytes : List UInt8) : ∃ lines, IsLines bytes lines := by
  induction bytes with
  | nil => exact ⟨[], .empty⟩
  | cons b bytes ih =>
      obtain ⟨lines, hlines⟩ := ih
      by_cases hb : b = newline
      · rw [hb]
        exact ⟨_, @IsLines.ended [] bytes lines List.not_mem_nil hlines⟩
      · have hfirst : ∀ {line : List UInt8}, newline ∉ line → newline ∉ b :: line := by
          intro line hline hmem
          rcases List.mem_cons.mp hmem with hsame | hrest
          · exact hb hsame.symm
          · exact hline hrest
        -- The byte goes in front of the first line.
        cases hlines with
        | empty => exact ⟨_, .unended (hfirst List.not_mem_nil) (List.cons_ne_nil b [])⟩
        | unended hline => exact ⟨_, .unended (hfirst hline) (List.cons_ne_nil b bytes)⟩
        | @ended line rest lines hline hrest =>
            exact ⟨_, @IsLines.ended (b :: line) rest lines (hfirst hline) hrest⟩

/-! ### Texts that stand on one line -/

/-- There is no newline in a text. -/
def OneLine (text : String) : Prop :=
  '\n' ∉ text.toList

instance (text : String) : Decidable (OneLine text) :=
  inferInstanceAs (Decidable ('\n' ∉ text.toList))

theorem oneLine_append {s t : String} : OneLine (s ++ t) ↔ OneLine s ∧ OneLine t := by
  simp [OneLine]

theorem oneLine_of_isSymbol {name : String} (h : isSymbol name.toList) : OneLine name := by
  intro hmem
  exact absurd (isSymbolChar_of_mem h _ hmem) (by decide)

theorem oneLine_toString (n : Nat) : OneLine (toString n) := by
  intro hmem
  have hdigit : '\n' ∈ Nat.toDigits 10 n := by simpa using hmem
  exact absurd (Nat.isDigit_of_mem_toDigits (by decide) (by decide) hdigit) (by decide)

/-- A newline of a text is a newline byte of its encoding. -/
theorem oneLine_of_newline_notMem {text : String} (h : newline ∉ text.toByteArray.data.toList) :
    OneLine text := by
  intro hmem
  obtain ⟨before, after, hsplit⟩ := List.append_of_mem hmem
  have hbytes : text.toByteArray =
      (text.toList.flatMap String.utf8EncodeChar).toByteArray := String.utf8Encode_toList.symm
  have hbyte : newline ∈ String.utf8EncodeChar '\n' := by decide
  apply h
  rw [hbytes, hsplit]
  simp only [List.flatMap_append, List.flatMap_cons, List.data_toByteArray, List.mem_append]
  exact .inr (.inl hbyte)

theorem oneLine_of_decodeLine {line : List UInt8} (hline : newline ∉ line) {text : String}
    (h : decodeLine line = .ok text) : OneLine text := by
  by_cases hvalid : ByteArray.IsValidUTF8 ⟨line.toArray⟩
  · have hdecoded : String.fromUTF8? ⟨line.toArray⟩ = some (String.fromUTF8 _ hvalid) :=
      dif_pos hvalid
    rw [decodeLine, hdecoded] at h
    obtain rfl := Except.ok.inj h
    apply oneLine_of_newline_notMem
    simpa [String.fromUTF8] using hline
  · have hdecoded : String.fromUTF8? ⟨line.toArray⟩ = none := dif_neg hvalid
    rw [decodeLine, hdecoded] at h
    cases h

theorem notMem_newline_of_mem_pieces {bytes line : List UInt8}
    (h : line ∈ pieces (· == newline) bytes) : newline ∉ line := by
  intro hmem
  simpa using not_of_mem_pieces h newline hmem

theorem mem_of_mem_dropReturn {line : List UInt8} {b : UInt8} (h : b ∈ dropReturn line) :
    b ∈ line := by
  rw [dropReturn] at h
  split at h
  · exact List.dropLast_subset line h
  · exact h

/-- What a reader hands over as a line stands on one line. -/
theorem oneLine_of_mem_lines {source : Source} {text : String} (h : .ok text ∈ source.lines) :
    OneLine text := by
  rcases List.mem_append.mp h with hended | hlast
  · obtain ⟨line, hline, hdecode⟩ := List.mem_map.mp hended
    have hpiece := notMem_newline_of_mem_pieces (List.dropLast_subset _ hline)
    exact oneLine_of_decodeLine (fun hmem => hpiece (mem_of_mem_dropReturn hmem)) hdecode
  · have hpiece := notMem_newline_of_mem_pieces (List.getLast_mem
      (pieces_ne_nil (· == newline) source.bytes.data.toList))
    split at hlast
    · simp at hlast
    · split at hlast
      · cases hlast
      · exact oneLine_of_decodeLine hpiece (List.mem_singleton.mp hlast).symm

/-- The lines of a text in which each line is ended by a newline. -/
def endedLines (text : String) : List String :=
  ((pieces (· == '\n') text.toList).dropLast).map String.ofList

/-- Lines without newlines in them are the lines of the text that has a newline after each. -/
theorem endedLines_join {lines : List String} (h : ∀ line ∈ lines, OneLine line) :
    endedLines (String.join (lines.map (· ++ "\n"))) = lines := by
  induction lines with
  | nil => rfl
  | cons line rest ih =>
      obtain ⟨hline, hrest⟩ := List.forall_mem_cons.mp h
      have hplain : ∀ c ∈ line.toList, (c == '\n') = false := by
        intro c hc
        rw [beq_eq_false_iff_ne]
        rintro rfl
        exact hline hc
      have hparts : pieces (· == '\n') (String.join ((line :: rest).map (· ++ "\n"))).toList =
          line.toList :: pieces (· == '\n') (String.join (rest.map (· ++ "\n"))).toList := by
        rw [← pieces_append_cons hplain (beq_self_eq_true '\n')]
        simp
      rw [endedLines, hparts, List.dropLast_cons_of_ne_nil (pieces_ne_nil _ _), List.map_cons,
        String.ofList_toList]
      exact congrArg (line :: ·) (ih hrest)

end HackBackend.Text
