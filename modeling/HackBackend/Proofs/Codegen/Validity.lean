import HackBackend.Proofs.Asm.Rejection
import HackBackend.Proofs.Codegen.Histories

/-!
# Generated text is assembly

Every line that a generator writes can be read, whatever it has been asked and whatever texts it
has echoed as comments, as long as nothing but a symbol was begun as a unit, or a unit without a
name. A line is a label exactly if it opens with a bracket. So the assembler finds fault with the
text as a whole only: with a label that is defined twice, or with its length.
-/

namespace HackBackend.Codegen

open Asm Vm StackMachine Text

/-- Whatever stands in the first of two related lists is related to something in the second. -/
theorem exists_mem_of_forall₂ {α β : Type} {r : α → β → Prop} {xs : List α} {ys : List β}
    (h : List.Forall₂ r xs ys) {x : α} (hx : x ∈ xs) : ∃ y ∈ ys, r x y := by
  induction h with
  | nil => cases hx
  | cons hhead _ ih =>
      rcases List.mem_cons.mp hx with rfl | hrest
      · exact ⟨_, List.mem_cons_self .., hhead⟩
      · obtain ⟨y, hy, hxy⟩ := ih hrest
        exact ⟨y, List.mem_cons_of_mem _ hy, hxy⟩

/-- A line that is read as what it is is read so from any text that spells it, and the text opens
with a bracket if it is a label. -/
theorem readLine_of_spells {raw : String} {line : Line} (h : Spells raw line)
    (hreadable : line.Readable) (number : Nat) :
    Asm.readLine number raw = .ok (some line) ∧
      ((∃ name, line = .label name) ↔ raw.toList.head? = some '(') := by
  constructor
  · exact readLine_eq_ok_some_iff.mpr (lineOf?_of_spells h hreadable)
  · have hbracket := isLabelText_of_spells h
    cases line with
    | instruction i =>
        have hopen : raw.toList.head? ≠ some '(' := by
          simpa [isLabelText, Line.isInstruction] using hbracket
        simp [hopen]
    | label name =>
        have hopen : raw.toList.head? = some '(' := by
          simpa [isLabelText, Line.isInstruction] using hbracket
        simp [hopen]

/-- The spelling of a line that can be read has no comment in it. -/
theorem no_comment_in_text {line : Line} (h : line.Readable) :
    ¬ ['/', '/'] <:+: line.text.toList := by
  intro hcomment
  have hslash : '/' ∈ line.text.toList := hcomment.subset (List.mem_cons_self ..)
  exact slash_notMem_text h hslash

namespace Generator

/-- Whatever a generator is asked, each line of the finished text can be read, and is a label
exactly if it opens with a bracket. Without comments there is no `//` in it. The text is rejected
only for a label that is defined twice, or because it is too long. -/
theorem finish_is_assembly (options : Options) (requests : List Request)
    (hunits : ∀ name, .beginUnit name ∈ requests → name = "" ∨ isSymbol name.toList) :
    (∀ number, ∀ raw ∈ ((new options).after requests).finish,
        ∃ line, Asm.readLine number raw = .ok (some line) ∧
          ((∃ name, line = .label name) ↔ raw.toList.head? = some '(')) ∧
      (options.comments = false →
        ∀ raw ∈ ((new options).after requests).finish, ¬ ['/', '/'] <:+: raw.toList) ∧
      ∀ e, assemble ((new options).after requests).finish = .error e →
        ∃ line, e = .located .romFull line ∨ ∃ name, e = .located (.duplicateLabel name) line := by
  obtain ⟨chunks, hlowered, hspells, hbare⟩ := spells_history options requests
  have hnamed := named_of_mem_codeOfRequests (named_new options) hunits
  have hreadable : ∀ line ∈ runCode options chunks, line.Readable :=
    readable_run (fun c hc => (hnamed c hc).1) (fun c hc => (hnamed c hc).2) hlowered
  refine ⟨?_, ?_, ?_⟩
  · intro number raw hraw
    obtain ⟨line, hline, hspelled⟩ := exists_mem_of_forall₂ hspells hraw
    exact ⟨line, readLine_of_spells hspelled (hreadable line hline) number⟩
  · intro hcomments raw hraw
    rw [hbare hcomments] at hraw
    obtain ⟨line, hline, rfl⟩ := List.mem_map.mp hraw
    exact no_comment_in_text (hreadable line hline)
  · intro e herror
    obtain ⟨-, hread⟩ := linesOf_of_spells hspells hreadable
    obtain ⟨cause, line, rfl, rfl | ⟨name, rfl⟩⟩ := cause_of_assemble_error hread herror
    · exact ⟨line, .inl rfl⟩
    · exact ⟨line, .inr ⟨name, rfl⟩⟩

/-- Requests to a unit without a name. The texts of the commands have brackets and comments in them,
and the last two commands are refused. -/
def echoes : List Request :=
  [.beginUnit "", .command ⟨.label, some "L", none, ⟨1, "(// label L"⟩⟩,
    .command ⟨.push, some "static", some 3, ⟨2, "(static) // 3"⟩⟩,
    .command ⟨.pop, some "constant", some 0, ⟨3, "(refused)"⟩⟩,
    .command ⟨.label, some "1", none, ⟨4, "@32768"⟩⟩]

/-- The texts are echoed behind lines that are read as what they are. -/
theorem finish_is_assembly_echoes :
    ((new {}).after echoes).finish =
        ["($L) //(// label L", "@.3 //(static) // 3", "D=M", "@SP", "A=M", "M=D", "@SP", "M=M+1",
          "($HALT) //end of program", "@$HALT", "0;JMP"] ∧
      (∀ number, ∀ raw ∈ ((new {}).after echoes).finish,
        ∃ line, Asm.readLine number raw = .ok (some line) ∧
          ((∃ name, line = .label name) ↔ raw.toList.head? = some '(')) ∧
      ∀ raw ∈ ((new { comments := false }).after echoes).finish, ¬ ['/', '/'] <:+: raw.toList := by
  have hunits : ∀ name, .beginUnit name ∈ echoes → name = "" ∨ isSymbol name.toList := by
    intro name hname
    simp only [echoes, List.mem_cons, Request.beginUnit.injEq, reduceCtorEq, List.not_mem_nil,
      or_false] at hname
    exact .inl hname
  obtain ⟨hlines, -, -⟩ := finish_is_assembly {} echoes hunits
  obtain ⟨-, hcomments, -⟩ := finish_is_assembly { comments := false } echoes hunits
  refine ⟨?_, hlines, hcomments rfl⟩
  decide +kernel

end Generator

end HackBackend.Codegen
