import HackBackend.Asm.Line
import HackBackend.Codegen.Listing

/-!
# Batches of code

Code is generated as lines of assembly and only spelled out when it is added to a listing.
Spelled out, a line is counted as an instruction exactly if it is one.
-/

namespace HackBackend.Codegen

open Asm

/-- No computation is spelled with a bracket. -/
theorem head?_compText (c : Comp) :
    c.text.toList.head?.all (· ≠ '(') ∧ c.text.toList ≠ [] := by
  have spelled : ∀ c ∈ Comp.all,
      c.text.toList.head?.all (· ≠ '(') ∧ c.text.toList ≠ [] := by decide +kernel
  exact spelled c (Comp.mem_all c)

/-- A label is the only line whose text opens with a bracket. -/
theorem isLabelText_text (line : Line) : isLabelText line.text = !line.isInstruction := by
  rcases line with i | name
  · rcases i with address | ⟨dest, comp, jump⟩
    · simp [Line.text, Instruction.text, isLabelText, Line.isInstruction]
    · obtain ⟨hc, hne⟩ := head?_compText comp
      simp only [Line.text, Instruction.text, isLabelText, Line.isInstruction,
        String.toList_append, List.append_assoc, List.head?_append]
      obtain ⟨a, d, m⟩ := dest
      cases h : comp.text.toList with
      | nil => exact absurd h hne
      | cons c cs =>
          have hne : c ≠ '(' := by simpa [h] using hc
          cases a <;> cases d <;> cases m <;> simp [Dest.letters, Dest.nowhere, hne]
  · simp [Line.text, isLabelText, Line.isInstruction]

/-- Lines that are written together, and the comment on the first of them. -/
structure Batch where
  comment : Option String := none
  code : List Line

/-- The lines of some batches, without the comments. -/
def codeOf (batches : List Batch) : List Line :=
  batches.flatMap Batch.code

theorem codeOf_append (xs ys : List Batch) : codeOf (xs ++ ys) = codeOf xs ++ codeOf ys :=
  List.flatMap_append

namespace Listing

/-- Adds a batch with its comment, if it has one. -/
def add (listing : Listing) (batch : Batch) : Listing :=
  let commented := match batch.comment with
    | some text => listing.stage text
    | none => listing
  commented.write (batch.code.map Line.text)

def addAll (listing : Listing) (batches : List Batch) : Listing :=
  batches.foldl add listing

/-- The listing counts exactly the instructions of a batch. -/
theorem instructions_add (listing : Listing) (batch : Batch) :
    (listing.add batch).instructions =
      listing.instructions + batch.code.countP Line.isInstruction := by
  have spelled : (batch.code.map Line.text).countP (fun line => !isLabelText line) =
      batch.code.countP Line.isInstruction := by
    simp [List.countP_map, Function.comp_def, isLabelText_text]
  unfold add
  cases batch.comment <;> simp [instructions_write, spelled]

@[simp] theorem addAll_nil (listing : Listing) : listing.addAll [] = listing := rfl

@[simp] theorem addAll_cons (listing : Listing) (batch : Batch) (rest : List Batch) :
    listing.addAll (batch :: rest) = (listing.add batch).addAll rest := rfl

theorem instructions_addAll (listing : Listing) (batches : List Batch) :
    (listing.addAll batches).instructions =
      listing.instructions + (codeOf batches).countP Line.isInstruction := by
  induction batches generalizing listing with
  | nil => simp [codeOf]
  | cons batch rest ih =>
      rw [addAll_cons, ih, instructions_add, codeOf, codeOf, List.flatMap_cons,
        List.countP_append]
      omega

end Listing

end HackBackend.Codegen
