/-!
# Listings

A listing is assembly text under construction. Lines are added in batches; a comment that has
been staged goes onto the first line of the next batch. The listing counts the instructions
among its lines, which is the address that the next instruction will have.
-/

namespace HackBackend.Codegen

structure Listing where
  /-- Whether comments are kept at all. -/
  comments : Bool
  lines : Array String := #[]
  /-- The comment that waits for the next batch. -/
  staged : Option String := none
  /-- The number of instructions among the lines. -/
  instructions : Nat := 0

/-- A line that opens with a bracket is a label, and every other line an instruction. -/
def isLabelText (line : String) : Bool :=
  line.toList.head? = some '('

/-- Some lines with a comment at the end of the first one. -/
def annotate (comment : Option String) : List String → List String
  | [] => []
  | line :: rest =>
      match comment with
      | some text => (line ++ " //" ++ text) :: rest
      | none => line :: rest

@[simp] theorem length_annotate (comment : Option String) (lines : List String) :
    (annotate comment lines).length = lines.length := by
  cases lines <;> cases comment <;> rfl

@[simp] theorem annotate_none (lines : List String) : annotate none lines = lines := by
  cases lines <;> rfl

/-- A comment at the end of a line does not make it a label, nor stop it from being one. -/
theorem isLabelText_comment (line text : String) :
    isLabelText (line ++ " //" ++ text) = isLabelText line := by
  unfold isLabelText
  rw [String.toList_append, String.toList_append, List.append_assoc, List.head?_append]
  cases line.toList with
  | nil => simp
  | cons c cs => rfl

theorem countP_annotate (comment : Option String) (lines : List String) :
    (annotate comment lines).countP (fun line => !isLabelText line) =
      lines.countP fun line => !isLabelText line := by
  cases lines with
  | nil => rfl
  | cons line rest =>
      cases comment with
      | none => rfl
      | some text => simp only [annotate, List.countP_cons, isLabelText_comment]

namespace Listing

/-- Adds a batch of lines. -/
def write (listing : Listing) (batch : List String) : Listing :=
  let added := annotate listing.staged batch
  { listing with
    lines := listing.lines ++ added
    staged := none
    instructions := listing.instructions + added.countP fun line => !isLabelText line }

/-- Stages a comment in place of any that is still waiting. -/
def stage (listing : Listing) (text : String) : Listing :=
  if listing.comments then { listing with staged := some text } else listing

@[simp] theorem toList_lines_write (listing : Listing) (batch : List String) :
    (listing.write batch).lines.toList =
      listing.lines.toList ++ annotate listing.staged batch := by
  simp [write]

theorem instructions_write (listing : Listing) (batch : List String) :
    (listing.write batch).instructions =
      listing.instructions + batch.countP fun line => !isLabelText line := by
  simp [write, countP_annotate]

@[simp] theorem staged_write (listing : Listing) (batch : List String) :
    (listing.write batch).staged = none := rfl

@[simp] theorem comments_write (listing : Listing) (batch : List String) :
    (listing.write batch).comments = listing.comments := rfl

@[simp] theorem lines_stage (listing : Listing) (text : String) :
    (listing.stage text).lines = listing.lines := by
  unfold stage
  split <;> rfl

@[simp] theorem instructions_stage (listing : Listing) (text : String) :
    (listing.stage text).instructions = listing.instructions := by
  unfold stage
  split <;> rfl

@[simp] theorem comments_stage (listing : Listing) (text : String) :
    (listing.stage text).comments = listing.comments := by
  unfold stage
  split <;> rfl

end Listing

end HackBackend.Codegen
