import HackBackend.Text.Pieces

/-!
# Physical lines

A line is ended by a newline byte, and one carriage return right before that newline belongs
to the end of the line. What follows the last newline is a line of its own only if it is not
empty, and it keeps a carriage return at its end.

A line that a reader hands over is either text or a fault: bytes that are not UTF-8, or a
failure of the input itself. A failure takes the place of the unended last line.
-/

namespace HackBackend.Text

/-- What stands to be read: some bytes, after which the input ends or fails. -/
structure Source where
  bytes : ByteArray
  failure : Option String := none

inductive ReadFault where
  | invalidUtf8
  | failed (message : String)
deriving DecidableEq, Repr

def newline : UInt8 := 10
def carriageReturn : UInt8 := 13

/-- The lines of a text that are ended by a newline, and what follows the last of them. -/
def splitLines (bytes : List UInt8) : List (List UInt8) × List UInt8 :=
  let parts := pieces (· == newline) bytes
  (parts.dropLast, parts.getLast (pieces_ne_nil _ bytes))

/-- An ended line without the carriage return that belongs to its end. -/
def dropReturn (line : List UInt8) : List UInt8 :=
  if line.getLast? = some carriageReturn then line.dropLast else line

def decodeLine (line : List UInt8) : Except ReadFault String :=
  match String.fromUTF8? ⟨line.toArray⟩ with
  | some text => .ok text
  | none => .error .invalidUtf8

/-- What a reader hands over, line by line. -/
def Source.lines (source : Source) : List (Except ReadFault String) :=
  let (ended, rest) := splitLines source.bytes.data.toList
  let last := match source.failure with
    | some message => [.error (.failed message)]
    | none => if rest.isEmpty then [] else [decodeLine rest]
  ended.map (decodeLine ∘ dropReturn) ++ last

/-- A source that holds one text and then ends. -/
def Source.ofString (text : String) : Source :=
  ⟨text.toUTF8, none⟩

end HackBackend.Text
