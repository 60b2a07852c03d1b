import HackBackend.Text.Blank
import HackBackend.Text.Pieces
import HackBackend.Vm.Command

/-!
# Reading command lines

Of a line only the code counts: what stands before the first `//`, without the blanks around
it. The code is one to three words, a keyword first. A blank that is not a separator spoils
the whole line, wherever it stands between the words.
-/

namespace HackBackend.Vm

/-- The part of a line that carries meaning. -/
def codeOf (raw : String) : List Char :=
  Text.trim (Text.uncommented raw.toList)

/-- The number in the third word of a command, if there is such a word. -/
def readNumber : List (List Char) → Except Cause (Option Nat)
  | [] => .ok none
  | word :: _ =>
      match Text.numeral? 0xffff word with
      | some n => .ok (some n)
      | none => .error (.expectedNumber (String.ofList word))

/-- The command that some words make up, at a given line. -/
def commandOfWords (line : SourceLine) : List (List Char) → Except Cause Command
  | [] => .error .malformedCommand
  | word :: args =>
      match Keyword.ofWord? word with
      | none => .error (.unknownCommand (String.ofList word))
      | some keyword =>
          match args.drop 2 with
          | [] => do
              let number ← readNumber (args.drop 1)
              .ok ⟨keyword, args.head?.map String.ofList, number, line⟩
          | extra =>
              .error (.extraParts keyword (" ".intercalate (extra.map String.ofList)))

/-- The command on a line of code that is not empty. -/
def commandOfCode (line : SourceLine) (code : List Char) : Except Cause Command :=
  if code.any fun c => Text.isBlank c && !Text.isSeparator c then .error .malformedCommand
  else commandOfWords line (Text.words Text.isSeparator code)

/-- Reads one line. A line without code holds no command. -/
def readLine (number : Nat) (raw : String) : Except Error (Option Command) :=
  match codeOf raw with
  | [] => .ok none
  | code =>
      let line := ⟨number, String.ofList code⟩
      match commandOfCode line code with
      | .ok command => .ok (some command)
      | .error cause => .error (.located cause line)

end HackBackend.Vm
