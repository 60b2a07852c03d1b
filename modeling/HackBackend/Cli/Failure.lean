import HackBackend.Cli.FileTree
import HackBackend.Diagnostic

/-!
# Failed jobs

A report says what a job was about, and then what went wrong, if that is not clear already.
-/

namespace HackBackend.Cli

inductive Failure where
  | unreadableDirectory (path : String) (e : FileError)
  | emptyDirectory (path : String)
  | noFileName (path : String)
  | cannotOpen (path : String) (e : FileError)
  | cannotGenerate (path : String) (e : Error)
  | invalidAssembly (e : Error)
  | cannotCreate (path : String) (e : FileError)
deriving DecidableEq, Repr

namespace Failure

/-- What a job was about when it failed. -/
def context : Failure → String
  | unreadableDirectory path _ => s!"Error while reading directory: {path}"
  | emptyDirectory path => s!"No .vm files in {path}"
  | noFileName path => s!"No usable file name: {path}"
  | cannotOpen path _ => s!"File not found: {path}"
  | cannotGenerate path _ => s!"Error while translating {path}"
  | invalidAssembly _ => "Generated assembly is invalid"
  | cannotCreate path _ => s!"Cannot create {path}"

def cause? : Failure → Option String
  | unreadableDirectory _ e | cannotOpen _ e | cannotCreate _ e => some e.message
  | cannotGenerate _ e | invalidAssembly e => some e.message
  | emptyDirectory _ | noFileName _ => none

/-- A text with all its lines but the first moved to the right. -/
def indent (text : String) : String :=
  ("\n    ").intercalate ((Text.pieces (· == '\n') text.toList).map String.ofList)

def report (f : Failure) : String :=
  let cause := match f.cause? with
    | some text => "\n\nCaused by:\n    " ++ indent text
    | none => ""
  "Error: " ++ f.context ++ cause

end Failure

end HackBackend.Cli
