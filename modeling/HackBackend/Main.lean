import HackBackend.Cli.Job

/-!
# The program

Answers the questions of a job from the real file system and carries out its reply.
-/

namespace HackBackend.Main

open Cli

/-- The reason for which the system refused a request. -/
def fileError : IO.Error → FileError
  | .noFileOrDirectory .. => .noSuchFile
  | .inappropriateType _ code message => numbered code message
  | .invalidArgument _ code message => numbered code message
  | e => .other (toString e)
where
  numbered (code : UInt32) (message : String) : FileError :=
    if code = 20 then .notADirectory
    else if code = 21 then .isADirectory
    else if code = 36 then .nameTooLong
    else .other message

def attempt {α : Type} (action : IO α) : IO (Except FileError α) := do
  match ← action.toBaseIO with
  | .ok value => return .ok value
  | .error e => return .error (fileError e)

def isDirectory (path : String) : IO Bool :=
  (System.mkFilePath [path]).isDir

def names (path : String) : IO (Except FileError (List String)) :=
  attempt do
    let found ← (System.mkFilePath [path]).readDir
    return (found.map fun entry => entry.fileName).toList

/-- A file that cannot be opened is refused; one that cannot be read is a source that fails. -/
def read (path : String) : IO (Except FileError Text.Source) := do
  match ← attempt (IO.FS.Handle.mk path .read) with
  | .error e => return .error e
  | .ok handle =>
      match ← attempt handle.readBinToEnd with
      | .ok content => return .ok ⟨content, none⟩
      | .error e => return .ok ⟨ByteArray.empty, some e.message⟩

def disk : Disk IO where
  isDirectory := isDirectory
  names := names
  read := read

def fail (f : Failure) : IO UInt32 := do
  IO.eprintln f.report
  return failureStatus

def run (args : List String) : IO UInt32 := do
  match ← reply disk args with
  | .usage e =>
      IO.eprintln ("error: " ++ e.message)
      return usageStatus
  | .print text =>
      IO.print text
      return 0
  | .failed f => fail f
  | .write output =>
      match ← attempt (IO.FS.writeBinFile output.path output.content) with
      | .error e => fail (.cannotCreate output.path e)
      | .ok () => return 0

end HackBackend.Main

def main (args : List String) : IO UInt32 :=
  HackBackend.Main.run args
