import HackBackend.Cli.Arguments
import HackBackend.Cli.Failure
import HackBackend.Codegen.Generator

/-!
# Jobs

A job reads its inputs, generates code for all of them in one run, and writes the code to one
file. Each input file is a unit named by its stem; a directory stands for the `.vm` files in
it, in the order of their names. Nothing is written before everything else has succeeded.

## Implementation notes

What a job has to know about files it asks a `Disk`, in whatever monad that answers. The
program runs a job on the real file system; on a file tree the same job is a pure function.
-/

namespace HackBackend.Cli

open Codegen

/-- The questions about files that a job asks, answered in some monad. -/
structure Disk (m : Type → Type) where
  isDirectory : String → m Bool
  names : String → m (Except FileError (List String))
  read : String → m (Except FileError Text.Source)

/-- The file that a job writes. -/
structure Output where
  path : String
  lines : List String
deriving DecidableEq, Repr

/-- Each line of the file is ended by a newline. -/
def Output.content (output : Output) : ByteArray :=
  (String.join (output.lines.map (· ++ "\n"))).toUTF8

/-- The extension of the files that a directory stands for. -/
def sourceExtension : String := "vm"

def outputExtension : String := "asm"

section

variable {m : Type → Type} [Monad m]

/-- The paths of the files that an input stands for. -/
def expandInput (disk : Disk m) (input : String) : ExceptT Failure m (List String) := do
  if ← disk.isDirectory input then
    match ← disk.names input with
    | .error e => throw (.unreadableDirectory input e)
    | .ok names =>
        let found := names.filter fun name => extension? name = some sourceExtension
        if found.isEmpty then throw (.emptyDirectory input)
        else return (found.mergeSort fun a b => decide (a ≤ b)).map (joinPath input)
  else return [input]

/-- The paths of all files that some inputs stand for, in order. -/
def expandInputs (disk : Disk m) : List String → ExceptT Failure m (List String)
  | [] => return []
  | input :: rest => do
      let paths ← expandInput disk input
      let more ← expandInputs disk rest
      return paths ++ more

def unitName (path : String) : Except Failure String :=
  match fileStem? path with
  | some stem => .ok stem
  | none => .error (.noFileName path)

/-- Takes some files as units, up to the first failure. -/
def generateFiles (disk : Disk m) (g : Generator) : List String → ExceptT Failure m Generator
  | [] => return g
  | path :: rest => do
      match ← disk.read path with
      | .error e => throw (.cannotOpen path e)
      | .ok source =>
          let name ← unitName path
          match g.takeUnit name source with
          | (.error e, _) => throw (.cannotGenerate path e)
          | (.ok (), g) => generateFiles disk g rest

/-- The path of the output, if none is given: next to a file, and within a directory. -/
def defaultOutput (disk : Disk m) (input : String) : ExceptT Failure m String := do
  if ← disk.isDirectory input then
    let name ← unitName input
    return joinPath input (name ++ "." ++ outputExtension)
  else return withExtension input outputExtension

/-- The output that a job is to write. -/
def produce (disk : Disk m) (args : Arguments) : ExceptT Failure m Output := do
  let paths ← expandInputs disk args.inputs
  let g ← generateFiles disk (.new args.options) paths
  let lines := g.finish
  if args.verify then
    match Asm.assemble lines with
    | .error e => throw (.invalidAssembly e)
    | .ok _ => pure ()
  let path ← match args.output with
    | some path => pure path
    | none => defaultOutput disk (args.inputs.headD "")
  return ⟨path, lines⟩

/-- What a command line leads to, short of writing the output. -/
inductive Reply where
  | usage (e : UsageError)
  | print (text : String)
  | failed (f : Failure)
  | write (output : Output)
deriving DecidableEq, Repr

/-- The reply to a command line. -/
def reply (disk : Disk m) (args : List String) : m Reply :=
  match Arguments.parse args with
  | .error e => return .usage e
  | .ok .version => return .print versionText
  | .ok .help => return .print helpText
  | .ok (.run args) => do
      match ← (produce disk args).run with
      | .error f => return .failed f
      | .ok output => return .write output

end

/-- The status of a program that has been called in a wrong way. -/
def usageStatus : UInt32 := 2

/-- The status of a program that has failed. -/
def failureStatus : UInt32 := 1

end HackBackend.Cli
