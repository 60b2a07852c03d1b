import HackBackend.Cli.Job

/-!
# Runs on a file tree

A command line as a function of the files that it finds. Only a job that has succeeded
changes the tree, and it changes one file of it.
-/

namespace HackBackend.Cli

/-- The answers of a file tree. -/
def FileTree.disk (tree : FileTree) : Disk Id where
  isDirectory := tree.isDirectory
  names := tree.names
  read := tree.read

/-- What can be seen of a run from outside. -/
structure Outcome where
  status : UInt32 := 0
  stdout : String := ""
  /-- The report of a failed job. -/
  report : Option String := none
  tree : FileTree

/-- The outcome of a run that failed and left a tree as it was. -/
def Outcome.failed (tree : FileTree) (f : Failure) : Outcome :=
  { status := failureStatus, report := some f.report, tree := tree }

/-- The outcome of a command line on a file tree. -/
def outcome (tree : FileTree) (args : List String) : Outcome :=
  match Id.run (reply tree.disk args) with
  | .usage _ => { status := usageStatus, tree := tree }
  | .print text => { stdout := text, tree := tree }
  | .failed f => .failed tree f
  | .write output =>
      match tree.create output.path output.content with
      | .error e => .failed tree (.cannotCreate output.path e)
      | .ok changed => { tree := changed }

end HackBackend.Cli
