import HackBackend.Text.Pieces

/-!
# File paths

A path is the text that a user has typed, and it is shown as it was typed. Its last name has a
stem and perhaps an extension, which are parted at the last dot of the name unless that dot
comes first.
-/

namespace HackBackend.Cli

/-- The parts of a path between its slashes. -/
def pathParts (path : String) : List String :=
  (Text.pieces (· == '/') path.toList).map String.ofList

/-- A part that does not lead anywhere. -/
def isIdle (part : String) : Bool :=
  part = "" || part = "."

/-- The last name of a path, unless the path ends by going up. -/
def fileName? (path : String) : Option String :=
  match ((pathParts path).filter fun part => !isIdle part).getLast? with
  | some name => if name = ".." then none else some name
  | none => none

/-- The stem of a name, and its extension if it has one. -/
def splitName (name : String) : String × Option String :=
  let after := name.toList.reverse.takeWhile (· ≠ '.')
  match (name.toList.reverse.drop after.length).tail? with
  | none | some [] => (name, none)
  | some before => (String.ofList before.reverse, some (String.ofList after.reverse))

def extension? (name : String) : Option String :=
  (splitName name).2

/-- The stem of the last name of a path. -/
def fileStem? (path : String) : Option String :=
  (fileName? path).map fun name => (splitName name).1

/-- A name with another extension. The old one is cut off first, up to its dot; if that leaves
two dots, which are no name, no extension is added to them. -/
def renameExtension (name ext : String) : String :=
  let (stem, old) := splitName name
  if old.isSome && stem = "." then ".." else stem ++ "." ++ ext

/-- A path with another extension of its last name. What follows that name is dropped. -/
def withExtension (path ext : String) : String :=
  match (pathParts path).reverse.dropWhile isIdle with
  | [] => path
  | name :: before =>
      if name = ".." then path
      else "/".intercalate (renameExtension name ext :: before).reverse

/-- A name within a directory. -/
def joinPath (directory name : String) : String :=
  if directory.toList.getLast? = some '/' then directory ++ name else directory ++ "/" ++ name

end HackBackend.Cli
