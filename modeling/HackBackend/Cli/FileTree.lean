import HackBackend.Cli.Path
import HackBackend.Text.Lines

/-!
# File trees

The files and directories that a run can see, each at its location. A location is a list of
names, starting from the working directory; it goes up with `..` and starts at the root of the
file system with `/`. What lies outside the working directory is not known, and is taken to
be empty.

A path is followed name by name, and every name but the last must be that of a directory. A name
and a path may be of some length only, which is counted in bytes.
-/

namespace HackBackend.Cli

/-- Why the file system refuses a request. -/
inductive FileError where
  | noSuchFile
  | notADirectory
  | isADirectory
  | nameTooLong
  | other (message : String)
deriving DecidableEq, Repr

def FileError.message : FileError → String
  | noSuchFile => "No such file or directory (os error 2)"
  | notADirectory => "Not a directory (os error 20)"
  | isADirectory => "Is a directory (os error 21)"
  | nameTooLong => "File name too long (os error 36)"
  | other message => message

/-- The largest number of bytes in a name. -/
def nameLimit : Nat := 255

/-- The largest number of bytes in a path. -/
def pathLimit : Nat := 4095

abbrev Location := List String

inductive Entry where
  | directory
  | file (content : ByteArray)

/-- A directory can be opened, and then fails to be read. -/
def Entry.source : Entry → Text.Source
  | directory => ⟨ByteArray.empty, some FileError.isADirectory.message⟩
  | file content => ⟨content, none⟩

structure FileTree where
  entries : List (Location × Entry) := []

namespace Location

def root : Location := ["/"]

/-- A directory that is there whatever the tree holds. -/
def isOutside (l : Location) : Bool :=
  l = root || l.all (· = "..")

def parent (l : Location) : Location :=
  if l = root then root
  else if l.all (· = "..") then l ++ [".."]
  else l.dropLast

end Location

namespace FileTree

def lookup? (tree : FileTree) (l : Location) : Option Entry :=
  if Location.isOutside l then some .directory else tree.entries.lookup l

/-- Puts an entry at a location, in place of any other one there. -/
def put (tree : FileTree) (l : Location) (entry : Entry) : FileTree :=
  ⟨(l, entry) :: tree.entries.filter fun e => e.1 ≠ l⟩

/-- Goes from a location along one part of a path. -/
def follow (tree : FileTree) (l : Location) (part : String) : Except FileError Location :=
  match tree.lookup? l with
  | none => .error .noSuchFile
  | some (.file _) => .error .notADirectory
  | some .directory =>
      if isIdle part then .ok l
      else if part = ".." then .ok (Location.parent l)
      else if nameLimit < part.utf8ByteSize then .error .nameTooLong
      else .ok (l ++ [part])

/-- Goes from a location along the parts of a path. -/
def walk (tree : FileTree) (l : Location) : List String → Except FileError Location
  | [] => .ok l
  | part :: rest =>
      match tree.follow l part with
      | .error e => .error e
      | .ok l => tree.walk l rest

/-- The location that a path starts from, and the parts to be followed from there. -/
def startOf (path : String) : Except FileError (Location × List String) :=
  if pathLimit < path.utf8ByteSize then .error .nameTooLong
  else
    match pathParts path with
    | "" :: rest => .ok (Location.root, rest)
    | parts => .ok ([], parts)

/-- The location that a path leads to, where there may be nothing. -/
def locate (tree : FileTree) (path : String) : Except FileError Location :=
  match startOf path with
  | .error e => .error e
  | .ok (start, parts) => tree.walk start parts

/-- The entry that a path leads to. -/
def find (tree : FileTree) (path : String) : Except FileError Entry :=
  match tree.locate path with
  | .error e => .error e
  | .ok l =>
      match tree.lookup? l with
      | some entry => .ok entry
      | none => .error .noSuchFile

def isDirectory (tree : FileTree) (path : String) : Bool :=
  match tree.find path with
  | .ok .directory => true
  | _ => false

/-- The names in a directory. -/
def names (tree : FileTree) (path : String) : Except FileError (List String) :=
  match tree.locate path with
  | .error e => .error e
  | .ok l => .ok <| tree.entries.filterMap fun e =>
      if e.1.dropLast = l then e.1.getLast? else none

def read (tree : FileTree) (path : String) : Except FileError Text.Source :=
  (tree.find path).map Entry.source

/-- Creates a file or replaces its content. The path must not lead to a directory, and it is
taken to do so if it ends with a slash. -/
def create (tree : FileTree) (path : String) (content : ByteArray) :
    Except FileError FileTree :=
  match startOf path with
  | .error e => .error e
  | .ok (start, parts) =>
      let named := parts.reverse.dropWhile (· = "")
      match tree.walk start named.tail.reverse with
      | .error e => .error e
      | .ok l =>
          let last := if parts.getLast? = some "" then "" else named.headD ""
          match tree.follow l last with
          | .error e => .error e
          | .ok place =>
              match tree.lookup? place with
              | some .directory => .error .isADirectory
              | _ => .ok (tree.put place (.file content))

/-- Makes a directory at a location, and the ones that it lies in. -/
def makeDirectories (tree : FileTree) (l : Location) : FileTree :=
  ((List.range (l.length + 1)).map l.take).foldl
    (fun tree l => if (tree.lookup? l).isNone then tree.put l .directory else tree) tree

/-- Adds a file at a location, and the directories that it lies in. -/
def addFile (tree : FileTree) (l : Location) (content : ByteArray) : FileTree :=
  (tree.makeDirectories l.dropLast).put l (.file content)

end FileTree

end HackBackend.Cli
