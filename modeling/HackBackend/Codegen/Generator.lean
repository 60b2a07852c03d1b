import HackBackend.Asm.Program
import HackBackend.Codegen.Listing
import HackBackend.Codegen.Sequence
import HackBackend.Vm.Stream

/-!
# Generating code

A generator turns commands into a listing, one after another and unit after unit. One
generator serves one run, so that the labels it makes up stay different from each other over
all units. A command that is refused adds no line; its error does not end the run, but the
rest of its unit is left out when the unit is read as a whole.
-/

namespace HackBackend.Codegen

open Vm

structure Generator where
  options : Options
  listing : Listing
  site : Site := {}

namespace Generator

/-- A generator before its first unit. -/
def new (options : Options) : Generator where
  options := options
  listing :=
    let empty : Listing := { comments := options.comments }
    if options.bootstrap then empty.add bootstrapBatch else empty

/-- Goes on to a unit, in which no function has been opened yet. -/
def beginUnit (g : Generator) (name : String) : Generator :=
  { g with site := { g.site with unit := name, function := none } }

/-- Adds the code of an operation of a command. -/
def emit (g : Generator) (op : Operation) (batches : List Batch) : Generator :=
  { g with listing := g.listing.addAll batches, site := g.site.after g.options op }

/-- Takes one command. Its text is staged as a comment as soon as its arguments fit. -/
def takeCommand (g : Generator) (c : Command) : Except Error Unit × Generator :=
  match c.operation with
  | .error cause => (.error (c.fail cause), g)
  | .ok op =>
      let g := { g with listing := g.listing.stage c.source.text }
      match lower g.options g.listing.instructions g.site op with
      | .error cause => (.error (c.fail cause), g)
      | .ok batches => (.ok (), g.emit op batches)

/-- Takes the commands on some lines, up to the first error. -/
def takeLines (g : Generator) (number : Nat) :
    List (Except Text.ReadFault String) → Except Error Unit × Generator
  | [] => (.ok (), g)
  | item :: rest =>
      match Stream.readItem (number + 1) item with
      | .error e => (.error e, g)
      | .ok none => takeLines g (number + 1) rest
      | .ok (some c) =>
          match g.takeCommand c with
          | (.error e, g) => (.error e, g)
          | (.ok (), g) => takeLines g (number + 1) rest

/-- Takes a whole unit, up to its first error. -/
def takeUnit (g : Generator) (name : String) (source : Text.Source) :
    Except Error Unit × Generator :=
  (g.beginUnit name).takeLines 0 source.lines

/-- Takes units, up to the first error. -/
def takeUnits (g : Generator) : List (String × Text.Source) → Except Error Unit × Generator
  | [] => (.ok (), g)
  | (name, source) :: rest =>
      match g.takeUnit name source with
      | (.error e, g) => (.error e, g)
      | (.ok (), g) => g.takeUnits rest

/-- The finished assembly text, which ends in the halt loop. -/
def finish (g : Generator) : List String :=
  (g.listing.add haltBatch).lines.toList

end Generator

/-- The assembly text of some units. -/
def generate (options : Options) (units : List (String × Text.Source)) :
    Except Error (List String) :=
  match (Generator.new options).takeUnits units with
  | (.error e, _) => .error e
  | (.ok (), g) => .ok g.finish

/-- The program of some units. -/
def build (options : Options) (units : List (String × Text.Source)) :
    Except Error Asm.Program := do
  let text ← generate options units
  Asm.assemble text

end HackBackend.Codegen
