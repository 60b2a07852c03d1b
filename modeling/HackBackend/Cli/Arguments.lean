import HackBackend.Codegen.Options
import HackBackend.Text.Pieces

/-!
# Command line arguments

An argument is a cluster of short options, a long option, or an operand. After `--` every
argument is an operand, and so is a single hyphen. The value of the output option is attached
to it, or else is the next argument, which may not look like an option. Asking for the version
or for help ends the reading at once.
-/

namespace HackBackend.Cli

/-- What a run is asked to do. -/
structure Arguments where
  inputs : List String := []
  output : Option String := none
  bootstrap : Bool := false
  symbolicCompare : Bool := false
  nonzeroIfGoto : Bool := false
  noComments : Bool := false
  verify : Bool := false
  verbosity : Nat := 0
deriving DecidableEq, Repr

inductive Request where
  | run (args : Arguments)
  | version
  | help
deriving DecidableEq, Repr

inductive UsageError where
  | unknownOption (text : String)
  | unexpectedValue (text : String)
  | missingValue
  | emptyValue
  | repeated (name : String)
  | missingInputs
deriving DecidableEq, Repr

inductive Flag where
  | bootstrap | symbolicCompare | nonzeroIfGoto | noComments | verify | verbose | version | help
deriving DecidableEq, Repr

/-- The parts that an argument consists of. -/
inductive Item where
  | flag (f : Flag)
  | output (value : Option String)
  | operand (text : String)
  | invalid (e : UsageError)
deriving DecidableEq, Repr

namespace Flag

def longName : Flag → String
  | bootstrap => "bootstrap"
  | symbolicCompare => "symbolic-compare"
  | nonzeroIfGoto => "nonzero-if-goto"
  | noComments => "no-comments"
  | verify => "verify"
  | verbose => "verbose"
  | version => "version"
  | help => "help"

def all : List Flag :=
  [bootstrap, symbolicCompare, nonzeroIfGoto, noComments, verify, verbose, version, help]

def ofLongName? (name : String) : Option Flag :=
  all.find? fun f => f.longName = name

end Flag

namespace Item

/-- The items of a cluster of short options, without its hyphen. -/
def ofShort : List Char → List Item
  | [] => []
  | 'v' :: cs => .flag .verbose :: ofShort cs
  | 'V' :: cs => .flag .version :: ofShort cs
  | 'h' :: cs => .flag .help :: ofShort cs
  | ['o'] => [.output none]
  | 'o' :: '=' :: value => [.output (some (String.ofList value))]
  | 'o' :: value => [.output (some (String.ofList value))]
  | c :: _ => [.invalid (.unknownOption (String.ofList ['-', c]))]

/-- The item of a long option, without its hyphens. -/
def ofLong (cs : List Char) : Item :=
  let name := String.ofList (cs.takeWhile (· ≠ '='))
  let value := (cs.dropWhile (· ≠ '=')).tail?.map String.ofList
  if name = "output" then .output value
  else
    match Flag.ofLongName? name, value with
    | some f, none => .flag f
    | some _, some value => .invalid (.unexpectedValue value)
    | none, _ => .invalid (.unknownOption ("--" ++ name))

def ofArgument (arg : String) : List Item :=
  match arg.toList with
  | '-' :: '-' :: cs => [ofLong cs]
  | '-' :: c :: cs => ofShort (c :: cs)
  | _ => [.operand arg]

end Item

/-- Whether an argument would be read as an option. -/
def looksLikeOption (arg : String) : Bool :=
  match arg.toList with
  | '-' :: _ :: _ => true
  | _ => false

namespace Arguments

def addInput (args : Arguments) (input : String) : Except UsageError Arguments :=
  if input = "" then .error .emptyValue else .ok { args with inputs := args.inputs ++ [input] }

def setOutput (args : Arguments) (value : String) : Except UsageError Arguments :=
  if value = "" then .error .emptyValue
  else if args.output.isSome then .error (.repeated "output")
  else .ok { args with output := some value }

/-- How the reading goes on after a part of the command line. -/
inductive Progress where
  | more (args : Arguments)
  /-- The next argument is the output path. -/
  | awaitOutput (args : Arguments)
  | done (request : Request)

/-- Takes a flag. Only the one that asks for more output may be repeated. -/
def setFlag (args : Arguments) (f : Flag) : Except UsageError Progress :=
  let once (given : Bool) (changed : Arguments) : Except UsageError Progress :=
    if given then .error (.repeated f.longName) else .ok (.more changed)
  match f with
  | .bootstrap => once args.bootstrap { args with bootstrap := true }
  | .symbolicCompare => once args.symbolicCompare { args with symbolicCompare := true }
  | .nonzeroIfGoto => once args.nonzeroIfGoto { args with nonzeroIfGoto := true }
  | .noComments => once args.noComments { args with noComments := true }
  | .verify => once args.verify { args with verify := true }
  | .verbose => .ok (.more { args with verbosity := args.verbosity + 1 })
  | .version => .ok (.done .version)
  | .help => .ok (.done .help)

/-- Takes the items of one argument. An option that awaits its value is the last of them. -/
def addItems (args : Arguments) : List Item → Except UsageError Progress
  | [] => .ok (.more args)
  | .invalid e :: _ => .error e
  | .output none :: _ => .ok (.awaitOutput args)
  | .output (some value) :: items =>
      match args.setOutput value with
      | .error e => .error e
      | .ok args => addItems args items
  | .operand text :: items =>
      match args.addInput text with
      | .error e => .error e
      | .ok args => addItems args items
  | .flag f :: items =>
      match args.setFlag f with
      | .ok (.more args) => addItems args items
      | ended => ended

/-- Takes operands only. -/
def addOperands (args : Arguments) : List String → Except UsageError Arguments
  | [] => .ok args
  | text :: rest =>
      match args.addInput text with
      | .error e => .error e
      | .ok args => addOperands args rest

/-- The request of a command line that has been read to its end. -/
def request (args : Arguments) : Except UsageError Request :=
  if args.inputs.isEmpty then .error .missingInputs else .ok (.run args)

def read (args : Arguments) : List String → Except UsageError Request
  | [] => args.request
  | "--" :: rest =>
      match args.addOperands rest with
      | .error e => .error e
      | .ok args => args.request
  | arg :: rest =>
      match args.addItems (Item.ofArgument arg) with
      | .error e => .error e
      | .ok (.done request) => .ok request
      | .ok (.more args) => args.read rest
      | .ok (.awaitOutput args) =>
          match rest with
          | [] => .error .missingValue
          | value :: rest =>
              if looksLikeOption value then .error .missingValue
              else
                match args.setOutput value with
                | .error e => .error e
                | .ok args => args.read rest

/-- The request that a command line makes. -/
def parse (args : List String) : Except UsageError Request :=
  ({} : Arguments).read args

def options (args : Arguments) : Codegen.Options where
  compare := if args.symbolicCompare then .symbolic else .absolute
  branch := if args.nonzeroIfGoto then .nonzero else .positive
  comments := !args.noComments
  bootstrap := args.bootstrap

end Arguments

/-- The text that asking for the version prints. -/
def versionText : String := "vmtrans 0.1.0\n"

def helpText : String :=
  String.join <| [
    "Usage: vmtrans [OPTIONS] <INPUTS>...",
    "",
    "Generates assembly from stack code: .vm files, or directories of them.",
    "",
    "  -o, --output <OUTPUT>  the file to write",
    "      --bootstrap        set SP to 256 first",
    "      --symbolic-compare use labels in comparisons",
    "      --nonzero-if-goto  branch on every value but zero",
    "      --no-comments      leave the comments out",
    "      --verify           assemble the output before it is written",
    "  -v, --verbose          accepted and without effect",
    "  -h, --help             print this text",
    "  -V, --version          print the version"].map (· ++ "\n")

def UsageError.message : UsageError → String
  | unknownOption text => s!"unexpected argument '{text}'"
  | unexpectedValue text => s!"unexpected value '{text}'"
  | missingValue => "a value is required for '--output'"
  | emptyValue => "a value may not be empty"
  | repeated name => s!"'--{name}' cannot be used more than once"
  | missingInputs => "no input is given"

end HackBackend.Cli
