import PugComponents.Text.Split

/- Command line arguments. Options and paths may be mixed; two hyphens end the
   options. An option is taken in only when the next argument is known or the
   line ends, so that an unknown argument is reported first. -/
namespace PugComponents.Project

open Text

/-- The form of a report. -/
inductive ReportFormat
  | human
  | json
  deriving DecidableEq, Repr

/-- The options that take a value. -/
inductive ValueOption
  | outDirectory
  | extension
  | baseDirectory
  | output
  | ignore
  deriving DecidableEq, Repr

/-- The options without a value. -/
inductive Flag
  | stdout
  | failOnWarnings
  | watch
  | verbose
  | help
  | version
  deriving DecidableEq, Repr

/-- What is wrong with the arguments, or asks for an answer of its own. -/
inductive ArgumentError
  | unknownArgument
  /-- A value is missing or not possible. -/
  | invalidValue
  /-- A value for an option that takes none. -/
  | tooManyValues
  /-- An option that is given twice. -/
  | argumentConflict
  | displayHelp
  | displayVersion
  deriving DecidableEq, Repr

/-- The arguments of a run. -/
structure Arguments where
  /-- Files and directories; empty if none were given. -/
  given : List String := []
  outDirectory : Option String := none
  extension : Option String := none
  baseDirectory : Option String := none
  output : Option ReportFormat := none
  ignore : List String := []
  stdout : Bool := false
  failOnWarnings : Bool := false
  watch : Bool := false
  verbose : Bool := false
  deriving DecidableEq, Repr

namespace Arguments

/-- The files and directories to convert: those given, or else the working directory. -/
def paths (a : Arguments) : List String := if a.given.isEmpty then ["."] else a.given

/-- The form of the report. -/
def format (a : Arguments) : ReportFormat := a.output.getD .human

/-- How much is logged. -/
def logFilter (a : Arguments) : String := if a.verbose then "debug" else "warn"

/-- The option with a long name. -/
def valueOption? (name : String) : Option ValueOption :=
  [("out-dir", .outDirectory), ("extension", .extension), ("basedir", .baseDirectory),
    ("output", .output), ("ignore", ValueOption.ignore)].lookup name

/-- The flag with a long name. -/
def flag? (name : String) : Option Flag :=
  [("stdout", .stdout), ("fail-on-warnings", .failOnWarnings), ("watch", .watch),
    ("verbose", .verbose), ("help", .help), ("version", Flag.version)].lookup name

/-- The flag with a one-letter name. -/
def shortFlag? (c : Char) : Option Flag :=
  [('v', .verbose), ('h', .help), ('V', Flag.version)].lookup c

/-- The form of a report with a name. -/
def reportFormat? (name : String) : Option ReportFormat :=
  [("human", .human), ("json", ReportFormat.json)].lookup name

/-- A value that is given for the first time. -/
def once {α : Type} (present : Option α) (new : α) : Except ArgumentError (Option α) :=
  if present.isSome then .error .argumentConflict else .ok (some new)

/-- Takes in an option with its value. -/
def store (a : Arguments) (option : ValueOption) (value : String) : Except ArgumentError Arguments :=
  match option with
  | .outDirectory => do
    let outDirectory ← once a.outDirectory value
    .ok { a with outDirectory }
  | .extension => do
    let extension ← once a.extension value
    .ok { a with extension }
  | .baseDirectory => do
    let baseDirectory ← once a.baseDirectory value
    .ok { a with baseDirectory }
  | .output =>
    if a.output.isSome then .error .argumentConflict
    else
      match reportFormat? value with
      | some format => .ok { a with output := some format }
      | none => .error .invalidValue
  | .ignore => .ok { a with ignore := a.ignore ++ [value] }

/-- A flag that is given for the first time. -/
def raise (present : Bool) (a : Arguments) : Except ArgumentError Arguments :=
  if present then .error .argumentConflict else .ok a

/-- Takes in a flag. -/
def storeFlag (a : Arguments) (flag : Flag) : Except ArgumentError Arguments :=
  match flag with
  | .stdout => raise a.stdout { a with stdout := true }
  | .failOnWarnings => raise a.failOnWarnings { a with failOnWarnings := true }
  | .watch => raise a.watch { a with watch := true }
  | .verbose => raise a.verbose { a with verbose := true }
  | .help => .error .displayHelp
  | .version => .error .displayVersion

/-- An option that is not taken in yet. -/
inductive Pending
  | nothing
  | awaiting (option : ValueOption)
  | complete (option : ValueOption) (value : String)

/-- Takes in the pending option. -/
def settle (a : Arguments) : Pending → Except ArgumentError Arguments
  | .nothing => .ok a
  | .awaiting _ => .error .invalidValue
  | .complete option value => a.store option value

/-- The name and the attached value of a long option. -/
def longParts (text : List Char) : String × Option String :=
  match cutAtChar? '=' text with
  | some (name, value) => (String.ofList name, some (String.ofList value))
  | none => (String.ofList text, none)

/-- Takes in a long option, given the pending one. -/
def readLong (a : Arguments) (pending : Pending) (text : List Char) :
    Except ArgumentError (Arguments × Pending) :=
  let (name, attached) := longParts text
  match valueOption? name, flag? name, attached with
  | some option, _, some value => do
    let settled ← a.settle pending
    let stored ← settled.store option value
    .ok (stored, .nothing)
  | some option, _, none => do
    let settled ← a.settle pending
    .ok (settled, .awaiting option)
  | none, some _, some _ => .error .tooManyValues
  | none, some flag, none => do
    let settled ← a.settle pending
    let stored ← settled.storeFlag flag
    .ok (stored, .nothing)
  | none, none, _ => .error .unknownArgument

/-- Takes in one-letter flags written together, given the pending option. -/
def readShort (a : Arguments) (pending : Pending) :
    List Char → Except ArgumentError (Arguments × Pending)
  | [] => .ok (a, pending)
  | c :: rest =>
    match shortFlag? c with
    | none => .error .unknownArgument
    | some flag => do
      let settled ← a.settle pending
      let stored ← settled.storeFlag flag
      readShort stored .nothing rest

/-- Takes in an argument that is no option: the value of the pending option, or a path. -/
def readPlain (a : Arguments) (pending : Pending) (argument : String) :
    Except ArgumentError (Arguments × Pending) :=
  match pending with
  | .awaiting option => .ok (a, .complete option argument)
  | _ => do
    let settled ← a.settle pending
    .ok ({ settled with given := settled.given ++ [argument] }, .nothing)

/-- Takes in the arguments after two hyphens, which are all paths. -/
def readPaths (a : Arguments) (pending : Pending) (paths : List String) :
    Except ArgumentError Arguments := do
  let settled ← a.settle pending
  .ok { settled with given := settled.given ++ paths }

/-- Takes in arguments, given the pending option. -/
def readFrom (a : Arguments) (pending : Pending) : List String → Except ArgumentError Arguments
  | [] => a.settle pending
  | argument :: rest =>
    match argument.toList with
    | ['-', '-'] => a.readPaths pending rest
    | '-' :: '-' :: text => do
      let (next, pending) ← a.readLong pending text
      readFrom next pending rest
    | '-' :: c :: text => do
      let (next, pending) ← a.readShort pending (c :: text)
      readFrom next pending rest
    | _ => do
      let (next, pending) ← a.readPlain pending argument
      readFrom next pending rest

/-- Reads the arguments of a run. -/
def parse (arguments : List String) : Except ArgumentError Arguments :=
  readFrom {} .nothing arguments

end Arguments

end PugComponents.Project
