import PugComponents.Files.Tree
import PugComponents.Json.Reader
import PugComponents.Project.Arguments

/- Settings: what the arguments say, and where they are silent, what the project
   file says. -/
namespace PugComponents.Project

open Files
open Json (Value)

/-- The contents of a project file. -/
structure Config where
  outDirectory : Option String := none
  extension : Option String := none
  ignore : List String := []
  baseDirectory : Option String := none
  deriving DecidableEq, Repr

/-- Why a project file cannot be used. -/
inductive ConfigError
  | unreadable (path : String) (error : FileError)
  | malformed
  deriving DecidableEq, Repr

namespace Config

/-- The name of the project file. -/
def fileName : String := "pug-to-jsx.json"

/-- A text, or nothing. -/
def optionalText? : Value → Option (Option String)
  | .null => some none
  | .string (some s) => some (some s)
  | _ => none

/-- A text. -/
def text? : Value → Option String
  | .string s => s
  | _ => none

/-- A list of texts. -/
def texts? : Value → Option (List String)
  | .array items => items.mapM text?
  | _ => none

/-- The member with a key; a key that comes twice is refused. -/
def member? (members : List (Option String × Value)) (key : String) : Option (Option Value) :=
  match members.filter (·.1 == some key) with
  | [] => some none
  | [(_, value)] => some (some value)
  | _ => none

/-- A value that may be missing, read in some way; the default stands for a missing one. -/
def orDefault {α : Type} (missing : α) (read : Value → Option α) : Option Value → Option α
  | none => some missing
  | some value => read value

/-- The configuration of four values, each of which may be missing. -/
def ofValues? (outDirectory extension ignore baseDirectory : Option Value) : Option Config := do
  let outDirectory ← orDefault none optionalText? outDirectory
  let extension ← orDefault none optionalText? extension
  let ignore ← orDefault [] texts? ignore
  let baseDirectory ← orDefault none optionalText? baseDirectory
  some { outDirectory, extension, ignore, baseDirectory }

/-- The configuration that a value writes: an object, of which other members are ignored, or the
values in order. -/
def ofValue? : Value → Option Config
  | .object members => do
    if members.any (·.1.isNone) then none
    let outDirectory ← member? members "outDir"
    let extension ← member? members "extension"
    let ignore ← member? members "ignore"
    let baseDirectory ← member? members "basedir"
    ofValues? outDirectory extension ignore baseDirectory
  | .array items =>
    if 4 < items.length then none else ofValues? items[0]? items[1]? items[2]? items[3]?
  | _ => none

/-- Loads the project file of a directory. Without one the defaults count. -/
def load (tree : FileTree) (directory : String) : Except ConfigError Config :=
  let path := Path.join directory fileName
  if !tree.contains path then .ok {}
  else
    match tree.read path with
    | .error e => .error (.unreadable path e)
    | .ok source =>
      match (Value.parse? source).bind ofValue? with
      | some config => .ok config
      | none => .error .malformed

end Config

/-- The settings of a run. -/
structure Settings where
  workspace : String
  /-- Files and directories to convert. -/
  paths : List String
  /-- Where modules are written; next to the templates if there is none. -/
  outDirectory : Option String
  /-- The extension of modules, with its dot. -/
  extension : String
  /-- Patterns of templates that are passed over. -/
  ignore : List String
  baseDirectory : Option String
  /-- Modules are printed, and not written. -/
  stdout : Bool
  format : ReportFormat
  failOnWarnings : Bool
  watch : Bool
  deriving DecidableEq, Repr

namespace Settings

/-- A path from the workspace on; an absolute path stays as it is. -/
def absolute (workspace path : String) : String :=
  if Path.isAbsolute path then path
  else Path.ofComponents (Path.components (Path.join workspace path))

/-- An extension with its dot. -/
def dotted (extension : String) : String :=
  if Text.startsWith extension.toList ['.'] then extension else "." ++ extension

/-- The settings of arguments and a project file. -/
def resolve (a : Arguments) (c : Config) (workspace : String) : Settings where
  workspace := workspace
  paths := a.paths.map (absolute workspace)
  outDirectory := (a.outDirectory <|> c.outDirectory).map (absolute workspace)
  extension := dotted ((a.extension <|> c.extension).getD ".jsx")
  ignore := c.ignore ++ a.ignore
  baseDirectory := (a.baseDirectory <|> c.baseDirectory).map (absolute workspace)
  stdout := a.stdout
  format := a.format
  failOnWarnings := a.failOnWarnings
  watch := a.watch

end Settings

end PugComponents.Project
