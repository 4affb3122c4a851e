import PugComponents.Text.Split

/- Paths as text. Two paths name the same place if their components agree:
   doubled and trailing slashes and inner dots do not count, a leading dot does,
   and double dots are not resolved. -/
namespace PugComponents.Files

open Text

/-- A component of a path. -/
inductive Component
  | root
  /-- A leading dot. -/
  | current
  | parent
  | normal (name : String)
  deriving DecidableEq, Repr

namespace Path

/-- The texts between slashes. The first one is empty for an absolute path. -/
def segments (path : String) : List String :=
  (splitAtChar '/' path.toList).map String.ofList

/-- A segment that is no component unless it stands first. -/
def isIdle (segment : String) : Bool := segment == "" || segment == "."

/-- The component of a segment that is not idle. -/
def component (segment : String) : Component := if segment == ".." then .parent else .normal segment

/-- The components of a path. -/
def components (path : String) : List Component :=
  match segments path with
  | [] => []
  | first :: rest =>
    let tail := (rest.filter (!isIdle ·)).map component
    if path == "" then []
    else if first == "" then .root :: tail
    else if first == "." then .current :: tail
    else component first :: tail

/-- The two paths have the same components. -/
def same (a b : String) : Bool := components a == components b

/-- The path starts at the root. -/
def isAbsolute (path : String) : Bool := startsWith path.toList ['/']

/-- A path below another one; an absolute path stands for itself. -/
def join (base path : String) : String :=
  if isAbsolute path then path
  else if base == "" || base.toList.getLast? == some '/' then base ++ path
  else base ++ "/" ++ path

/-- The text of a component. -/
def componentText : Component → String
  | .root => "/"
  | .current => "."
  | .parent => ".."
  | .normal name => name

/-- The path with these components. -/
def ofComponents (cs : List Component) : String :=
  cs.foldl (fun path c => join path (componentText c)) ""

/-- Drops the idle segments at the end; the first segment stays. -/
def dropIdle : List String → List String
  | [] => []
  | first :: rest => first :: (rest.reverse.dropWhile isIdle).reverse

/-- The path with these segments. -/
def ofSegments : List String → String
  | [""] => "/"
  | segments => joinWith "/" segments

/-- The last component, if it is a name. -/
def fileName? (path : String) : Option String :=
  match (components path).getLast? with
  | some (.normal name) => some name
  | _ => none

/-- A file name in two parts, cut at its last dot: the stem and the extension. A name whose only dot
comes first has no extension. -/
def splitName (name : String) : String × Option String :=
  match cutAtChar? '.' name.toList.reverse with
  | none => (name, none)
  | some (_, []) => (name, none)
  | some (extension, stem) => (String.ofList stem.reverse, some (String.ofList extension.reverse))

/-- The extension of the file name. -/
def extension? (path : String) : Option String :=
  (fileName? path).bind fun name => (splitName name).2

/-- The path without its last component; none for the root and the empty path. -/
def parent? (path : String) : Option String :=
  match (dropIdle (segments path)).reverse with
  | [] => none
  | [only] => if only == "" then none else some ""
  | _ :: before => some (ofSegments (dropIdle before.reverse))

/-- The path with another extension, or with none if it is empty. A path without a file name stays
as it is. -/
def withExtension (path extension : String) : String :=
  match fileName? path with
  | none => path
  | some name =>
    let stem := (splitName name).1
    let changed := if extension == "" then stem else stem ++ "." ++ extension
    ofSegments ((dropIdle (segments path)).dropLast ++ [changed])

end Path

end PugComponents.Files
