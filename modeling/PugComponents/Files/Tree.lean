import PugComponents.Files.Path

/- File trees: the directories and files that a run can see, from the root down,
   with a working directory. Paths are followed segment by segment: a name needs
   a directory before it, and double dots go one directory up. -/
namespace PugComponents.Files

/-- The names on the way from the root to a place. -/
abbrev Location := List String

/-- What a file holds. -/
inductive Content
  | text (value : String)
  /-- Bytes that are no text. -/
  | binary (bytes : List UInt8)
  deriving DecidableEq, Repr

/-- What stands at a place. -/
inductive Entry
  | directory
  | file (content : Content)
  deriving DecidableEq, Repr

/-- Why an operation on files fails. -/
inductive FileError
  | notFound
  | alreadyExists
  | notDirectory
  | isDirectory
  | notText
  /-- No directory is there to start from. -/
  | noTree
  deriving DecidableEq, Repr

/-- How a failure is worded. -/
def FileError.message : FileError → String
  | notFound => "No such file or directory (os error 2)"
  | alreadyExists => "File exists (os error 17)"
  | notDirectory => "Not a directory (os error 20)"
  | isDirectory => "Is a directory (os error 21)"
  | notText => "stream did not contain valid UTF-8"
  | noTree => "failed to create whole tree"

/-- Directories and files. The root is always a directory. -/
structure FileTree where
  entries : List (Location × Entry)
  /-- The working directory. -/
  workingDirectory : Location

namespace FileTree

/-- What stands at a place. -/
def at? (t : FileTree) (place : Location) : Option Entry :=
  if place.isEmpty then some .directory else t.entries.lookup place

/-- Puts an entry at a place. -/
def set (t : FileTree) (place : Location) (entry : Entry) : FileTree :=
  if (t.entries.lookup place).isSome then
    { t with entries := t.entries.map fun e => if e.1 == place then (place, entry) else e }
  else { t with entries := t.entries ++ [(place, entry)] }

/-- Follows segments from a place. -/
def walk (t : FileTree) : Location → List String → Except FileError Location
  | place, [] => .ok place
  | place, segment :: rest =>
    match t.at? place with
    | none => .error .notFound
    | some (.file _) => .error .notDirectory
    | some .directory =>
      if Path.isIdle segment then walk t place rest
      else if segment == ".." then walk t place.dropLast rest
      else if (t.at? (place ++ [segment])).isSome then walk t (place ++ [segment]) rest
      else .error .notFound

/-- The place where the segments of a path are followed from. -/
def start (t : FileTree) (path : String) : Location :=
  if Path.isAbsolute path then [] else t.workingDirectory

/-- The place of a path. -/
def locate (t : FileTree) (path : String) : Except FileError Location :=
  if path == "" then .error .notFound else t.walk (t.start path) (Path.segments path)

/-- What stands at a path. -/
def entryOf? (t : FileTree) (path : String) : Option Entry :=
  match t.locate path with
  | .ok place => t.at? place
  | .error _ => none

/-- Something stands at the path. -/
def contains (t : FileTree) (path : String) : Bool := (t.entryOf? path).isSome

/-- A file stands at the path. -/
def isFile (t : FileTree) (path : String) : Bool :=
  match t.entryOf? path with
  | some (.file _) => true
  | _ => false

/-- A directory stands at the path. -/
def isDirectory (t : FileTree) (path : String) : Bool := t.entryOf? path == some .directory

/-- The text of the file at a path. -/
def read (t : FileTree) (path : String) : Except FileError String := do
  let place ← t.locate path
  match t.at? place with
  | none => .error .notFound
  | some .directory => .error .isDirectory
  | some (.file (.binary _)) => .error .notText
  | some (.file (.text value)) => .ok value

/-- The directory that is to hold the last segment of a path, and that segment. Slashes at the end
do not count. -/
def parentOf (t : FileTree) (path : String) : Except FileError (Location × String) :=
  match ((Path.segments path).reverse.dropWhile (· == "")) with
  | [] => .error (if path == "" then .notFound else .alreadyExists)
  | last :: before => do
    let place ← t.walk (t.start path) before.reverse
    match t.at? place with
    | some .directory => .ok (place, last)
    | some (.file _) => .error .notDirectory
    | none => .error .notFound

/-- Makes a directory in a directory that is there. -/
def makeDirectory (t : FileTree) (path : String) : Except FileError FileTree := do
  let (place, name) ← t.parentOf path
  if name == "." || name == ".." || (t.at? (place ++ [name])).isSome then .error .alreadyExists
  else .ok (t.set (place ++ [name]) .directory)

/-- Makes a directory, or keeps the one that is there. -/
def ensureDirectory (t : FileTree) (path : String) : Except FileError FileTree :=
  match t.makeDirectory path with
  | .ok made => .ok made
  | .error e => if t.isDirectory path then .ok t else .error e

/-- Makes a directory with all directories above it that are missing. Each step goes one directory
up. -/
def makeDirectoriesFrom : Nat → FileTree → String → Except FileError FileTree
  | 0, _, _ => .error .noTree
  | n + 1, t, path =>
    if path == "" then .ok t
    else
      match t.ensureDirectory path with
      | .error .notFound =>
        match Path.parent? path with
        | none => .error .noTree
        | some parent => do
          let above ← makeDirectoriesFrom n t parent
          above.ensureDirectory path
      | result => result

/-- Makes a directory with all directories above it that are missing. -/
def makeDirectories (t : FileTree) (path : String) : Except FileError FileTree :=
  makeDirectoriesFrom (path.length + 1) t path

/-- Writes a file into a directory that is there. A slash behind the name asks for a directory. -/
def write (t : FileTree) (path text : String) : Except FileError FileTree := do
  let (place, name) ← t.parentOf path
  if (Path.segments path).getLast? != some name || name == "." || name == ".." then .error .isDirectory
  else
    match t.at? (place ++ [name]) with
    | some .directory => .error .isDirectory
    | _ => .ok (t.set (place ++ [name]) (.file (.text text)))

/-- Names in the order of a listing: name by name, each by its characters. -/
def listedBefore : Location → Location → Bool
  | [], _ => true
  | _ :: _, [] => false
  | a :: as, b :: bs => if a == b then listedBefore as bs else decide (a < b)

/-- What remains of a place below another one. -/
def below? : Location → Location → Option Location
  | [], place => some place
  | _ :: _, [] => none
  | a :: as, b :: bs => if a == b then below? as bs else none

/-- The files below a directory, as listed: in each directory by name, a directory at its place in
that order. -/
def filesBelow (t : FileTree) (directory : Location) : List Location :=
  (t.entries.filterMap fun (place, entry) =>
    match entry with
    | .directory => none
    | .file _ => below? directory place).mergeSort listedBefore

/-- The files that are new or changed, with their contents. -/
def changes (before after : FileTree) : List (Location × Content) :=
  after.entries.filterMap fun (place, entry) =>
    match entry with
    | .directory => none
    | .file content => if before.at? place == some (.file content) then none else some (place, content)

/-- A tree of files and empty directories in a working directory. The directories on the way to them
are there as well. -/
def ofFiles (workingDirectory : Location) (files : List (Location × Entry)) : FileTree :=
  let base : FileTree := ⟨[], workingDirectory⟩
  let addDirectories (t : FileTree) (place : Location) : FileTree :=
    (List.range place.length).foldl (fun t n =>
      let above := place.take n
      if (t.at? above).isSome then t else t.set above .directory) t
  let rooted := (addDirectories base workingDirectory).set workingDirectory .directory
  files.foldl (fun t (place, entry) =>
    (addDirectories t (workingDirectory ++ place)).set (workingDirectory ++ place) entry) rooted

end FileTree

end PugComponents.Files
