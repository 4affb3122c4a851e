import PugComponents.Project.Pass

/- The command line. The files of the working directory, and the given paths
   outside it, are read into a file tree; a run turns it into another one, and
   what changed is written back. -/
namespace PugComponents

open Files Project

/-- The version of the program. -/
def version : String := "0.3.1"

/-- How the program is called. -/
def usage : String :=
  "Convert Pug templates into JSX components\n\n" ++
  "Usage: pug-to-jsx [OPTIONS] [PATHS]...\n\n" ++
  "Arguments:\n" ++
  "  [PATHS]...  Files or directories to convert (directories are searched for `*.pug`) " ++
  "[default: .]\n\n" ++
  "Options:\n" ++
  "      --out-dir <OUT_DIR>      Directory for generated modules (defaults to next to each template)\n" ++
  "      --extension <EXTENSION>  Extension of generated modules\n" ++
  "      --basedir <BASEDIR>      Root for absolute `include /path` references\n" ++
  "      --stdout                 Print generated modules to stdout instead of writing files\n" ++
  "      --output <OUTPUT>        Report format [default: human] [possible values: human, json]\n" ++
  "      --fail-on-warnings       Exit with error on warnings\n" ++
  "      --ignore <IGNORE>        Glob patterns to ignore\n" ++
  "      --watch                  Watch mode\n" ++
  "  -v, --verbose                Log every translated node\n" ++
  "  -h, --help                   Print help\n" ++
  "  -V, --version                Print version\n"

/-- The content of bytes. -/
def contentOfBytes (bytes : ByteArray) : Content :=
  match String.fromUTF8? bytes with
  | some s => .text s
  | none => .binary bytes.toList

/-- The place of an absolute path. -/
def placeOf (path : String) : Location := (Path.segments path).filter (!Path.isIdle ·)

/-- The files and directories at and below a directory entry. Links are not followed. -/
partial def snapshot (entry : IO.FS.DirEntry) (place : Location) : IO (List (Location × Entry)) := do
  match (← entry.path.symlinkMetadata).type with
  | .dir =>
    let inner ← (← entry.path.readDir).toList.mapM fun e => snapshot e (place ++ [e.fileName])
    return (place, .directory) :: inner.flatten
  | .file => return [(place, .file (contentOfBytes (← IO.FS.readBinFile entry.path)))]
  | _ => return []

/-- The tree of the working directory and of the given paths that are there. -/
def readTree (arguments : List String) : IO FileTree := do
  let here ← IO.currentDir
  let workspace := placeOf here.toString
  let inside ← snapshot ⟨here, "."⟩ []
  let outside ← arguments.mapM fun argument => do
    let entry : IO.FS.DirEntry := ⟨here, argument⟩
    let place := placeOf entry.path.toString
    if (FileTree.below? workspace place).isSome || !(← entry.path.pathExists) then return []
    else snapshot entry place
  let base := FileTree.ofFiles workspace inside
  return outside.flatten.foldl (fun t (place, e) => t.set place e) base

/-- Writes the files that a run changed. -/
def writeChanges (before after : FileTree) : IO Unit := do
  for (place, content) in FileTree.changes before after do
    match content with
    | .text s =>
      IO.FS.createDirAll ("/" ++ Text.joinWith "/" place.dropLast)
      IO.FS.writeFile ("/" ++ Text.joinWith "/" place) s
    | .binary _ => pure ()

/-- Ends with a message on the standard error stream. -/
def endWith (message : String) (code : UInt32) : IO UInt32 := do
  IO.eprintln message
  return code

/-- Reports why a run ended early. -/
def endEarly : RunError → IO UInt32
  | .arguments .displayHelp => do
    IO.print usage
    return 0
  | .arguments .displayVersion => do
    IO.println ("pug-to-jsx " ++ version)
    return 0
  | .arguments _ => endWith usage 2
  | e => endWith ("Error: " ++ e.message?.getD "the project file or a glob pattern is invalid") 1

end PugComponents

open PugComponents PugComponents.Project in
/-- Runs the program. -/
def main (arguments : List String) : IO UInt32 := do
  let before ← readTree arguments
  let (after, result) := run before .standard arguments
  writeChanges before after
  match result with
  | .error e => endEarly e
  | .ok (settings, pass) =>
    let output := outputOf settings pass
    IO.print output.stdout
    IO.eprint output.stderr
    return if pass.summary.shouldFail then 1 else 0
