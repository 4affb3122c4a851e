import PugComponents.Distinct
import PugComponents.Files.Glob
import PugComponents.Files.Tree

/- Discovery: which templates a run converts. A given file is taken as it is; a
   given directory stands for the templates below it that no pattern excludes. -/
namespace PugComponents.Project

open Files
open Text

/-- A template to convert. -/
structure TemplateFile where
  path : String
  /-- The path below the directory that was searched. -/
  relative : String
  deriving DecidableEq, Repr

/-- The patterns that always count. -/
def standardIgnores : List String := ["**/node_modules/**", "node_modules/**"]

/-- How patterns are read: which paths they exclude. -/
abbrev PatternReader := List String → Except GlobError (String → Bool)

/-- A path is excluded if one of the patterns matches it. -/
def excludedBy : PatternReader := fun texts => do
  let patterns ← texts.mapM Glob.parse
  return fun path => patterns.any (·.isMatch path)

/-- A path that is given and is no directory. -/
def givenFile (path : String) : TemplateFile := ⟨path, (Path.fileName? path).getD path⟩

/-- A file below a directory. -/
def fileBelow (root : String) (place : Location) : TemplateFile :=
  let relative := joinWith "/" place
  ⟨Path.join root relative, relative⟩

/-- The templates that a given path stands for. -/
def templatesAt (tree : FileTree) (ignored : String → Bool) (root : String) : List TemplateFile :=
  if !tree.isDirectory root then [givenFile root]
  else
    match tree.locate root with
    | .error _ => []
    | .ok place =>
      ((tree.filesBelow place).map (fileBelow root)).filter fun t =>
        Path.extension? t.path == some "pug" && !ignored t.relative

/-- The templates that given paths stand for, each once. -/
def discover (tree : FileTree) (ignored : String → Bool) (paths : List String) : List TemplateFile :=
  distinctBy (fun a b => Path.same a.path b.path) (paths.flatMap (templatesAt tree ignored))

end PugComponents.Project
