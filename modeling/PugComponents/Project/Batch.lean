import PugComponents.Component.Module
import PugComponents.Project.Loading

/- Batches: several templates converted one after the other. A template that
   fails does not keep the others from being converted. -/
namespace PugComponents.Project

open Component (Failure Module)
open Files
open Link (Registry)
open Script (SnippetReader)

/-- Why a template cannot be converted. -/
inductive ConvertError
  | load (e : LoadError)
  | failure (e : Failure) (path source : String)

/-- How a failed conversion is worded. -/
def ConvertError.message : ConvertError → String
  | load e => e.message
  | failure e path _ => "failed to convert " ++ path ++ ": " ++ e.message

/-- A converted template. -/
structure Converted where
  result : Module
  /-- The text of the template. -/
  source : String

/-- Loads a template and converts it. One that cannot be loaded leaves no trace in the registry. -/
def convertFile (tree : FileTree) (reader : SnippetReader) (baseDirectory : Option String)
    (path : String) : StateM Registry (Except ConvertError Converted) :=
  match load tree path baseDirectory with
  | .error e => return .error (.load e)
  | .ok loaded => do
    let converted ← Component.transform reader (some path) loaded.document
    match converted.result with
    | .error e => return .error (.failure e path loaded.source)
    | .ok result => return .ok ⟨result, loaded.source⟩

/-- The result for a path. -/
structure BatchEntry where
  path : String
  result : Except ConvertError Converted

/-- The entry with another result for its path. -/
def BatchEntry.replace (e : BatchEntry) (new : BatchEntry) : BatchEntry := ⟨e.path, new.result⟩

/-- Adds a result. A path that is there already keeps its place and spelling, and takes the new
result. -/
def addEntry (new : BatchEntry) : List BatchEntry → List BatchEntry
  | [] => [new]
  | e :: rest => if Path.same e.path new.path then e.replace new :: rest else e :: addEntry new rest

/-- The results of a batch. -/
structure Batch where
  /-- One entry for each place, in the order of the first mention. -/
  entries : List BatchEntry
  registry : Registry

namespace Batch

/-- The result for a path. -/
def get? (b : Batch) (path : String) : Option (Except ConvertError Converted) :=
  (b.entries.find? fun e => Path.same e.path path).map (·.result)

/-- The number of templates that failed. -/
def failureCount (b : Batch) : Nat := b.entries.countP fun e => !e.result.isOk

/-- The number of warnings of the templates that were converted. -/
def warningCount (b : Batch) : Nat :=
  (b.entries.flatMap fun e =>
    match e.result with
    | .ok c => c.result.warnings
    | .error _ => []).length

/-- Converts one more template. -/
def add (tree : FileTree) (reader : SnippetReader) (baseDirectory : Option String) (b : Batch)
    (path : String) : Batch :=
  let (result, registry) := (convertFile tree reader baseDirectory path).run b.registry
  ⟨addEntry ⟨path, result⟩ b.entries, registry⟩

/-- Converts templates one after the other; they share a registry. -/
def convert (tree : FileTree) (reader : SnippetReader) (baseDirectory : Option String)
    (paths : List String) : Batch :=
  paths.foldl (add tree reader baseDirectory) ⟨[], .empty⟩

end Batch

end PugComponents.Project
