import PugComponents.Files.Tree
import PugComponents.Template.Document

/- Loading: a template is read, and every file it refers to is looked up. A
   reference that starts with a slash counts from the base directory, any other
   from the directory of the template. Of the files around a template no more is
   asked than the text of one and whether there is one. -/
namespace PugComponents.Project

open Files
open Template
open Text

/-- Why a template cannot be loaded. -/
inductive LoadError
  | unreadable (path : String) (error : FileError)
  /-- The template has faults. -/
  | faulty (path source : String) (faults : List Fault)
  /-- A reference leads to no file. -/
  | unresolved (file reference candidate : String) (span : Span)

/-- The first fault of a template, and how many there are besides. -/
def firstFault : List Fault → String
  | [] => "unknown error"
  | [only] => only.message
  | first :: rest => first.message ++ " (and " ++ toString rest.length ++ " more)"

/-- How a failure to load is worded. -/
def LoadError.message : LoadError → String
  | unreadable path error => "failed to read " ++ path ++ ": " ++ error.message
  | faulty path _ faults => "failed to parse " ++ path ++ ": " ++ firstFault faults
  | unresolved file reference candidate _ =>
    file ++ ": cannot resolve \x60" ++ reference ++ "\x60 (looked for " ++ candidate ++ ")"

/-- What loading asks of files. -/
structure FileSystem where
  /-- The text of the file at a path. -/
  read : String → Except FileError String
  /-- A file stands at the path. -/
  isFile : String → Bool

/-- The files of a tree. -/
def FileSystem.ofTree (tree : FileTree) : FileSystem := ⟨tree.read, tree.isFile⟩

/-- Where the references of a template are looked up. -/
structure Lookup where
  files : FileSystem
  /-- The template. -/
  file : String
  directory : String
  baseDirectory : String

/-- How the references of a file are looked up; without a base directory the one of the file
counts. -/
def Lookup.ofFile (files : FileSystem) (file : String) (baseDirectory : Option String) : Lookup :=
  let directory := (Path.parent? file).getD ""
  ⟨files, file, directory, baseDirectory.getD directory⟩

namespace Lookup

/-- The path that a reference leads to; one to a template gets the extension of templates if it has
none. -/
def candidate (l : Lookup) (reference : String) (template : Bool) : String :=
  let path :=
    match reference.toList with
    | '/' :: rooted => Path.join l.baseDirectory (String.ofList rooted)
    | _ => Path.join l.directory reference
  if template && (Path.extension? path).isNone then Path.withExtension path "pug" else path

/-- Looks a reference up. -/
def resolve (l : Lookup) (f : FileReference) (span : Span) (template : Bool) :
    Except LoadError FileReference :=
  let path := l.candidate f.path template
  if l.files.isFile path then .ok { f with resolved := some path }
  else .error (.unresolved l.file f.path path span)

mutual

/-- Looks up the references of a node. -/
def resolveNode (l : Lookup) : Node → Except LoadError Node
  | .includeFile file column span => do
    let file ← l.resolve file span true
    .ok (.includeFile file column span)
  | .extendsFile file span => do
    let file ← l.resolve file span true
    .ok (.extendsFile file span)
  | .rawInclude file span => do
    let file ← l.resolve file span false
    .ok (.rawInclude file span)
  | .conditional test consequent alternates span => do
    let consequent ← l.resolveNodes consequent
    let alternates ← l.resolveAlternates alternates
    .ok (.conditional test consequent alternates span)
  | .caseOf subject branches span => do
    let branches ← l.resolveBranches branches
    .ok (.caseOf subject branches span)
  | .code value kind block span => do
    let block ← l.resolveNodes block
    .ok (.code value kind block span)
  | .group nodes span => do
    let nodes ← l.resolveNodes nodes
    .ok (.group nodes span)
  | .namedBlock name mode nodes span => do
    let nodes ← l.resolveNodes nodes
    .ok (.namedBlock name mode nodes span)
  | .each collection item key body span => do
    let body ← l.resolveNodes body
    .ok (.each collection item key body span)
  | .whileLoop test body span => do
    let body ← l.resolveNodes body
    .ok (.whileLoop test body span)
  | .mixinDefinition name arguments body span => do
    let body ← l.resolveNodes body
    .ok (.mixinDefinition name arguments body span)
  | .mixinCall name arguments attributes spreads block span => do
    let block ← l.resolveNodes block
    .ok (.mixinCall name arguments attributes spreads block span)
  | .tag name attributes spreads children selfClosing span => do
    let children ← l.resolveNodes children
    .ok (.tag name attributes spreads children selfClosing span)
  | .text value span => .ok (.text value span)
  | .comment value buffer span => .ok (.comment value buffer span)
  | .doctype value span => .ok (.doctype value span)
  | .mixinBlock span => .ok (.mixinBlock span)
  | .interpolatedTag expression span => .ok (.interpolatedTag expression span)
  | .filter name body span => .ok (.filter name body span)

/-- Looks up the references of nodes. -/
def resolveNodes (l : Lookup) : List Node → Except LoadError (List Node)
  | [] => .ok []
  | node :: rest => do
    let node ← l.resolveNode node
    let rest ← l.resolveNodes rest
    .ok (node :: rest)

/-- Looks up the references in the further branches of a conditional. -/
def resolveAlternates (l : Lookup) : List Alternate → Except LoadError (List Alternate)
  | [] => .ok []
  | .orElse nodes span :: rest => do
    let nodes ← l.resolveNodes nodes
    let rest ← l.resolveAlternates rest
    .ok (.orElse nodes span :: rest)
  | .orIf test nodes span :: rest => do
    let nodes ← l.resolveNodes nodes
    let rest ← l.resolveAlternates rest
    .ok (.orIf test nodes span :: rest)

/-- Looks up the references in the branches of a `case`. -/
def resolveBranches (l : Lookup) : List Branch → Except LoadError (List Branch)
  | [] => .ok []
  | .bare test span :: rest => do
    let rest ← l.resolveBranches rest
    .ok (.bare test span :: rest)
  | .block test nodes span :: rest => do
    let nodes ← l.resolveNodes nodes
    let rest ← l.resolveBranches rest
    .ok (.block test nodes span :: rest)

end

end Lookup

/-- A template that was read, with its references looked up. -/
structure LoadedFile where
  path : String
  source : String
  document : Document

/-- Loads a template from files. -/
def loadFrom (files : FileSystem) (path : String) (baseDirectory : Option String) :
    Except LoadError LoadedFile :=
  match files.read path with
  | .error e => .error (.unreadable path e)
  | .ok source =>
    let (document, faults) := Document.parse source
    if !faults.isEmpty then .error (.faulty path source faults)
    else do
      let nodes ← (Lookup.ofFile files path baseDirectory).resolveNodes document.nodes
      .ok ⟨path, source, { document with nodes := nodes }⟩

/-- Loads a template from a tree. -/
def load (tree : FileTree) (path : String) (baseDirectory : Option String) :
    Except LoadError LoadedFile :=
  loadFrom (.ofTree tree) path baseDirectory

end PugComponents.Project
