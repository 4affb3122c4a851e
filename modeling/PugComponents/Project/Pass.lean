import PugComponents.Project.Discovery
import PugComponents.Project.Report
import PugComponents.Project.Settings

/- A pass: all templates of a project are converted, and then the modules are
   written or printed. A run reads its arguments and the project file before
   it, and reports after it. -/
namespace PugComponents.Project

open Files
open Script (SnippetReader)

/-- Why a run ends early. -/
inductive RunError
  | arguments (e : ArgumentError)
  | config (e : ConfigError)
  | glob (e : GlobError)
  | unwritable (path : String) (error : FileError)

/-- What a pass does. -/
structure Pass where
  reports : List FileReport
  summary : Summary
  /-- The modules, if they are printed and not written. -/
  printed : String

/-- Where the module of a template is written. -/
def outputPath (s : Settings) (t : TemplateFile) : String :=
  let base :=
    match s.outDirectory with
    | some directory => Path.join directory t.relative
    | none => t.path
  Path.withExtension base (String.ofList (s.extension.toList.dropWhile (· == '.')))

/-- Writes a module with the directories on the way to it. -/
def writeModule (tree : FileTree) (path code : String) : Except FileError FileTree := do
  let ready ←
    match Path.parent? path with
    | some parent => tree.makeDirectories parent
    | none => .ok tree
  ready.write path code

/-- A module as it is printed. -/
def printedModule (path code : String) : String := "// " ++ path ++ "\n" ++ code ++ "\n"

/-- The tree after a delivery, and the reports and printed modules or the reason why it ended
early. -/
abbrev Delivery := FileTree × Except RunError (List FileReport × String)

/-- Adds a report and a printed module in front. -/
def Delivery.cons (r : FileReport) (code : String) (d : Delivery) : Delivery :=
  (d.1, d.2.map fun (reports, printed) => (r :: reports, code ++ printed))

/-- Writes or prints the modules of templates. The first module that cannot be written ends the
pass; the modules before it stay. -/
def deliver (s : Settings) (batch : Batch) : FileTree → List TemplateFile → Delivery
  | tree, [] => (tree, .ok ([], ""))
  | tree, t :: rest =>
    match batch.get? t.path with
    | none => deliver s batch tree rest
    | some (.error e) => (deliver s batch tree rest).cons (.failed t.path e) ""
    | some (.ok c) =>
      if s.stdout then
        (deliver s batch tree rest).cons (.converted t.path none c)
          (printedModule t.path c.result.code)
      else
        let target := outputPath s t
        match writeModule tree target c.result.code with
        | .error e => (tree, .error (.unwritable target e))
        | .ok written => (deliver s batch written rest).cons (.converted t.path (some target) c) ""

/-- Finds, converts and delivers all templates once. -/
def runPass (tree : FileTree) (reader : SnippetReader) (patterns : PatternReader) (s : Settings) :
    FileTree × Except RunError Pass :=
  match patterns (s.ignore ++ standardIgnores) with
  | .error e => (tree, .error (.glob e))
  | .ok ignored =>
    let templates := discover tree ignored s.paths
    let batch := Batch.convert tree reader s.baseDirectory (templates.map (·.path))
    let summary : Summary :=
      ⟨templates.length, batch.failureCount, batch.warningCount, s.failOnWarnings⟩
    let delivery := deliver s batch tree templates
    (delivery.1, delivery.2.map fun (reports, printed) => ⟨reports, summary, printed⟩)

/-- The path of the working directory. -/
def workspaceOf (tree : FileTree) : String := "/" ++ Text.joinWith "/" tree.workingDirectory

/-- The settings that arguments and the project file of the working directory give. -/
def settingsOf (tree : FileTree) (arguments : List String) (workspace : String) :
    Except RunError (Arguments × Settings) :=
  match Arguments.parse arguments with
  | .error e => .error (.arguments e)
  | .ok a =>
    match Config.load tree (workspaceOf tree) with
    | .error e => .error (.config e)
    | .ok c => .ok (a, .resolve a c workspace)

/-- What a run writes to its two streams. -/
structure Output where
  stdout : String
  stderr : String
  deriving DecidableEq, Repr

/-- The output of a pass. The report makes room for printed modules. -/
def outputOf (s : Settings) (p : Pass) : Output :=
  let text := report s.format p.reports p.summary
  if s.stdout then ⟨p.printed, text⟩
  else if s.format = .json then ⟨text ++ "\n", ""⟩
  else ⟨text, ""⟩

/-- A run from its arguments to its settings and its pass. -/
def run (tree : FileTree) (reader : SnippetReader) (arguments : List String) :
    FileTree × Except RunError (Settings × Pass) :=
  match settingsOf tree arguments (workspaceOf tree) with
  | .error e => (tree, .error e)
  | .ok (_, s) =>
    let (after, pass) := runPass tree reader excludedBy s
    (after, pass.map fun p => (s, p))

/-- How the end of a run is worded; the texts of others are left out. -/
def RunError.message? : RunError → Option String
  | .config (.unreadable path e) => some ("failed to read " ++ path ++ ": " ++ e.message)
  | .unwritable path e => some ("failed to write " ++ path ++ ": " ++ e.message)
  | _ => none

end PugComponents.Project
