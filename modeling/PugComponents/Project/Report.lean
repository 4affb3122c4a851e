import PugComponents.Json.Writer
import PugComponents.Project.Arguments
import PugComponents.Project.Batch

/- Reports: what a run tells about each template, and the summary. -/
namespace PugComponents.Project

open Component (Warning)
open Text
open Json (Value)

/-- A warning with its position. -/
structure WarningReport where
  code : String
  message : String
  position : Position
  deriving DecidableEq, Repr

/-- The warning of a template with these lines. -/
def WarningReport.ofWarning (index : LineIndex) (w : Warning) : WarningReport :=
  ⟨w.code, w.message, index.position w.span.start⟩

/-- What is told about a template. -/
structure FileReport where
  path : String
  /-- Where the module was written. -/
  output : Option String
  warnings : List WarningReport
  error : Option ConvertError

namespace FileReport

/-- The report of a converted template. -/
def converted (path : String) (output : Option String) (c : Converted) : FileReport :=
  let index := LineIndex.ofText c.source.toList
  ⟨path, output, c.result.warnings.map (.ofWarning index), none⟩

/-- The report of a template that failed. -/
def failed (path : String) (e : ConvertError) : FileReport := ⟨path, none, [], some e⟩

end FileReport

/-- The totals of a run. -/
structure Summary where
  files : Nat
  failures : Nat
  warnings : Nat
  failOnWarnings : Bool
  deriving DecidableEq, Repr

/-- A number of things. -/
def counted (n : Nat) (word : String) : String :=
  toString n ++ " " ++ if n == 1 then word else word ++ "s"

namespace Summary

/-- The run counts as failed. -/
def shouldFail (s : Summary) : Bool := s.failures > 0 || (s.warnings > 0 && s.failOnWarnings)

/-- The wording of a summary. -/
def render (s : Summary) : String :=
  "====================================\npug-to-jsx converted " ++ toString (s.files - s.failures) ++
    " of " ++ counted s.files "file" ++ ", " ++ counted s.failures "failure" ++ " and " ++
    counted s.warnings "warning"

end Summary

/-- A warning for readers. -/
def WarningReport.render (path : String) (w : WarningReport) : String :=
  path ++ ":" ++ w.position.render ++ "\nWarning: " ++ w.message ++ " (" ++ w.code ++ ")\n\n"

/-- A failure for readers. A failure with a place in the template is drawn; a mark stands for the
drawing. -/
def ConvertError.render : ConvertError → String
  | .load (.unreadable path e) => "Error: " ++ (LoadError.unreadable path e).message ++ "\n"
  | .load (.unresolved file reference candidate span) =>
    "Error: " ++ (LoadError.unresolved file reference candidate span).message ++ "\n"
  | .load (.faulty ..) | .failure .. => "<snippet>\n"

/-- A report for readers. -/
def humanReport (reports : List FileReport) (s : Summary) : String :=
  joinWith "" (reports.flatMap fun r => r.warnings.map (·.render r.path)) ++
    joinWith "" (reports.filterMap fun r => r.error.map fun e => e.render ++ "\n") ++
    s.render ++ "\n"

/-- A warning for programs. -/
def WarningReport.value (w : WarningReport) : Value :=
  Json.fields [("code", Json.text w.code), ("severity", Json.text "warning"),
    ("message", Json.text w.message), ("line", Json.count w.position.line),
    ("column", Json.count w.position.column)]

/-- A member that may be missing. -/
def optionalMember (key : String) (value : Option String) : List (String × Value) :=
  match value with
  | some s => [(key, Json.text s)]
  | none => []

/-- The report of a template for programs. -/
def FileReport.value (r : FileReport) : Value :=
  Json.fields ([("path", Json.text r.path)] ++ optionalMember "output" r.output ++
    [("warnings", .array (r.warnings.map (·.value)))] ++
    optionalMember "error" (r.error.map (·.message)))

/-- A report for programs. -/
def jsonReport (reports : List FileReport) (s : Summary) : String :=
  (Json.fields [("files", .array (reports.map (·.value))),
    ("summary", Json.fields [("fileCount", Json.count s.files),
      ("failureCount", Json.count s.failures), ("warningCount", Json.count s.warnings)])]).pretty

/-- A report in a form. -/
def report (format : ReportFormat) (reports : List FileReport) (s : Summary) : String :=
  match format with
  | .human => humanReport reports s
  | .json => jsonReport reports s

end PugComponents.Project
