import PugComponents.Component.Assembly
import PugComponents.Jsx.Printer
import PugComponents.Link.Registry

/- Conversion of one document into the text of a module. -/
namespace PugComponents.Component

open Jsx (Program)
open Link (FileContext Registry)
open Script (SnippetReader)
open Template (Document)

/-- A converted document. -/
structure Module where
  program : Program
  /-- The text of the module. -/
  code : String
  warnings : List Warning
  context : FileContext

/-- The context of a document; without a file it exports a component called `Template`. -/
def contextOf (file : Option String) (d : Document) : FileContext :=
  match file with
  | some path => .ofFile path d
  | none => .scan "" "Template" d

/-- The registry with a document's file recorded, if it has one. -/
def recordIn (registry : Registry) (file : Option String) (d : Document) : Registry :=
  match file with
  | some _ => registry.insert (contextOf file d)
  | none => registry

/-- Converts a document. -/
def convert (reader : SnippetReader) (file : Option String) (d : Document) : Lower Module :=
  let context := contextOf file d
  let program := assemble reader context d
  ⟨program.journal, program.result.map fun p => ⟨p, p.render, program.journal.warnings, context⟩⟩

/-- Records a document and converts it. The record stays, whatever comes of the conversion. -/
def transform (reader : SnippetReader) (file : Option String) (d : Document) :
    StateM Registry (Lower Module) := do
  modify fun registry => recordIn registry file d
  return convert reader file d

end PugComponents.Component
