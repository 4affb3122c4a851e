import PugComponents.Jsx.Tree
import PugComponents.Template.Node
import PugComponents.Text.Identifier

/- References between files: which component a file exports, and which import a
   reference to another file stands for. -/
namespace PugComponents.Link

open Text
open Jsx (Import)
open Template (FileReference)

/-- A path without the extension of templates at its end. -/
def withoutExtension (path : String) : String :=
  match dropSuffix? ".pug".toList path.toList with
  | some front => String.ofList front
  | none => path

/-- What follows the last slash of a path, without the extension of templates. -/
def baseName (path : String) : String :=
  String.ofList ((splitAtChar '/' (withoutExtension path).toList).getLast?.getD [])

/-- The name of the component that a template file exports. -/
def componentName (path : String) : String := bindingName (baseName path)

/-- The name of the component that fills a block. -/
def slotName (block : String) : String := bindingName block

/-- The import that a reference stands for. -/
def importOf (reference : FileReference) : Import :=
  ⟨componentName reference.path, withoutExtension reference.path⟩

end PugComponents.Link
