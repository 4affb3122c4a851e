import PugComponents.Files.Path
import PugComponents.Link.Context

/- The registry of the files that were converted together. A path is recorded
   once: later entries for the same place are ignored. -/
namespace PugComponents.Link

open Files

/-- The contexts of files in the order in which they were recorded. -/
structure Registry where
  files : List FileContext
  deriving DecidableEq, Repr

namespace Registry

/-- The registry without files. -/
def empty : Registry := ⟨[]⟩

instance : Inhabited Registry := ⟨empty⟩

/-- The context recorded for a path. -/
def get? (r : Registry) (path : String) : Option FileContext :=
  r.files.find? fun c => Path.same c.path path

/-- Records a context, unless its path is known. -/
def insert (r : Registry) (c : FileContext) : Registry :=
  if (r.get? c.path).isSome then r else ⟨r.files ++ [c]⟩

/-- The number of files. -/
def size (r : Registry) : Nat := r.files.length

end Registry

end PugComponents.Link
