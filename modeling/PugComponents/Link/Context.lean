import PugComponents.Distinct
import PugComponents.Link.Reference

/- The part that a file takes in the composition of blocks. A file that declares
   blocks and extends nothing is a layout: it renders a slot for each block. A
   file that extends a layout and has blocks at its top level fills the slots. -/
namespace PugComponents.Link

open Template

/-- How a file takes part in composition. -/
inductive Role
  | standalone
  | layout
  /-- Fills the slots of the component `base`. -/
  | slotFiller (base : String)
  deriving DecidableEq, Repr

/-- What is known of a file when others are linked with it. -/
structure FileContext where
  path : String
  /-- The exported component. -/
  identifier : String
  /-- The names of the declared blocks, in order and without repetitions. -/
  slots : List String
  role : Role
  deriving DecidableEq, Repr

mutual

/-- The names of the blocks that a node declares, in order. Blocks in mixins and loops with a test
do not count. -/
def blockNames : Node → List String
  | .namedBlock name _ nodes _ => name :: blockNamesOf nodes
  | .tag _ _ _ children _ _ => blockNamesOf children
  | .group nodes _ => blockNamesOf nodes
  | .each _ _ _ body _ => blockNamesOf body
  | .conditional _ consequent alternates _ =>
    blockNamesOf consequent ++ blockNamesOfAlternates alternates
  | .caseOf _ branches _ => blockNamesOfBranches branches
  | _ => []

/-- The names of the blocks that a list of nodes declares. -/
def blockNamesOf : List Node → List String
  | [] => []
  | node :: rest => blockNames node ++ blockNamesOf rest

/-- The names of the blocks in the further branches of a conditional, which end with an `else`. -/
def blockNamesOfAlternates : List Alternate → List String
  | [] => []
  | .orElse nodes _ :: _ => blockNamesOf nodes
  | .orIf _ nodes _ :: rest => blockNamesOf nodes ++ blockNamesOfAlternates rest

/-- The names of the blocks in the branches of a `case`. -/
def blockNamesOfBranches : List Branch → List String
  | [] => []
  | .bare .. :: rest => blockNamesOfBranches rest
  | .block _ nodes _ :: rest => blockNamesOf nodes ++ blockNamesOfBranches rest

end

/-- The slots of a document. -/
def slotsOf (d : Document) : List String := distinct (blockNamesOf d.nodes)

/-- The role of a document. -/
def roleOf (d : Document) : Role :=
  match d.layout? with
  | some file => if d.namedBlocks.isEmpty then .standalone else .slotFiller (importOf file).name
  | none => if (slotsOf d).isEmpty then .standalone else .layout

namespace FileContext

/-- The context of a document that exports a component. -/
def scan (path identifier : String) (d : Document) : FileContext :=
  ⟨path, identifier, slotsOf d, roleOf d⟩

/-- The context of a template file. -/
def ofFile (path : String) (d : Document) : FileContext := scan path (componentName path) d

/-- The component that receives slots; only a layout has one. -/
def moduleName? (c : FileContext) : Option String :=
  match c.role with
  | .layout => some c.identifier
  | _ => none

/-- The component whose slots are filled. -/
def baseModuleName? (c : FileContext) : Option String :=
  match c.role with
  | .slotFiller base => some base
  | _ => none

end FileContext

end PugComponents.Link
