import PugComponents.Component.Lowering
import PugComponents.Link.Context

/- Assembly: the targets of a file become one exported component. A file that
   fills slots declares a component for each block and renders the layout with
   them; any other file returns what it renders. -/
namespace PugComponents.Component

open Jsx (Expr Stmt Param Import Program)
open Link (FileContext slotName)
open Script (SnippetReader)
open Template (Node BlockMode Document)

/-- What a component returns: `null`, the only element or fragment, or a fragment of all. -/
def returnValue : List Jsx.Child → Expr
  | [] => .null
  | [.markup m] => .markup m
  | children => .fragment children

/-- A step with its result beside the journal it leaves. -/
def withJournal {α : Type} (x : Lower α) : Lower (α × Journal) :=
  ⟨x.journal, x.result.map fun a => (a, x.journal)⟩

/-- The parameters of a component; a layout takes its slots. -/
def paramsOf (c : FileContext) : List Param :=
  match c.role with
  | .layout => [.destructured (c.slots.map fun name => (name, slotName name))]
  | _ => []

/-- A module of the context's component. The imports of the top level come before the others. -/
def moduleOf (c : FileContext) (imports nested : List Import) (body : List Stmt) : Program :=
  ⟨distinct (imports ++ nested), c.identifier, paramsOf c, body⟩

/-- A component that returns what the document renders. -/
def assembleComponent (reader : SnippetReader) (c : FileContext) (d : Document) : Lower Program := do
  let (targets, journal) ← withJournal (lowerNodes ⟨reader, c.role = .layout⟩ true d.nodes)
  let result := returnValue (targets.filterMap Target.rendered?)
  pure (moduleOf c (importsOf targets) journal.imports
    (targets.filterMap Target.statement? ++ [.result result]))

/-- The content of a block, given the content so far. -/
def blockContent (mode : BlockMode) (new content : List Node) : List Node :=
  match mode with
  | .replace => new
  | .append => content ++ new
  | .prepend => new ++ content

/-- The contents of blocks, by name in the order of their first occurrence. -/
abbrev BlockContents := List (String × List Node)

/-- Adds a block to the contents. -/
def addBlock (name : String) (mode : BlockMode) (new : List Node) : BlockContents → BlockContents
  | [] => [(name, blockContent mode new [])]
  | (other, content) :: rest =>
    if other == name then (other, blockContent mode new content) :: rest
    else (other, content) :: addBlock name mode new rest

/-- The contents of the blocks at the top level of a document. -/
def blockContents (nodes : List Node) : BlockContents :=
  nodes.foldl (fun contents node =>
    match node with
    | .namedBlock name mode new _ => addBlock name mode new contents
    | _ => contents) []

/-- Something of a node would be rendered, though it stands outside the blocks. -/
def rendersSomething (targets : List Target) : Bool := targets.any fun t => t.rendered?.isSome

/-- Warns of a node outside blocks of which something would be rendered. -/
def warnIgnored (node : Node) (targets : List Target) : Lower Unit :=
  if rendersSomething targets then Lower.warn (.outsideBlock node.kind) node.span else pure ()

/-- The nodes outside blocks: their statements and imports count, the rest is ignored with a
warning. -/
def lowerOutside (setting : Setting) : List Node → Lower (List Target)
  | [] => pure []
  | .namedBlock .. :: rest => lowerOutside setting rest
  | node :: rest => do
    let targets ← lowerNodes setting true [node]
    warnIgnored node targets
    let more ← lowerOutside setting rest
    pure (targets ++ more)

/-- The component for a block. -/
def lowerBlock (setting : Setting) (name : String) (content : List Node) : Lower Stmt := do
  let targets ← lowerNodes setting false content
  let body ← asBody targets
  pure (.binding (slotName name) (.blockArrow [] body))

/-- The components for blocks. -/
def lowerBlocks (setting : Setting) (contents : BlockContents) : Lower (List Stmt) :=
  contents.mapM fun (name, content) => lowerBlock setting name content

/-- A component that renders a layout with the blocks of the document. -/
def assembleSlotFiller (reader : SnippetReader) (c : FileContext) (base : String) (d : Document) :
    Lower Program := do
  let setting : Setting := ⟨reader, false⟩
  let contents := blockContents d.nodes
  let ((outside, slots), journal) ← withJournal do
    let outside ← lowerOutside setting d.nodes
    let slots ← lowerBlocks setting contents
    pure (outside, slots)
  let attributes := contents.map fun (name, _) => Jsx.Attribute.value name (.ident (slotName name))
  let result := Expr.markup (.element base attributes [] true)
  pure (moduleOf c (importsOf outside) journal.imports
    (outside.filterMap Target.statement? ++ slots ++ [.result result]))

/-- The component of a document. -/
def assemble (reader : SnippetReader) (c : FileContext) (d : Document) : Lower Program :=
  match c.role with
  | .slotFiller base => assembleSlotFiller reader c base d
  | _ => assembleComponent reader c d

end PugComponents.Component
