import PugComponents.Component.Attribute
import PugComponents.Link.Reference

/- Lowering: template nodes become targets, children before parents. Conditions
   become conditional expressions, a `case` becomes a `switch` in a function that
   is called on the spot, a loop over a collection becomes a call of `map`. A list
   of targets is read in one of two ways. As children, each target is a child, and
   from the first statement on the rest moves into a function that is called on the
   spot. As a body, the leading statements come first and what renders is returned.
   Imports are taken out in both. -/
namespace PugComponents.Component

open Text
open Jsx (Expr Stmt SwitchCase Markup Param)
open Link (importOf slotName)
open Script (SnippetReader EmbeddedStatement)
open Template (Node Branch Alternate CodeKind mixinParameters isBlankText)

/-- What lowering depends on. -/
structure Setting where
  reader : SnippetReader
  /-- Named blocks are rendered as slots. -/
  layout : Bool

/-- The value of a branch: a fragment, or `null` if nothing renders. -/
def branchValue (children : List Jsx.Child) : Expr :=
  if children.isEmpty then .null else .fragment children

/-- A fragment around the call of `map` with a function of the item and perhaps its key. -/
def mapCall (collection : Expr) (item : String) (key : Option String) (children : List Jsx.Child) :
    Markup :=
  .fragment [.container (.call (.member collection "map")
    [.arrow (Param.ident item :: key.toList.map Param.ident) (.fragment children)])]

/-- A fragment around a `switch`. -/
def switchCall (subject : Expr) (cases : List SwitchCase) : Markup :=
  .fragment [.container (.invoked [.switch subject cases])]

/-- The name that a mixin is bound to. -/
def mixinName (name : String) : String := if isIdentifier name.toList then name else bindingName name

/-- A statement of a snippet. -/
def embeddedStatement : EmbeddedStatement → Stmt
  | .expression e => .expression (.embedded e)
  | .other source => .raw source

/-- The slot of a layout; its content is rendered if nothing fills the slot. -/
def slot (name : String) (fallback : Option (List Jsx.Child)) : Target :=
  match fallback with
  | none => .child (.markup (.selfClosing name))
  | some children =>
    .child (.container
      (.conditional (.ident name) (.markup (.selfClosing name)) (.fragment children)))

mutual

/-- Targets as the children of markup. -/
def asChildren : List Target → Lower (List Jsx.Child)
  | [] => pure []
  | .child c :: rest => do
    let children ← asChildren rest
    pure (c :: children)
  | .bare e :: rest => do
    let children ← asChildren rest
    pure (.container e :: children)
  | .placeholder :: rest => do
    let children ← asChildren rest
    pure (.text " " :: children)
  | .imported i :: rest => do
    Lower.hoist i
    asChildren rest
  | .statement s :: rest => do
    let body ← asBody rest
    pure [.container (.invoked (s :: body))]

/-- Targets as the body of a function: leading statements, then the return of the other targets as
a fragment, or of `null`. -/
def asBody : List Target → Lower (List Stmt)
  | [] => pure [.result .null]
  | .statement s :: rest => do
    let body ← asBody rest
    pure (s :: body)
  | .imported i :: rest => do
    Lower.hoist i
    asBody rest
  | .placeholder :: rest => asBody rest
  | .child c :: rest => do
    let children ← asChildren rest
    pure [.result (.fragment (c :: children))]
  | .bare e :: rest => do
    let children ← asChildren rest
    pure [.result (.fragment (.container e :: children))]

end

/-- Lowers script. -/
def lowerCode (setting : Setting) (value : String) (kind : CodeKind) (block : List Node)
    (span : Template.Span) : Lower Lowered :=
  if !block.isEmpty then .fail (.unsupported "CodeBlock" span)
  else if kind = .run then
    match setting.reader.statements value with
    | .ok statements => pure (.many (statements.map fun s => .statement (embeddedStatement s)))
    | .error e => .fail (.script value e span)
  else do
    let e ← readExpression setting.reader value span
    pure (.one (.child (.container e)))

/-- Reads the test of a branch, if it has one. -/
def readTest (reader : SnippetReader) (test : Option String) (span : Template.Span) :
    Lower (Option Expr) :=
  match test with
  | none => pure none
  | some source => do
    let e ← readExpression reader source span
    pure (some e)

/-- The case of a branch. -/
def switchCase (test : Option Expr) (body : List Stmt) : SwitchCase :=
  match test with
  | none => .otherwise body
  | some e => .test e body

/-- Warns of a construct that is skipped. -/
def skipped (cause : WarningCause) (span : Template.Span) : Lower Lowered := do
  Lower.warn cause span
  pure .nothing

mutual

/-- Lowers a node; `top` at the top level of a file. -/
def lowerNode (setting : Setting) (top : Bool) : Node → Lower Lowered
  | .text value _ =>
    pure (.one (if isBlankText value then .placeholder else .child (.text value)))
  | .code value kind block span => lowerCode setting value kind block span
  | .group nodes _ => do
    let targets ← lowerNodes setting false nodes
    pure (.many targets)
  | .namedBlock name _ nodes _ =>
    if !setting.layout then do
      let targets ← lowerNodes setting false nodes
      pure (.many targets)
    else if nodes.isEmpty then pure (.one (slot (slotName name) none))
    else do
      let targets ← lowerNodes setting false nodes
      let children ← asChildren targets
      pure (.one (slot (slotName name) (some children)))
  | .comment .. => pure (.one .placeholder)
  | .doctype .. => pure .nothing
  | .caseOf subject branches span => do
    let value ← readExpression setting.reader subject span
    let cases ← lowerBranches setting branches
    pure (.one (.child (.markup (switchCall value cases))))
  | .conditional test consequent alternates span => do
    let value ← readExpression setting.reader test span
    let targets ← lowerNodes setting false consequent
    let children ← asChildren targets
    let other ← lowerAlternates setting alternates
    pure (.one (.bare (.conditional value (branchValue children) other)))
  | .each collection item key body span => do
    let value ← readExpression setting.reader collection span
    let targets ← lowerNodes setting false body
    let children ← asChildren targets
    pure (.one (.child (.markup (mapCall value item key children))))
  | .mixinCall name _ _ _ _ span => skipped (.mixinCall name) span
  | .mixinDefinition name arguments body _ => do
    let targets ← lowerNodes setting false body
    let stmts ← asBody targets
    let params := (mixinParameters arguments).map Param.ident
    pure (.one (.statement (.binding (mixinName name) (.blockArrow params stmts))))
  | .tag name attributes spreads children selfClosing _ => do
    let attributes ← lowerAttributes setting.reader attributes spreads
    let targets ← lowerNodes setting false children
    let children ← asChildren targets
    pure (.one (.child (.markup (.element name attributes children selfClosing))))
  | .interpolatedTag expression span => do
    let value ← readExpression setting.reader expression span
    pure (.one (.child (.container value)))
  | .includeFile file column span =>
    if top && column == 1 then pure (.one (.imported (importOf file)))
    else skipped (.includePosition file.path) span
  | .rawInclude file span => skipped (.rawInclude file.path) span
  | .extendsFile file _ => pure (.one (.imported (importOf file)))
  | .whileLoop test body span => .fail (.unsupported (Node.whileLoop test body span).kind span)
  | .mixinBlock span => .fail (.unsupported (Node.mixinBlock span).kind span)
  | .filter name body span => .fail (.unsupported (Node.filter name body span).kind span)

/-- Lowers a list of nodes; what several targets replace is spliced in. -/
def lowerNodes (setting : Setting) (top : Bool) : List Node → Lower (List Target)
  | [] => pure []
  | node :: rest => do
    let lowered ← lowerNode setting top node
    Lower.note (.lowered node.kind lowered.describe)
    let more ← lowerNodes setting top rest
    pure (lowered.targets ++ more)

/-- Lowers the further branches of a conditional to the value they have together. -/
def lowerAlternates (setting : Setting) : List Alternate → Lower Expr
  | [] => pure .null
  | .orElse nodes _ :: _ => do
    let targets ← lowerNodes setting false nodes
    let children ← asChildren targets
    pure (branchValue children)
  | .orIf test nodes span :: rest => do
    let value ← readExpression setting.reader test span
    let targets ← lowerNodes setting false nodes
    let children ← asChildren targets
    let other ← lowerAlternates setting rest
    pure (.conditional value (branchValue children) other)

/-- Lowers the branches of a `case`. A branch without a block falls through. -/
def lowerBranches (setting : Setting) : List Branch → Lower (List SwitchCase)
  | [] => pure []
  | .bare test span :: rest => do
    let value ← readTest setting.reader test span
    let more ← lowerBranches setting rest
    pure (switchCase value [] :: more)
  | .block test nodes span :: rest => do
    let value ← readTest setting.reader test span
    let targets ← lowerNodes setting false nodes
    let body ← asBody targets
    let more ← lowerBranches setting rest
    pure (switchCase value body :: more)

end

end PugComponents.Component
