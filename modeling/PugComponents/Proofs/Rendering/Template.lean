import PugComponents.Component.Lowering
import PugComponents.Proofs.Rendering.Markup

/- What a template renders. Text and buffered code render themselves, comments
   and document types nothing, a tag its element; groups stand for their nodes,
   and so do named blocks outside a layout. A chain of conditions renders the
   first branch whose test holds. A `case` renders the first block at or after
   the first branch that matches, or else at or after the default. A loop
   renders its body once per item. Statements and mixins are declarations, which
   are seen by the nodes after them in the same list; a list that stands under a
   tag, a branch or a loop keeps its declarations to itself. -/
namespace PugComponents.Rendering

open Component (Setting attributeName styleLiteral? styleObject mixinName)
open Jsx (Param)
open Link (slotName)
open Script (EmbeddedStatement SnippetReader)
open Template

variable {Env Value : Type}

/-- The environment after a statement of a snippet. -/
def runEmbedded (ev : Evaluation Env Value) (env : Env) : EmbeddedStatement → Env
  | .expression e => ev.run env e.source
  | .other source => ev.run env source

/-- The environment after the statements of a snippet. -/
def runScript (ev : Evaluation Env Value) (reader : SnippetReader) (env : Env) (source : String) :
    Env :=
  match reader.statements source with
  | .ok statements => statements.foldl (runEmbedded ev) env
  | .error _ => env

/-- An attribute of a tag, as its element has it. -/
def renderAttribute (ev : Evaluation Env Value) (env : Env) (a : Template.Attribute) :
    RenderedAttribute Value :=
  match a.value with
  | .flag => .flag (attributeName a.name)
  | .expression source =>
    match styleLiteral? a.name source with
    | some declarations => .value (attributeName a.name) (evalExpr ev (styleObject declarations) env)
    | none => .value (attributeName a.name) (.value (ev.value env source))

/-- A spread of a tag, as its element has it. -/
def renderSpread (ev : Evaluation Env Value) (env : Env) (s : Spread) : RenderedAttribute Value :=
  .spread (.value (ev.value env s.value))

/-- A branch of a `case`: the value of its test, none for the default, and what its block renders,
if it has one. -/
structure Choice (Value : Type) where
  test : Option Value
  block : Option (List (Piece Value))

/-- What the first block renders. -/
def firstBlock (choices : List (Choice Value)) : List (Piece Value) :=
  (choices.findSome? (·.block)).getD []

/-- What a `case` renders: the first block from the first branch that matches on, or else from the
default on. -/
def chosen (ev : Evaluation Env Value) (subject : Value) (choices : List (Choice Value)) :
    List (Piece Value) :=
  match choices.dropWhile fun c => !c.test.any (ev.same subject) with
  | [] => firstBlock (choices.dropWhile (·.test.isSome))
  | matched => firstBlock matched

/-- The environment of a loop's body. -/
def bindItem (ev : Evaluation Env Value) (env : Env) (item : String) (key : Option String)
    (v : Value) (i : Nat) : Env :=
  let env := ev.define env item (.value v)
  match key with
  | none => env
  | some key => ev.define env key (.value (ev.index i))

/-- The element of a slot. -/
def slotElement (name : String) : Piece Value := .element (slotName name) [] []

/-- What a slot of a layout renders: the component that fills it, or else its content. A slot
without content is always filled. -/
def renderSlot (ev : Evaluation Env Value) (env : Env) (name : String) (empty : Bool)
    (content : List (Piece Value)) : List (Piece Value) :=
  if empty || ev.truthy (ev.value env (slotName name)) then [slotElement name] else content

mutual

/-- What a node renders, and the environment after it. -/
def renderNode (ev : Evaluation Env Value) (setting : Setting) :
    Node → Env → List (Piece Value) × Env
  | .text value _, env => ([.text value], env)
  | .code value kind _ _, env =>
    if kind = .run then ([], runScript ev setting.reader env value)
    else ([.value (ev.value env value)], env)
  | .group nodes _, env => renderNodes ev setting nodes env
  | .namedBlock name _ nodes _, env =>
    if setting.layout then
      (renderSlot ev env name nodes.isEmpty (renderNodes ev setting nodes env).1, env)
    else renderNodes ev setting nodes env
  | .caseOf subject branches _, env =>
    (chosen ev (ev.value env subject) (choicesOf ev setting branches env), env)
  | .conditional test consequent alternates _, env =>
    (if ev.truthy (ev.value env test) then (renderNodes ev setting consequent env).1
     else renderAlternates ev setting alternates env, env)
  | .each collection item key body _, env =>
    ((ev.items (ev.value env collection)).zipIdx.flatMap fun (v, i) =>
      (renderNodes ev setting body (bindItem ev env item key v i)).1, env)
  | .mixinDefinition name arguments body _, env =>
    let params := (mixinParameters arguments).map Param.ident
    let render := fun values =>
      shown (renderNodes ev setting body (ev.bindParams env params values)).1
    ([], ev.define env (mixinName name) (.function render))
  | .tag name attributes spreads children _ _, env =>
    let rendered := attributes.map (renderAttribute ev env) ++ spreads.map (renderSpread ev env)
    ([.element name rendered (renderNodes ev setting children env).1], env)
  | .interpolatedTag expression _, env => ([.value (ev.value env expression)], env)
  | .comment .., env | .doctype .., env | .mixinCall .., env | .includeFile .., env
  | .rawInclude .., env | .extendsFile .., env => ([], env)
  -- A document with one of these has no component.
  | .whileLoop .., env | .mixinBlock .., env | .filter .., env => ([], env)

/-- What nodes render one after another, and the environment after them. -/
def renderNodes (ev : Evaluation Env Value) (setting : Setting) :
    List Node → Env → List (Piece Value) × Env
  | [], env => ([], env)
  | node :: rest, env =>
    let first := renderNode ev setting node env
    let more := renderNodes ev setting rest first.2
    (first.1 ++ more.1, more.2)

/-- What the further branches of a condition render. -/
def renderAlternates (ev : Evaluation Env Value) (setting : Setting) :
    List Alternate → Env → List (Piece Value)
  | [], _ => []
  | .orElse nodes _ :: _, env => (renderNodes ev setting nodes env).1
  | .orIf test nodes _ :: rest, env =>
    if ev.truthy (ev.value env test) then (renderNodes ev setting nodes env).1
    else renderAlternates ev setting rest env

/-- The branches of a `case`. -/
def choicesOf (ev : Evaluation Env Value) (setting : Setting) :
    List Branch → Env → List (Choice Value)
  | [], _ => []
  | .bare test _ :: rest, env => ⟨test.map (ev.value env), none⟩ :: choicesOf ev setting rest env
  | .block test nodes _ :: rest, env =>
    ⟨test.map (ev.value env), some (renderNodes ev setting nodes env).1⟩ ::
      choicesOf ev setting rest env

end

end PugComponents.Rendering
