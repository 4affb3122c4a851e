import PugComponents.Component.Journal
import PugComponents.Template.Node
import PugComponents.Text.Bracket
import PugComponents.Text.Split

/- Attributes of elements. The class attribute has another name in markup, a
   style that is written as a string literal becomes an object of its
   declarations, and every other value is an expression. -/
namespace PugComponents.Component

open Text
open Jsx (Expr Property)
open Script (SnippetReader)
open Template (Span Spread)

/-- Reads an expression that stands at a span. -/
def readExpression (reader : SnippetReader) (source : String) (span : Span) : Lower Expr :=
  match reader.expression source with
  | .ok e => pure (.embedded e)
  | .error e => .fail (.script source e span)

/-- The name of an attribute in markup. -/
def attributeName (name : String) : String := if name == "class" then "className" else name

/-- What a string literal encloses, if the text is one literal without its quote inside. -/
def unquoted? (text : List Char) : Option (List Char) :=
  match text with
  | [] => none
  | quote :: rest =>
    if isQuote quote then
      match dropSuffix? [quote] rest with
      | some inner => if inner.contains quote then none else some inner
      | none => none
    else none

/-- A quote of an attribute value or a key. -/
def isKeyQuote (c : Char) : Bool := c == '\'' || c == '"'

/-- A key without the quotes around it. -/
def trimQuotes (key : List Char) : List Char :=
  ((key.dropWhile isKeyQuote).reverse.dropWhile isKeyQuote).reverse

/-- A style declaration as a property. A part without a colon or without a key is none. -/
def declaration? (text : List Char) : Option Property :=
  match cutAtChar? ':' text with
  | none => none
  | some (key, value) =>
    match trimQuotes (trim key) with
    | [] => none
    | key => some (.mk (String.ofList key) (.str (String.ofList (trim value))))

/-- The object of a list of style declarations. -/
def styleObject (declarations : List Char) : Expr :=
  .object ((splitAtChar ';' declarations).filterMap declaration?)

/-- The declarations of a style that is written as a string literal without a brace. -/
def styleLiteral? (name source : String) : Option (List Char) :=
  if name == "style" && !source.toList.contains '\x7b' then unquoted? (trim source.toList) else none

/-- The attribute of an element. -/
def lowerAttribute (reader : SnippetReader) (a : Template.Attribute) : Lower Jsx.Attribute :=
  match a.value with
  | .flag => pure (.flag (attributeName a.name))
  | .expression source =>
    match styleLiteral? a.name source with
    | some declarations => pure (.value (attributeName a.name) (styleObject declarations))
    | none => do
      let e ← readExpression reader source a.span
      pure (.value (attributeName a.name) e)

/-- A spread of an element. -/
def lowerSpread (reader : SnippetReader) (s : Spread) : Lower Jsx.Attribute := do
  let e ← readExpression reader s.value s.span
  pure (.spread e)

/-- The attributes of an element, then its spreads. -/
def lowerAttributes (reader : SnippetReader) (attributes : List Template.Attribute)
    (spreads : List Spread) : Lower (List Jsx.Attribute) := do
  let first ← attributes.mapM (lowerAttribute reader)
  let second ← spreads.mapM (lowerSpread reader)
  pure (first ++ second)

end PugComponents.Component
