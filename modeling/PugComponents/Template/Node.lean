import PugComponents.Template.Span
import PugComponents.Text.Bracket
import PugComponents.Text.WhiteSpace

/- The template tree. Nodes keep the script they hold as raw text. -/
namespace PugComponents.Template

open Text

/-- How a named block combines with the block it overrides. -/
inductive BlockMode
  | replace
  | append
  | prepend
  deriving DecidableEq, Repr

/-- What a code node does with its script. -/
inductive CodeKind
  /-- Runs statements. -/
  | run
  /-- Renders the value of an expression, escaped. -/
  | escaped
  /-- Renders the value of an expression as it is. -/
  | unescaped
  deriving DecidableEq, Repr

/-- The value of an attribute. -/
inductive AttributeValue
  /-- The attribute is only named. -/
  | flag
  /-- A raw expression. -/
  | expression (source : String)
  deriving DecidableEq, Repr

/-- An attribute of a tag or a mixin call. -/
structure Attribute where
  name : String
  value : AttributeValue
  /-- Written with `=`; with `!=` the value is not escaped. -/
  escaped : Bool
  span : Span
  deriving DecidableEq, Repr

/-- An `&attributes(…)` spread. -/
structure Spread where
  value : String
  span : Span
  deriving DecidableEq, Repr

/-- A reference to another file. -/
structure FileReference where
  /-- As written. -/
  path : String
  /-- The file found, once the reference is resolved. -/
  resolved : Option String := none
  deriving DecidableEq, Repr

mutual

/-- A node of the template tree. -/
inductive Node
  | text (value : String) (span : Span)
  /-- Script; only statements can have nodes under them. -/
  | code (value : String) (kind : CodeKind) (block : List Node) (span : Span)
  /-- An anonymous group of nodes. -/
  | group (nodes : List Node) (span : Span)
  | namedBlock (name : String) (mode : BlockMode) (nodes : List Node) (span : Span)
  /-- A comment; `buffer` if it was meant to be rendered. -/
  | comment (value : String) (buffer : Bool) (span : Span)
  | doctype (value : String) (span : Span)
  | caseOf (subject : String) (branches : List Branch) (span : Span)
  /-- A test with what follows it in the same chain. -/
  | conditional (test : String) (consequent : List Node) (alternates : List Alternate) (span : Span)
  | each (collection item : String) (key : Option String) (body : List Node) (span : Span)
  | whileLoop (test : String) (body : List Node) (span : Span)
  | mixinDefinition (name : String) (arguments : Option String) (body : List Node) (span : Span)
  | mixinCall (name : String) (arguments : Option String) (attributes : List Attribute)
      (spreads : List Spread) (block : List Node) (span : Span)
  /-- The place in a mixin where the block of a call goes. -/
  | mixinBlock (span : Span)
  | tag (name : String) (attributes : List Attribute) (spreads : List Spread) (children : List Node)
      (selfClosing : Bool) (span : Span)
  /-- A tag whose name is an expression. -/
  | interpolatedTag (expression : String) (span : Span)
  /-- A reference to a template, with the column it is written in. -/
  | includeFile (file : FileReference) (column : Nat) (span : Span)
  /-- A reference to a file that is no template. -/
  | rawInclude (file : FileReference) (span : Span)
  | extendsFile (file : FileReference) (span : Span)
  | filter (name body : String) (span : Span)

/-- A branch of a `case`; without a test it is the default. -/
inductive Branch
  /-- Falls through to the next branch. -/
  | bare (test : Option String) (span : Span)
  | block (test : Option String) (nodes : List Node) (span : Span)

/-- A further branch of a conditional. -/
inductive Alternate
  | orElse (nodes : List Node) (span : Span)
  | orIf (test : String) (nodes : List Node) (span : Span)

end

instance : Inhabited Node := ⟨.text "" ⟨0, 0⟩⟩

namespace Node

/-- The name of a node's kind. -/
def kind : Node → String
  | text .. => "Text"
  | code .. => "Code"
  | group .. => "Block"
  | namedBlock .. => "NamedBlock"
  | comment .. => "Comment"
  | doctype .. => "Doctype"
  | caseOf .. => "Case"
  | conditional .. => "Conditional"
  | each .. => "Each"
  | whileLoop .. => "While"
  | mixinDefinition .. => "Mixin"
  | mixinCall .. => "Mixin"
  | mixinBlock .. => "MixinBlock"
  | tag .. => "Tag"
  | interpolatedTag .. => "InterpolatedTag"
  | includeFile .. => "Include"
  | rawInclude .. => "RawInclude"
  | extendsFile .. => "Extends"
  | filter .. => "Filter"

/-- Where a node stands in the source. -/
def span : Node → Span
  | text _ s => s
  | code _ _ _ s => s
  | group _ s => s
  | namedBlock _ _ _ s => s
  | comment _ _ s => s
  | doctype _ s => s
  | caseOf _ _ s => s
  | conditional _ _ _ s => s
  | each _ _ _ _ s => s
  | whileLoop _ _ s => s
  | mixinDefinition _ _ _ s => s
  | mixinCall _ _ _ _ _ s => s
  | mixinBlock s => s
  | tag _ _ _ _ _ s => s
  | interpolatedTag _ s => s
  | includeFile _ _ s => s
  | rawInclude _ s => s
  | extendsFile _ s => s
  | filter _ _ s => s

/-- Adds nodes at the end of the list that a node owns; a node that owns none stays as it is. -/
def addChildren (new : List Node) : Node → Node
  | code v k block s => code v k (block ++ new) s
  | group nodes s => group (nodes ++ new) s
  | namedBlock n m nodes s => namedBlock n m (nodes ++ new) s
  | conditional t consequent a s => conditional t (consequent ++ new) a s
  | each c i k body s => each c i k (body ++ new) s
  | whileLoop t body s => whileLoop t (body ++ new) s
  | mixinDefinition n a body s => mixinDefinition n a (body ++ new) s
  | mixinCall n a as sp block s => mixinCall n a as sp (block ++ new) s
  | tag n as sp children c s => tag n as sp (children ++ new) c s
  | node => node

end Node

/-- Text that renders nothing but white space. -/
def isBlankText (value : String) : Bool := Text.isBlank value.toList

/-- The parameters that a mixin's argument list declares. -/
def mixinParameters (arguments : Option String) : List String :=
  match arguments with
  | none => []
  | some list =>
    ((splitTopLevel ',' list.toList).map trim).filterMap fun parameter =>
      if parameter.isEmpty then none else some (String.ofList parameter)

/-- A parsed template. -/
structure Document where
  nodes : List Node
  /-- The length of the source in bytes. -/
  length : Nat
  deriving Inhabited

namespace Document

/-- The span of the whole source. -/
def span (d : Document) : Span := ⟨0, d.length⟩

/-- The first layout the template extends at its top level. -/
def layout? (d : Document) : Option FileReference :=
  d.nodes.findSome? fun
    | .extendsFile file _ => some file
    | _ => none

/-- The named blocks at the top level, in order. -/
def namedBlocks (d : Document) : List (String × BlockMode) :=
  d.nodes.filterMap fun
    | .namedBlock name mode _ _ => some (name, mode)
    | _ => none

end Document

end PugComponents.Template
