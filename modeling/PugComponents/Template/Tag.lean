import PugComponents.Template.Attributes
import PugComponents.Template.Line
import PugComponents.Template.Marker

/- The head of a tag: its name, then classes, ids, attribute lists and spreads
   in any order, then how the tag ends. A parenthesised group may run over
   several lines; the lines it covers are used up. -/
namespace PugComponents.Template

open Text

/-- A value with the faults found on the way to it and the lines that are left. -/
structure Reading (α : Type) where
  value : α
  faults : List Fault
  lines : List Line

/-- The part of the line that a place has not passed. -/
def Place.line (p : Place) : List Char := lineContent p.text

/-- The end of the line of a place. -/
def Place.lineStop (p : Place) : Nat := p.offset + byteLength p.line

/-- The end of the line of a place, as a place. -/
def Place.toLineEnd (p : Place) : Place := p.skip p.line

/-- For a place at an opening parenthesis: the text in the parentheses, the place after them, and the
lines that they do not reach into. -/
def parenthesised? (p : Place) (lines : List Line) : Option (List Char × Place × List Line) :=
  (closing? p.text 0).map fun length =>
    let close := p.offset + length
    (fromByte 1 (takeBytes length p.text), ⟨close + 1, fromByte (length + 1) p.text⟩,
      lines.dropWhile (·.start ≤ close))

/-- The fault of a parenthesis that is not closed. -/
def unclosedGroup (p : Place) : Fault :=
  ⟨.unclosedDelimiter '(', Span.between p.offset p.lineStop⟩

/-- What attribute lists and spreads give, the place after them, and the lines that are left. -/
structure Groups where
  attributes : List Attribute
  spreads : List Spread
  faults : List Fault
  place : Place
  lines : List Line
  /-- Every group was closed. -/
  closed : Bool

/-- How a spread starts. -/
def spreadLead : List Char := "&attributes".toList

/-- An attribute list or a spread at a place. After a group that is not closed the line is used
up. -/
def attributeGroup? (p : Place) (lines : List Line) : Option Groups :=
  if startsWith p.line ['('] then
    match parenthesised? p lines with
    | none => some ⟨[], [], [unclosedGroup p], p.toLineEnd, lines, false⟩
    | some (inner, after, rest) =>
      let (attributes, faults) := attributeList inner (p.offset + 1)
      some ⟨attributes, [], faults, after, rest, true⟩
  else if startsWith p.line (spreadLead ++ ['(']) then
    let start := p.skip spreadLead
    match parenthesised? start lines with
    | none => some ⟨[], [], [unclosedGroup start], p.toLineEnd, lines, false⟩
    | some (inner, after, rest) =>
      some ⟨[], [⟨String.ofList (trim inner), Span.between p.offset after.offset⟩], [], after, rest,
        true⟩
  else none

/-- All attribute lists and spreads from a place on. Each step passes a group. -/
def attributeGroups : Nat → Place → List Line → Groups
  | 0, p, lines => ⟨[], [], [], p, lines, true⟩
  | n + 1, p, lines =>
    match attributeGroup? p lines with
    | none => ⟨[], [], [], p, lines, true⟩
    | some g =>
      if g.closed then
        let more := attributeGroups n g.place g.lines
        ⟨g.attributes ++ more.attributes, g.spreads ++ more.spreads, g.faults ++ more.faults,
          more.place, more.lines, more.closed⟩
      else g

/-- A part of the head of a tag. -/
inductive TagPart
  | className (name : String) (span : Span)
  | attribute (a : Attribute)

/-- How the head of a tag ends. -/
inductive TagEnd
  | plain
  /-- A dot: the lines under the tag are text. -/
  | textBlock
  /-- A slash. -/
  | selfClosing
  deriving DecidableEq

/-- The head of a tag after its name. -/
structure TagHead where
  parts : List TagPart
  spreads : List Spread
  ending : TagEnd
  faults : List Fault
  place : Place
  lines : List Line

/-- A head without parts that ends at a place. -/
def TagHead.ended (ending : TagEnd) (p : Place) (lines : List Line) : TagHead :=
  ⟨[], [], ending, [], p, lines⟩

/-- A head with a further part in front. -/
def TagHead.consPart (part : TagPart) (h : TagHead) : TagHead := { h with parts := part :: h.parts }

/-- The name that a text starts with. -/
def nameAtFront (text : List Char) : List Char := text.take (Marker.nameLength text)

/-- The head of a tag from a place on. Each step passes a part. -/
def tagHead : Nat → Place → List Line → TagHead
  | 0, p, lines => .ended .plain p lines
  | n + 1, p, lines =>
    match p.line with
    | '.' :: after =>
      match nameAtFront after with
      | [] => if isBlank after then .ended .textBlock p.toLineEnd lines else .ended .plain p lines
      | name =>
        let next := p.skip ('.' :: name)
        (tagHead n next lines).consPart
          (.className (String.ofList name) (Span.between p.offset next.offset))
    | '#' :: after =>
      match nameAtFront after with
      | [] => .ended .plain p lines
      | name =>
        let next := p.skip ('#' :: name)
        (tagHead n next lines).consPart
          (.attribute ⟨"id", .expression ("'" ++ String.ofList name ++ "'"), true,
            Span.between p.offset next.offset⟩)
    | '/' :: _ => .ended .selfClosing (p.skip ['/']) lines
    | _ =>
      match attributeGroup? p lines with
      | none => .ended .plain p lines
      | some g =>
        let more := if g.closed then tagHead n g.place g.lines else .ended .plain g.place g.lines
        { more with
          parts := g.attributes.map .attribute ++ more.parts
          spreads := g.spreads ++ more.spreads
          faults := g.faults ++ more.faults }

/-- The class names among the parts of a head. -/
def classNames (parts : List TagPart) : List String :=
  parts.filterMap fun
    | .className name _ => some name
    | .attribute _ => none

/-- The attributes that are not classes. -/
def plainAttributes (parts : List TagPart) : List Attribute :=
  parts.filterMap fun
    | .className .. => none
    | .attribute a => some a

/-- The attributes of a tag: all class names together are one attribute, which stands where the
first of them does. -/
def tagAttributes (classes : List String) : List TagPart → List Attribute
  | [] => []
  | .attribute a :: rest => a :: tagAttributes classes rest
  | .className _ span :: rest =>
    ⟨"class", .expression ("'" ++ joinWith " " classes ++ "'"), true, span⟩ :: plainAttributes rest

end PugComponents.Template
