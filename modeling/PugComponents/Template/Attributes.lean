import PugComponents.Template.Fault
import PugComponents.Template.Node
import PugComponents.Text.Bytes

/- Attribute lists: what stands between the parentheses of a tag or a mixin
   call. Attributes are separated by white space and commas. A value is a raw
   expression that ends at a comma or at white space, unless an operator on
   either side of the white space carries it on. -/
namespace PugComponents.Template

open Text

/-- A character that carries an expression on across white space. -/
def isOperator (c : Char) : Bool := "+-*/%&|^<>=?:.!".toList.contains c

/-- The white space here does not end the value: the last character before it or the first one after
it is an operator; an exclamation mark counts only before it. -/
def carriesOn (last : Option Char) (after : List Char) : Bool :=
  match trimStart after with
  | [] => false
  | next :: _ => last.any isOperator || (isOperator next && next != '!')

/-- A value at the front of a text, and what follows it. `last` is the last character of the value
so far that is not white space. -/
def valueFrom : Nat → Quoting → Option Char → List Char → List Char × List Char
  | _, _, _, [] => ([], [])
  | depth, quoting, last, c :: cs =>
    let last' := if isWhiteSpace c then last else some c
    if quoting.isCode c then
      if depth == 0 && (c == ',' || (isWhiteSpace c && !carriesOn last (c :: cs))) then ([], c :: cs)
      else consFirst c (valueFrom (nextDepth depth c) .outside last' cs)
    else consFirst c (valueFrom depth (quoting.next c) last' cs)

/-- A value at the front of a text, and what follows it. -/
def attributeValue (text : List Char) : List Char × List Char := valueFrom 0 .outside none text

/-- A separator of attributes. -/
def isAttributeGap (c : Char) : Bool := isWhiteSpace c || c == ','

/-- The end of an attribute name that is not quoted. -/
def endsAttributeName (c : Char) : Bool := isWhiteSpace c || c == ',' || c == '=' || c == '!'

/-- A text and the byte offset it starts at. -/
structure Place where
  offset : Nat
  text : List Char

namespace Place

/-- The place after the first characters of the text. -/
def skip (p : Place) (front : List Char) : Place :=
  ⟨p.offset + byteLength front, p.text.drop front.length⟩

/-- The place after the leading characters that satisfy `f`. -/
def skipWhile (p : Place) (f : Char → Bool) : Place := p.skip (p.text.takeWhile f)

/-- The end of the text. -/
def stop (p : Place) : Nat := p.offset + byteLength p.text

end Place

/-- What stands at the place of an attribute name. -/
inductive NameReading
  /-- A name, quoted or not, and the place after it. -/
  | name (text : List Char) (after : Place)
  /-- A quote that is not closed. -/
  | unclosed (quote : Char)

/-- Reads the name of an attribute at a place whose first character is `first`. -/
def attributeName (first : Char) (p : Place) : NameReading :=
  if first == '"' || first == '\'' then
    if p.text.tail.contains first then
      let name := p.text.tail.takeWhile (· != first)
      .name name (p.skip (first :: (name ++ [first])))
    else .unclosed first
  else
    let name := p.text.takeWhile (!endsAttributeName ·)
    .name name (p.skip name)

/-- What an attribute name is followed by. -/
inductive ValueReading
  /-- Nothing: the attribute is only named. -/
  | absent
  /-- `=` or `!=`, and the place after it. -/
  | present (escaped : Bool) (after : Place)
  /-- An exclamation mark without an equals sign, at this place. -/
  | loneMark (mark : Place)

/-- Reads the sign between an attribute name and its value. -/
def valueSign (p : Place) : ValueReading :=
  let sign := p.skipWhile isWhiteSpace
  match sign.text with
  | '!' :: '=' :: _ => .present false (sign.skip ['!', '='])
  | '=' :: _ => .present true (sign.skip ['='])
  | '!' :: _ => .loneMark sign
  | _ => .absent

/-- Adds an attribute in front. -/
def consAttribute (a : Attribute) (r : List Attribute × List Fault) : List Attribute × List Fault :=
  (a :: r.1, r.2)

/-- Adds a fault in front. -/
def consFault {α : Type} (f : Fault) (r : α × List Fault) : α × List Fault := (r.1, f :: r.2)

/-- The attributes from a place on, and the faults. Each step reads at least one character. An
attribute without a value after its sign, and a name before a lone exclamation mark, are dropped. -/
def attributesFrom : Nat → Place → List Attribute × List Fault
  | 0, _ => ([], [])
  | n + 1, before =>
    let p := before.skipWhile isAttributeGap
    match p.text with
    | [] => ([], [])
    | first :: _ =>
      match attributeName first p with
      | .unclosed quote => ([], [⟨.unclosedDelimiter quote, Span.between p.offset p.stop⟩])
      | .name [] after =>
        let next : Place := ⟨after.offset + first.utf8Size, after.text.tail⟩
        consFault ⟨.unexpectedToken .attributeName (String.singleton first),
          Span.between after.offset next.offset⟩ (attributesFrom n next)
      | .name name after =>
        match valueSign after with
        | .loneMark mark =>
          consFault ⟨.unexpectedToken .unescapedEquals "!",
            Span.between mark.offset (mark.offset + 1)⟩ (attributesFrom n (mark.skip ['!']))
        | .absent =>
          consAttribute ⟨String.ofList name, .flag, true, Span.between p.offset after.offset⟩
            (attributesFrom n after)
        | .present escaped afterSign =>
          let start := afterSign.skipWhile isWhiteSpace
          let value := (attributeValue start.text).1
          let stop := start.skip value
          let span := Span.between p.offset stop.offset
          let raw := trim value
          if raw.isEmpty then
            consFault ⟨.syntaxProblem (.noAttributeValue (String.ofList name)), span⟩
              (attributesFrom n stop)
          else
            consAttribute ⟨String.ofList name, .expression (String.ofList raw), escaped, span⟩
              (attributesFrom n stop)

/-- The attributes between parentheses; `offset` is where the text starts. -/
def attributeList (inner : List Char) (offset : Nat) : List Attribute × List Fault :=
  attributesFrom (inner.length + 1) ⟨offset, inner⟩

end PugComponents.Template
