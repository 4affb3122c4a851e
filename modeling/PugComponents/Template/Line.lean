import PugComponents.Template.Span
import PugComponents.Text.Bytes
import PugComponents.Text.WhiteSpace

/- Physical lines. A line ends at a line feed, and a carriage return before it
   is no part of the line. Indentation is the leading run of spaces and tabs. A
   line also knows the whole source from its content on, since an attribute
   group may run over several lines. -/
namespace PugComponents.Template

open Text

/-- A line of a template. -/
structure Line where
  /-- Counted from one. -/
  number : Nat
  /-- The width of the indentation in characters. -/
  indent : Nat
  /-- The byte offset of the content. -/
  start : Nat
  /-- The content. -/
  text : List Char
  /-- The source from the content on. -/
  onward : List Char

/-- Drops one carriage return at the end. -/
def dropReturn (cs : List Char) : List Char :=
  if cs.getLast? == some '\r' then cs.dropLast else cs

/-- The content of the line a text starts in: everything before its end. -/
def lineContent (onward : List Char) : List Char := dropReturn (onward.takeWhile (· != '\n'))

/-- A space or a tab. -/
def isIndentation (c : Char) : Bool := c == ' ' || c == '\t'

namespace Line

/-- Nothing but white space. -/
def isBlank (line : Line) : Bool := Text.isBlank line.text

/-- The end of the content. -/
def stop (line : Line) : Nat := line.start + byteLength line.text

/-- The span of the content. -/
def span (line : Line) : Span := ⟨line.start, line.stop⟩

/-- The line at the front of a text that starts at a byte offset. -/
def atFront (number offset : Nat) (onward : List Char) : Line :=
  let content := lineContent onward
  let indent := (content.takeWhile isIndentation).length
  { number := number
    indent := indent
    start := offset + indent
    text := content.drop indent
    onward := onward.drop indent }

/-- The lines after each line feed of a text; `offset` is where the text starts. -/
def afterFeeds (number offset : Nat) : List Char → List Line
  | [] => []
  | c :: cs =>
    if c == '\n' then
      atFront (number + 1) (offset + c.utf8Size) cs ::
        afterFeeds (number + 1) (offset + c.utf8Size) cs
    else afterFeeds number (offset + c.utf8Size) cs

/-- The lines of a source. -/
def ofSource (source : List Char) : List Line := atFront 1 0 source :: afterFeeds 1 0 source

end Line

end PugComponents.Template
