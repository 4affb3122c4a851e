import PugComponents.Template.Fault
import PugComponents.Template.Node
import PugComponents.Text.Bytes

/- Text with interpolations. `#{…}` and `!{…}` render expressions; a backslash
   before one of them makes it plain text. -/
namespace PugComponents.Template

open Text

/-- A stretch of literal text: its value, the bytes it takes in the source, and what follows it. -/
structure Literal where
  value : List Char
  bytes : Nat
  rest : List Char

/-- Literal text up to the next interpolation. -/
def literal : List Char → Literal
  | [] => ⟨[], 0, []⟩
  | '\\' :: '#' :: '\x7b' :: cs =>
    let l := literal cs
    ⟨'#' :: '\x7b' :: l.value, l.bytes + 3, l.rest⟩
  | '\\' :: '!' :: '\x7b' :: cs =>
    let l := literal cs
    ⟨'!' :: '\x7b' :: l.value, l.bytes + 3, l.rest⟩
  | '#' :: '\x7b' :: cs => ⟨[], 0, '#' :: '\x7b' :: cs⟩
  | '!' :: '\x7b' :: cs => ⟨[], 0, '!' :: '\x7b' :: cs⟩
  | c :: cs =>
    let l := literal cs
    ⟨c :: l.value, l.bytes + c.utf8Size, l.rest⟩

/-- A text node for literal text that is not empty. -/
def textNode (value : List Char) (start stop : Nat) : List Node :=
  if value.isEmpty then [] else [.text (String.ofList value) (Span.between start stop)]

/-- The nodes of a text that starts at an offset, and its faults. Each step passes one
interpolation, so as many steps as characters are enough. An interpolation that is not closed is
text to the end. -/
def pieces : Nat → Nat → List Char → List Node × List Fault
  | 0, _, _ => ([], [])
  | n + 1, start, cs =>
    let l := literal cs
    let stop := start + l.bytes
    match l.rest with
    | [] => (textNode l.value start stop, [])
    | sign :: braced =>
      match group? braced with
      | none =>
        let last := stop + byteLength l.rest
        (textNode (l.value ++ l.rest) start last,
          [⟨.unclosedDelimiter '\x7b', Span.between stop last⟩])
      | some (inner, rest) =>
        let after := stop + byteLength inner + 3
        let kind := if sign == '#' then CodeKind.escaped else CodeKind.unescaped
        let code := Node.code (String.ofList (trim inner)) kind [] (Span.between stop after)
        let (nodes, faults) := pieces n after rest
        (textNode l.value start stop ++ code :: nodes, faults)

/-- The nodes of a text that starts at an offset, and its faults. An empty text is one node. -/
def interpolated (text : List Char) (start : Nat) : List Node × List Fault :=
  match pieces (text.length + 1) start text with
  | ([], faults) => ([.text "" (Span.empty start)], faults)
  | result => result

end PugComponents.Template
