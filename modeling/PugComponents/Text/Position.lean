import PugComponents.Text.Bytes

/- Positions: lines and columns of byte offsets. Lines end at line feeds;
   columns count characters. The lines of a text are kept in a table of the
   offsets at which they start, and found in it by halving. The column of a
   place alone is found by going back to the start of its line. -/
namespace PugComponents.Text

/-- A line and a column, both counted from one. -/
structure Position where
  line : Nat
  column : Nat
  deriving DecidableEq, Repr

/-- The written form `line:column`. -/
def Position.render (p : Position) : String := toString p.line ++ ":" ++ toString p.column

/-! ## Search in a sorted table -/

/-- The last of the `size` entries from `base` on that is not above the key, if the first of them is
not. -/
def lastNotAbove (table : Array Nat) (key base size : Nat) : Nat :=
  if 1 < size then
    let half := size / 2
    if key < table.getD (base + half) 0 then lastNotAbove table key base (size - half)
    else lastNotAbove table key (base + half) (size - half)
  else base
termination_by size

/-- The place of a key in a sorted table, or else the place where it would have to be put. -/
def binarySearch (table : Array Nat) (key : Nat) : Except Nat Nat :=
  if table.isEmpty then .error 0
  else
    let place := lastNotAbove table key 0 table.size
    let entry := table.getD place 0
    if entry = key then .ok place
    else if entry < key then .error (place + 1)
    else .error place

/-! ## The lines of a text -/

/-- The offsets behind the line feeds of a text that stands at an offset. -/
def startsAfterFeeds (offset : Nat) : List Char → List Nat
  | [] => []
  | c :: cs =>
    let next := offset + c.utf8Size
    if c == '\n' then next :: startsAfterFeeds next cs else startsAfterFeeds next cs

/-- A text with the offsets at which its lines start. -/
structure LineIndex where
  text : List Char
  starts : Array Nat

namespace LineIndex

/-- The index of a text. -/
def ofText (text : List Char) : LineIndex := ⟨text, (0 :: startsAfterFeeds 0 text).toArray⟩

/-- The number of lines. -/
def lineCount (index : LineIndex) : Nat := index.starts.size

/-- The line that an offset is in, counted from zero. -/
def lineOf (index : LineIndex) (offset : Nat) : Nat :=
  match binarySearch index.starts offset with
  | .ok line => line
  | .error line => line - 1

/-- The position of a byte offset. An offset past the end is taken for the end; one inside a
character counts bytes instead of characters. -/
def position (index : LineIndex) (offset : Nat) : Position :=
  let stop := min offset (byteLength index.text)
  let line := index.lineOf stop
  let start := index.starts.getD line 0
  let column :=
    match slice? start stop index.text with
    | some front => front.length
    | none => stop - start
  ⟨line + 1, column + 1⟩

end LineIndex

/-- The position of a byte offset in a text. -/
def position (text : List Char) (offset : Nat) : Position := (LineIndex.ofText text).position offset

/-- The number of lines of a text. -/
def lineCount (text : List Char) : Nat := (LineIndex.ofText text).lineCount

/-- The column of a byte offset: how far it is back to a line feed or to the front of the text. -/
def columnAt (text : List Char) (offset : Nat) : Nat :=
  ((takeBytes offset text).reverse.takeWhile (· != '\n')).length + 1

end PugComponents.Text
