import PugComponents.Text.Bytes

/- Brackets and quotes. Three string quotes hide what they enclose, a backslash
   hides the next character inside them; outside, round, square and curly
   brackets nest. -/
namespace PugComponents.Text

/-- One of the three string quotes. -/
def isQuote (c : Char) : Bool := c == '\'' || c == '"' || c == '\x60'

/-- The bracket that closes a given one. -/
def closerOf? (c : Char) : Option Char :=
  if c == '(' then some ')'
  else if c == '[' then some ']'
  else if c == '\x7b' then some '\x7d'
  else none

/-- A closing bracket. -/
def isCloser (c : Char) : Bool := c == ')' || c == ']' || c == '\x7d'

/-- Where a character stands with respect to string literals. -/
inductive Quoting
  | outside
  /-- In a literal that the quote ends. -/
  | inside (quote : Char)
  /-- In a literal, after a backslash. -/
  | escaped (quote : Char)
  deriving DecidableEq, Repr

/-- Where the character after `c` stands. -/
def Quoting.next : Quoting → Char → Quoting
  | .outside, c => if isQuote c then .inside c else .outside
  | .inside q, c => if c == '\\' then .escaped q else if c == q then .outside else .inside q
  | .escaped q, _ => .inside q

/-- Whether `c` is code at this place, and not a quote or a part of a literal. -/
def Quoting.isCode (quoting : Quoting) (c : Char) : Bool := quoting == .outside && !isQuote c

/-- Puts a character in front of the first part. -/
def consFirst {β : Type} (c : Char) (r : List Char × β) : List Char × β := (c :: r.1, r.2)

/-- The text up to the bracket that closes the outermost of the open brackets, and the text after
it. `pending` lists the closing brackets that are awaited, the innermost first. -/
def scanGroup : List Char → Quoting → List Char → Option (List Char × List Char)
  | _, _, [] => none
  | pending, quoting, c :: cs =>
    if quoting.isCode c then
      match closerOf? c with
      | some closer => (scanGroup (closer :: pending) .outside cs).map (consFirst c)
      | none =>
        if isCloser c then
          match pending with
          | [] => none
          | [awaited] => if awaited == c then some ([], cs) else none
          | awaited :: outer =>
            if awaited == c then (scanGroup outer .outside cs).map (consFirst c) else none
        else (scanGroup pending .outside cs).map (consFirst c)
    else (scanGroup pending (quoting.next c) cs).map (consFirst c)

/-- For a text that starts with an opening bracket: what the bracket and its partner enclose, and
what follows them. Fails if a bracket closes another one than it should, or none. -/
def group? : List Char → Option (List Char × List Char)
  | [] => none
  | c :: cs =>
    match closerOf? c with
    | some closer => scanGroup [closer] .outside cs
    | none => none

/-- The offset of the bracket that closes the one at an offset. -/
def closing? (text : List Char) (opening : Nat) : Option Nat :=
  (group? (fromByte opening text)).map fun (inner, _) => opening + 1 + byteLength inner

/-- The nesting depth after a character of code. An unmatched closing bracket is passed over. -/
def nextDepth (depth : Nat) (c : Char) : Nat :=
  if (closerOf? c).isSome then depth + 1 else if isCloser c then depth - 1 else depth

/-- The parts between the separators outside brackets and literals. -/
def splitFrom (separator : Char) : Nat → Quoting → List Char → List (List Char)
  | _, _, [] => [[]]
  | depth, quoting, c :: cs =>
    if quoting.isCode c && c == separator && depth == 0 then
      [] :: splitFrom separator depth .outside cs
    else
      let depth := if quoting.isCode c then nextDepth depth c else depth
      match splitFrom separator depth (quoting.next c) cs with
      | [] => [[c]]
      | part :: parts => (c :: part) :: parts

/-- The parts of a text between the separators that stand outside brackets and literals. -/
def splitTopLevel (separator : Char) (text : List Char) : List (List Char) :=
  splitFrom separator 0 .outside text

end PugComponents.Text
