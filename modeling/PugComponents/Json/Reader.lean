import PugComponents.Json.Value
import PugComponents.Text.Split

/- Reading JSON texts. The grammar is strict: no comments, no trailing commas,
   nothing but white space around the value. -/
namespace PugComponents.Json

open Text

/-- White space between tokens. -/
def isGap (c : Char) : Bool := c == ' ' || c == '\n' || c == '\t' || c == '\r'

/-- Drops white space at the front. -/
def skipGaps (text : List Char) : List Char := text.dropWhile isGap

/-- The value of a hexadecimal digit. -/
def hexDigit? (c : Char) : Option Nat :=
  if c.isDigit then some (c.toNat - '0'.toNat)
  else if 'a' ≤ c && c ≤ 'f' then some (c.toNat - 'a'.toNat + 10)
  else if 'A' ≤ c && c ≤ 'F' then some (c.toNat - 'A'.toNat + 10)
  else none

/-- The number that four hexadecimal digits write, and what follows them. -/
def fourDigits? : List Char → Option (Nat × List Char)
  | a :: b :: c :: d :: rest => do
    let a ← hexDigit? a
    let b ← hexDigit? b
    let c ← hexDigit? c
    let d ← hexDigit? d
    some (((a * 16 + b) * 16 + c) * 16 + d, rest)
  | _ => none

/-- The character of an escape with one letter. -/
def simpleEscape? (c : Char) : Option Char :=
  if c == '"' || c == '\\' || c == '/' then some c
  else if c == 'b' then some '\x08'
  else if c == 'f' then some '\x0c'
  else if c == 'n' then some '\n'
  else if c == 'r' then some '\r'
  else if c == 't' then some '\t'
  else none

/-- A piece of a string: a character, or a number written by an escape. -/
inductive Piece
  | char (c : Char)
  | unit (n : Nat)

/-- The pieces of a string after its opening quote, and what follows it. Each step reads a
piece. -/
def pieces? : Nat → List Char → Option (List Piece × List Char)
  | 0, _ => none
  | n + 1, text =>
    match text with
    | [] => none
    | '"' :: rest => some ([], rest)
    | '\\' :: 'u' :: rest => do
      let (unit, rest) ← fourDigits? rest
      let (more, rest) ← pieces? n rest
      some (.unit unit :: more, rest)
    | '\\' :: c :: rest => do
      let c ← simpleEscape? c
      let (more, rest) ← pieces? n rest
      some (.char c :: more, rest)
    | c :: rest => do
      if c == '\\' || c.toNat < 0x20 then none
      let (more, rest) ← pieces? n rest
      some (.char c :: more, rest)

/-- The first half of a surrogate pair. -/
def isHighHalf (n : Nat) : Bool := 0xd800 ≤ n && n ≤ 0xdbff

/-- The second half of a surrogate pair. -/
def isLowHalf (n : Nat) : Bool := 0xdc00 ≤ n && n ≤ 0xdfff

/-- The text of pieces; none if half a surrogate pair is among them. -/
def textOf? : List Piece → Option (List Char)
  | [] => some []
  | .char c :: rest => (textOf? rest).map (c :: ·)
  | .unit high :: .unit low :: rest =>
    if isHighHalf high then
      if isLowHalf low then
        (textOf? rest).map (Char.ofNat (0x10000 + (high - 0xd800) * 0x400 + (low - 0xdc00)) :: ·)
      else none
    else if isLowHalf high then none
    else (textOf? (.unit low :: rest)).map (Char.ofNat high :: ·)
  | .unit n :: rest =>
    if isHighHalf n || isLowHalf n then none else (textOf? rest).map (Char.ofNat n :: ·)

/-- A string after its opening quote, and what follows it. -/
def string? (text : List Char) : Option (Option String × List Char) :=
  (pieces? (text.length + 1) text).map fun (pieces, rest) => ((textOf? pieces).map String.ofList, rest)

/-- One or more digits, and what follows them. -/
def digits? (text : List Char) : Option (List Char × List Char) :=
  let digits := text.takeWhile Char.isDigit
  if digits.isEmpty then none else some (digits, text.drop digits.length)

/-- The whole part of a number: zero, or digits of which the first is not zero. -/
def wholePart? (text : List Char) : Option (List Char × List Char) := do
  let (digits, rest) ← digits? text
  if digits.head? == some '0' && digits.length != 1 then none else some (digits, rest)

/-- The fraction of a number, which may be missing. -/
def fraction? (text : List Char) : Option (List Char × List Char) :=
  match text with
  | '.' :: rest => do
    let (digits, rest) ← digits? rest
    some ('.' :: digits, rest)
  | _ => some ([], text)

/-- The exponent of a number, which may be missing. -/
def exponent? (text : List Char) : Option (List Char × List Char) :=
  match text with
  | e :: rest =>
    if e == 'e' || e == 'E' then
      let sign := (rest.take 1).filter fun c => c == '+' || c == '-'
      do
        let (digits, rest) ← digits? (rest.drop sign.length)
        some (e :: (sign ++ digits), rest)
    else some ([], text)
  | [] => some ([], text)

/-- A number, and what follows it. -/
def number? (text : List Char) : Option (String × List Char) := do
  let sign := (text.take 1).filter (· == '-')
  let (whole, rest) ← wholePart? (text.drop sign.length)
  let (fraction, rest) ← fraction? rest
  let (exponent, rest) ← exponent? rest
  some (String.ofList (sign ++ whole ++ fraction ++ exponent), rest)

/-- A value that is one word, and what follows it. -/
def word? (text : List Char) : Option (Value × List Char) :=
  ((dropPrefix? "null".toList text).map fun rest => (Value.null, rest)) <|>
    ((dropPrefix? "true".toList text).map fun rest => (Value.bool true, rest)) <|>
    ((dropPrefix? "false".toList text).map fun rest => (Value.bool false, rest))

/-- A given character after white space is passed. -/
def afterChar? (c : Char) (text : List Char) : Option (List Char) := dropPrefix? [c] (skipGaps text)

mutual

/-- A value, and what follows it. Each step reads a character. -/
def value? : Nat → List Char → Option (Value × List Char)
  | 0, _ => none
  | n + 1, text =>
    match skipGaps text with
    | '"' :: rest => (string? rest).map fun (s, rest) => (.string s, rest)
    | '[' :: rest =>
      match afterChar? ']' rest with
      | some rest => some (.array [], rest)
      | none => (items? n rest).map fun (items, rest) => (.array items, rest)
    | '\x7b' :: rest =>
      match afterChar? '\x7d' rest with
      | some rest => some (.object [], rest)
      | none => (members? n rest).map fun (members, rest) => (.object members, rest)
    | rest => word? rest <|> (number? rest).map fun (text, rest) => (.number text, rest)

/-- The items of an array up to its closing bracket. -/
def items? : Nat → List Char → Option (List Value × List Char)
  | 0, _ => none
  | n + 1, text => do
    let (item, rest) ← value? n text
    match skipGaps rest with
    | ']' :: rest => some ([item], rest)
    | ',' :: rest =>
      let (more, rest) ← items? n rest
      some (item :: more, rest)
    | _ => none

/-- The members of an object up to its closing brace. -/
def members? : Nat → List Char → Option (List (Option String × Value) × List Char)
  | 0, _ => none
  | n + 1, text => do
    let rest ← afterChar? '"' text
    let (key, rest) ← string? rest
    let rest ← afterChar? ':' rest
    let (value, rest) ← value? n rest
    match skipGaps rest with
    | '\x7d' :: rest => some ([(key, value)], rest)
    | ',' :: rest =>
      let (more, rest) ← members? n rest
      some ((key, value) :: more, rest)
    | _ => none

end

/-- The value that a text writes. -/
def Value.parse? (text : String) : Option Value :=
  match value? (text.length + 1) text.toList with
  | some (value, rest) => if (skipGaps rest).isEmpty then some value else none
  | none => none

end PugComponents.Json
