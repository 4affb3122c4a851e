/- Globs: patterns for paths. A star and a question mark match slashes too. Two
   stars between slashes match any number of directories. Patterns are matched
   against the bytes of a path, and a class of characters stands for one byte. -/
namespace PugComponents.Files

/-- A part of a pattern. -/
inductive GlobPart
  | literal (c : Char)
  /-- Any one byte. -/
  | any
  /-- Any bytes. -/
  | star
  /-- Two stars at the start: any directories, or none. -/
  | anyDirectories
  /-- Two stars at the end: anything below. -/
  | anythingBelow
  /-- Two stars between slashes: a slash, or any directories between two slashes. -/
  | anyBetween
  | charClass (negated : Bool) (ranges : List (Char × Char))
  /-- One of several patterns. -/
  | alternatives (branches : List (List GlobPart))

/-- Why a text is no pattern. -/
inductive GlobError
  | unclosedClass
  | invalidRange (first last : Char)
  | unopenedAlternatives
  | unclosedAlternatives
  | danglingEscape
  deriving DecidableEq, Repr

namespace Glob

/-- A group of alternatives that is being read: its finished branches, the latest first. -/
abbrev OpenGroup := List (List GlobPart)

/-- A pattern that is being read. -/
structure Reading where
  /-- The parts of the current branch, the latest first. -/
  parts : List GlobPart
  /-- The branch before each open group, and the group's branches; the innermost group first. -/
  groups : List (List GlobPart × OpenGroup)

/-- Adds parts to the current branch. -/
def Reading.push (r : Reading) (new : List GlobPart) : Reading :=
  { r with parts := new.reverse ++ r.parts }

/-- The number of branches that are being read. -/
def Reading.branches (r : Reading) : Nat :=
  1 + (r.groups.flatMap fun g => g.1 :: g.2).length

/-- Extends the last range of a class up to a character. -/
def closeRange (last : Char) : List (Char × Char) → Except GlobError (List (Char × Char))
  | [] => .ok [(last, last)]
  | (first, _) :: rest => if last < first then .error (.invalidRange first last) else .ok ((first, last) :: rest)

/-- The ranges of a class, the latest first, and what follows it. `first` before the first
character, `inRange` after a hyphen that may make a range. -/
def classRanges (first inRange : Bool) (ranges : List (Char × Char)) :
    List Char → Except GlobError (List (Char × Char) × List Char)
  | [] => .error .unclosedClass
  | c :: cs =>
    if c == ']' && !first then .ok (if inRange then ('-', '-') :: ranges else ranges, cs)
    else if c == '-' && !first && !inRange then classRanges false true ranges cs
    else if inRange then do
      let closed ← closeRange c ranges
      classRanges false false closed cs
    else classRanges false false ((c, c) :: ranges) cs

/-- The class after an opening bracket, and what follows it. -/
def readClass (text : List Char) : Except GlobError (GlobPart × List Char) := do
  let negated := text.head? == some '!' || text.head? == some '^'
  let (ranges, rest) ← classRanges true false [] (if negated then text.tail else text)
  .ok (.charClass negated ranges.reverse, rest)

/-- What two stars mean after the character `previous` and before `rest`, and what is left to
read. -/
def readStars (r : Reading) (previous : Option Char) (rest : List Char) : Reading × List Char :=
  let nested := decide (2 ≤ r.branches)
  let plain : Reading × List Char := (r.push [.star, .star], rest)
  let replaceLast (part : GlobPart) : Reading :=
    match r.parts with
    | .anyDirectories :: _ | .anythingBelow :: _ => r
    | _ :: before => { r with parts := part :: before }
    | [] => r
  if r.parts.isEmpty then
    match rest with
    | [] => (r.push [.anyDirectories], [])
    | '/' :: after => (r.push [.anyDirectories], after)
    | _ => plain
  else if previous != some '/' && !(nested && (previous == some ',' || previous == some '\x7b')) then
    plain
  else
    match rest with
    | [] => (replaceLast .anythingBelow, [])
    | c :: after =>
      if nested && (c == ',' || c == '\x7d') then (replaceLast .anythingBelow, rest)
      else if c == '/' then (replaceLast .anyBetween, after)
      else plain

/-- Ends the innermost group of alternatives. -/
def closeGroup (r : Reading) : Except GlobError Reading :=
  match r.groups with
  | [] => .error .unopenedAlternatives
  | (before, done) :: outer =>
    .ok ⟨.alternatives ((r.parts.reverse :: done).reverse) :: before, outer⟩

/-- Starts the next branch of the innermost group; outside groups a comma is a literal. -/
def nextBranch (r : Reading) : Reading :=
  match r.groups with
  | [] => r.push [.literal ',']
  | (before, done) :: outer => ⟨[], (before, r.parts.reverse :: done) :: outer⟩

/-- Reads a pattern from a text after the character `previous`. Each step reads a character. -/
def readFrom : Nat → Reading → Option Char → List Char → Except GlobError Reading
  | 0, r, _, _ => .ok r
  | _ + 1, r, _, [] => .ok r
  | n + 1, r, previous, c :: cs =>
    match c with
    | '?' => readFrom n (r.push [.any]) (some c) cs
    | '*' =>
      match cs with
      | '*' :: rest =>
        let (next, left) := readStars r previous rest
        readFrom n next (some (if left.length < rest.length then '/' else '*')) left
      | _ => readFrom n (r.push [.star]) (some c) cs
    | '[' => do
      let (part, rest) ← readClass cs
      readFrom n (r.push [part]) (some ']') rest
    | '\x7b' => readFrom n ⟨[], (r.parts, []) :: r.groups⟩ (some c) cs
    | '\x7d' => do
      let closed ← closeGroup r
      readFrom n closed (some c) cs
    | ',' => readFrom n (nextBranch r) (some c) cs
    | '\\' =>
      match cs with
      | [] => .error .danglingEscape
      | escaped :: rest => readFrom n (r.push [.literal escaped]) (some escaped) rest
    | _ => readFrom n (r.push [.literal c]) (some c) cs

end Glob

/-- A pattern. -/
structure Glob where
  parts : List GlobPart

namespace Glob

/-- Reads a pattern. -/
def parse (text : String) : Except GlobError Glob := do
  let r ← readFrom (text.length + 1) ⟨[], []⟩ none text.toList
  if r.groups.isEmpty then .ok ⟨r.parts.reverse⟩ else .error .unclosedAlternatives

/-- The UTF-8 bytes of a character. -/
def charBytes (c : Char) : List UInt8 := (String.singleton c).toUTF8.toList

/-- The byte ranges of a range of characters: the bytes of both ends, of which the last one of the
first and the first one of the last are joined to a range. -/
def byteRanges (r : Char × Char) : List (UInt8 × UInt8) :=
  let single (b : UInt8) : UInt8 × UInt8 := (b, b)
  if r.1 == r.2 then (charBytes r.1).map single
  else
    let first := charBytes r.1
    let last := charBytes r.2
    first.dropLast.map single ++ [(first.getLastD 0, last.headD 0)] ++ last.tail.map single

/-- A byte that a class stands for. -/
def classHas (negated : Bool) (ranges : List (Char × Char)) (b : UInt8) : Bool :=
  ((ranges.flatMap byteRanges).any fun r => r.1 ≤ b && b ≤ r.2) != negated

/-- All ends of a text, the whole text first. -/
def suffixes : List UInt8 → List (List UInt8)
  | [] => [[]]
  | b :: bs => (b :: bs) :: suffixes bs

/-- The ends of a text that start after a slash. -/
def afterSlashes : List UInt8 → List (List UInt8)
  | [] => []
  | b :: bs => if b == 47 then bs :: afterSlashes bs else afterSlashes bs

/-- What is left of a text after given bytes. -/
def afterBytes : List UInt8 → List UInt8 → List (List UInt8)
  | [], text => [text]
  | _ :: _, [] => []
  | b :: bs, c :: cs => if b == c then afterBytes bs cs else []

/-- What is left after one slash. -/
def afterSlash (text : List UInt8) : List (List UInt8) := afterBytes [47] text

/-- Ends of one text, each only once. -/
def distinctEnds (ends : List (List UInt8)) : List (List UInt8) :=
  ends.foldr (fun e kept => if kept.any (·.length == e.length) then kept else e :: kept) []

mutual

/-- The part matches only the empty text because it offers no alternative with a part. -/
def isVoid : GlobPart → Bool
  | .alternatives branches => areVoidBranches branches
  | _ => false

/-- All parts are void. -/
def areVoid : List GlobPart → Bool
  | [] => true
  | part :: rest => isVoid part && areVoid rest

/-- All branches are void. -/
def areVoidBranches : List (List GlobPart) → Bool
  | [] => true
  | branch :: rest => areVoid branch && areVoidBranches rest

end

mutual

/-- What can be left of a text after a part. -/
def afterPart : GlobPart → List UInt8 → List (List UInt8)
  | .literal c, text => afterBytes (charBytes c) text
  | .any, text =>
    match text with
    | [] => []
    | _ :: rest => [rest]
  | .star, text => suffixes text
  | .anyDirectories, text => text :: (afterSlash text ++ afterSlashes text)
  | .anythingBelow, text => (afterSlash text).flatMap suffixes
  | .anyBetween, text =>
    afterSlash text ++ (afterSlash text).flatMap afterSlashes
  | .charClass negated ranges, text =>
    match text with
    | [] => []
    | b :: rest => if classHas negated ranges b then [rest] else []
  | .alternatives branches, text =>
    if areVoidBranches branches then [text] else afterBranches branches text

/-- What can be left of a text after a list of parts. -/
def afterParts : List GlobPart → List UInt8 → List (List UInt8)
  | [], text => [text]
  | part :: rest, text => distinctEnds ((distinctEnds (afterPart part text)).flatMap (afterParts rest))

/-- What can be left of a text after one of several branches; a void branch does not count. -/
def afterBranches : List (List GlobPart) → List UInt8 → List (List UInt8)
  | [], _ => []
  | branch :: rest, text =>
    (if areVoid branch then [] else afterParts branch text) ++ afterBranches rest text

end

/-- The pattern is nothing but two stars. -/
def isEverything (g : Glob) : Bool :=
  match g.parts with
  | [.anyDirectories] => true
  | _ => false

/-- The pattern matches a path as a whole. -/
def isMatch (g : Glob) (path : String) : Bool :=
  g.isEverything || (afterParts g.parts path.toUTF8.toList).any List.isEmpty

end Glob

end PugComponents.Files
