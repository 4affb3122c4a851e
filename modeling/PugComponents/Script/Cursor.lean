import PugComponents.Script.Token
import PugComponents.Script.Term

/- Reading a script token by token. A cursor holds the current token and the
   text before and after it; a reader moves it forward or refuses. The grammar
   is recursive in a few places only, and those are the fields of `Rules`: each
   rule is written against the rules it may call, and the knot is tied once. -/
namespace PugComponents.Script

/-- The current token and its surroundings. -/
structure Cursor where
  /-- The text after the previous token. -/
  gap : List Char
  /-- The text from the current token on. -/
  here : List Char
  /-- The text after the current token. -/
  rest : List Char
  token : Token
  /-- A line terminator stands before the current token. -/
  newline : Bool

/-- The cursor on the first token of a text. -/
def Cursor.at? (mode : Mode) (text : List Char) : Option Cursor :=
  match mode with
  | .script => do
    let (newline, here) ← skipGap .space false text
    let (token, rest) ← scriptToken here
    some ⟨text, here, rest, token, newline⟩
  | .tag => do
    let (newline, here) ← skipGap .space false text
    let (token, rest) ← tagToken here
    some ⟨text, here, rest, token, newline⟩
  | .child => do
    let (token, rest) ← childToken text
    some ⟨text, text, rest, token, false⟩

/-- The cursor on the first token of a whole text, which starts a line. -/
def Cursor.first? (text : List Char) : Option Cursor := do
  let (newline, here) ← skipGap .space true text
  let (token, rest) ← scriptToken here
  some ⟨text, here, rest, token, newline⟩

/-- A reader moves the cursor and gives a result, or refuses the text. -/
abbrev Reader := StateT Cursor Option

/-- What surrounds the place being read. -/
structure Context where
  /-- The operator `in` is an operator here. -/
  allowIn : Bool := true
  strict : Bool := false
  async : Bool := false
  generator : Bool := false
  /-- Outside of all blocks and functions. -/
  topLevel : Bool := true
  /-- Inside the body of a function. -/
  function : Bool := false
  /-- Inside the body of a function that is no arrow, with arrows between. -/
  newTarget : Bool := false
  /-- Inside the parameters of a function that is no arrow. -/
  parameters : Bool := false
  /-- `super` has members. -/
  superMember : Bool := false
  /-- Inside a class. -/
  classBody : Bool := false
  /-- Inside the value of a field or a static block, with no function but arrows between. -/
  classField : Bool := false
  /-- Inside a static block, with no function between. -/
  staticBlock : Bool := false
  /-- Inside the head of a loop that awaits its values. -/
  awaitingHead : Bool := false
  breakable : Bool := false
  continuable : Bool := false
  labels : List String := []

/-- A parsed statement. -/
inductive Statement
  | empty
  | expression (term : Term)
  /-- Any other statement, by its two ends. -/
  | other (start stop : Nat)

/-- The rules the grammar is recursive in. -/
structure Rules where
  assignment : Context → Reader Term
  unary : Context → Reader Term
  /-- The operand of `new`. -/
  callee : Context → Reader Term
  /-- The operand of `extends`. -/
  leftHand : Context → Reader Term
  /-- A statement; the flag tells whether a declaration may stand there. -/
  statement : Context → Bool → Reader Statement
  /-- A binding pattern; gives whether it is a plain name. -/
  binding : Context → Reader Bool
  /-- A markup element; the mode is the one the token after it is read in. -/
  markup : Context → Mode → Reader Unit

/-- The token is this keyword. -/
def Token.isWord (name : String) : Token → Bool
  | .word spelled _ => spelled == name
  | _ => false

namespace Reader

/-- Refuses the text. -/
def refuse {α : Type} : Reader α := fun _ => none

/-- Refuses unless the condition holds. -/
def require (condition : Bool) : Reader Unit := if condition then pure () else refuse

/-- Puts the cursor on the first token of a text. -/
def jump (mode : Mode) (text : List Char) : Reader Unit := do
  match Cursor.at? mode text with
  | some cursor => set cursor
  | none => refuse

/-- Moves past the current token. -/
def advance (mode : Mode := .script) : Reader Unit := do jump mode (← get).rest

/-- Where the current token starts. -/
def mark : Reader Nat := return (← get).here.length

/-- Where the previous token ended. -/
def done : Reader Nat := return (← get).gap.length

/-- The current token is this operator or bracket. -/
def atPunct (text : String) : Reader Bool := return (← get).token == .punct text

/-- The current token is this keyword. -/
def atWord (name : String) : Reader Bool := return (← get).token.isWord name

/-- A line terminator stands before the current token. -/
def atNewline : Reader Bool := return (← get).newline

/-- Moves past this operator if it is the current token. -/
def eat (text : String) (mode : Mode := .script) : Reader Bool := do
  if ← atPunct text then
    advance mode
    return true
  else return false

/-- Moves past this keyword if it is the current token. -/
def eatWord (name : String) : Reader Bool := do
  if ← atWord name then
    advance
    return true
  else return false

/-- Moves past this operator, which must be the current token. -/
def expect (text : String) (mode : Mode := .script) : Reader Unit := do require (← eat text mode)

/-- The token after the current one, and whether a line terminator stands between them. -/
def peek : Reader (Token × Bool) := do
  match Cursor.at? .script (← get).rest with
  | some next => return (next.token, next.newline)
  | none => refuse

/-- The current token follows the previous one without a gap. -/
def adjacent : Reader Bool := return (← get).gap.length == (← get).here.length

/-- The current token as written. -/
def spelling : Reader String := do
  let cursor ← get
  return String.ofList (cursor.here.take (cursor.here.length - cursor.rest.length))

/-- A term of this shape from a place up to the previous token. -/
def close (shape : Shape) (start : Nat) : Reader Term := return ⟨shape, start, ← done⟩

/-- Repeats a step until it gives a result, at most `n` times. -/
def repeatAtMost {σ α : Type} (step : σ → Reader (σ ⊕ α)) : Nat → σ → Reader α
  | 0, _ => refuse
  | n + 1, s => do
    match ← step s with
    | .inl next => repeatAtMost step n next
    | .inr result => return result

/-- Repeats a step until it gives a result. Every step that goes on moves the cursor forward, so
the text that is left bounds their number. -/
def loop {σ α : Type} (step : σ → Reader (σ ⊕ α)) (s : σ) : Reader α := do
  repeatAtMost step ((← get).gap.length + 2) s

/-- A statement may end here without a semicolon. -/
def atStatementEnd : Reader Bool := do
  let cursor ← get
  return cursor.newline || cursor.token == .punct ";" || cursor.token == .punct "\x7d" ||
    cursor.token == .endOfText

/-- Ends a statement: by a semicolon, or where one may be left out. -/
def endStatement : Reader Unit := do
  if !(← eat ";") then require (← atStatementEnd)

end Reader

/-- Words that are not identifiers in strict code. -/
def strictReservedWords : List String :=
  ["implements", "interface", "let", "package", "private", "protected", "public", "static",
   "yield"]

namespace Context

/-- The word is not an identifier here. -/
def isReserved (c : Context) (name : String) : Bool :=
  reservedWords.contains name || (c.strict && strictReservedWords.contains name) ||
    (c.generator && name == "yield") ||
    ((c.async || c.staticBlock || c.strict) && name == "await")

/-- The name a token spells. A word that is reserved here is not written with an escape. -/
def name? (c : Context) : Token → Option String
  | .word name escaped => if escaped && c.isReserved name then none else some name
  | .identifier name => some name
  | _ => none

/-- The name of a token that can refer to a variable. -/
def reference? (c : Context) : Token → Option String
  | .word name _ => if c.isReserved name then none else some name
  | .identifier name => some name
  | _ => none

/-- The name of a token that can bind a variable. Strict code may bind `await`, but no protected
name. -/
def bindable? (c : Context) (token : Token) : Option String := do
  let name ← match token with
    | .word "await" escaped =>
      if c.async || c.staticBlock || (c.strict && escaped) then none else some "await"
    | _ => c.reference? token
  if c.strict && Shape.isProtectedName name then none else some name

/-- The context inside a block. -/
def inBlock (c : Context) : Context := { c with topLevel := false }

/-- The context of the body of an arrow function. -/
def inArrow (c : Context) (async : Bool) : Context :=
  { c.inBlock with
    async := async, generator := false, function := true, staticBlock := false,
    breakable := false, continuable := false, labels := [] }

/-- The context of the body of any other function. -/
def inBody (c : Context) (async generator : Bool) : Context :=
  { c.inArrow async with allowIn := true, generator := generator, newTarget := true }

/-- The context of the parameters of a function that is no arrow. -/
def inParameters (c : Context) (async generator : Bool) : Context :=
  { c with async := async, generator := generator, function := false, parameters := true }

/-- The context of a function that is no arrow and no method. -/
def inFunction (c : Context) : Context := { c with superMember := false, classField := false }

/-- The context of a method. -/
def inMethod (c : Context) : Context := { c with superMember := true, classField := false }

/-- The context of a class member. -/
def inMember (c : Context) : Context := { c with superMember := true, classBody := true }

/-- The context of the value of a field. -/
def inField (c : Context) : Context := { c with allowIn := true, classField := true }

/-- The context of a static block. -/
def inStaticBlock (c : Context) : Context :=
  { c.inBlock with classField := true, staticBlock := true }

/-- The operator `await` can be used here. -/
def canAwait (c : Context) : Bool :=
  !c.topLevel && (c.async || !c.function) && (c.function || !c.parameters)

/-- The operator `yield` can be used here. -/
def canYield (c : Context) : Bool := c.function || !c.parameters

/-- `new.target` has a meaning here. -/
def hasNewTarget (c : Context) : Bool := c.newTarget || c.parameters || c.classBody

end Context

end PugComponents.Script
