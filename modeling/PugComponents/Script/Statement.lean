import PugComponents.Script.Expression

/- Statements. A declaration stands only where the flag `declarations` allows
   one; the body of a loop or a branch is no such place. -/
namespace PugComponents.Script

open Reader

/-- A block. -/
def blockBody (r : Rules) (c : Context) : Reader Unit := braced r c.inBlock false true

/-- A parenthesized expression. -/
def parenExpression (r : Rules) (c : Context) : Reader Unit := do
  expect "("
  let _ ← innerExpression r c
  expect ")"

/-! ## Variables -/

/-- The keyword of a declaration. -/
inductive VariableKind
  | var
  | letLike
  | constant
  deriving DecidableEq

/-- What matters of a list of declared variables. -/
structure Declared where
  count : Nat
  initialized : Bool

/-- One variable with its optional initializer; gives whether it has one. A pattern needs one, and
so does a constant outside the head of a loop. The head of a loop keeps the surrounding rule on `in`
for the keyword `var`. -/
def declarator (r : Rules) (c : Context) (kind : VariableKind) (head : Bool) : Reader Bool := do
  require (kind == .var || !(← atWord "let"))
  let plain ← r.binding c
  if ← eat "=" then
    let _ ← r.assignment { c with allowIn := c.allowIn || kind != .var || !head }
    return true
  else
    let iterated := head && ((← atWord "in") || (← atWord "of"))
    require (iterated || (plain && (kind != .constant || head)))
    return false

/-- The variables of a declaration after its keyword. -/
def declarators (r : Rules) (c : Context) (kind : VariableKind) (head : Bool) : Reader Declared :=
  loop (fun d : Declared => do
    let initialized ← declarator r c kind head
    let d : Declared := ⟨d.count + 1, d.initialized || initialized⟩
    if ← eat "," then return .inl d else return .inr d) ⟨0, false⟩

/-- The keyword `let` starts a declaration here. -/
def letStartsDeclaration : Reader Bool := do
  if ← atWord "let" then
    let (next, _) ← peek
    match next with
    | .punct "[" | .punct "\x7b" => return true
    | .word name _ => return !reservedWords.contains name
    | .identifier _ => return true
    | _ => return false
  else return false

/-- The kind of declaration that starts here. -/
def variableKind? : Reader (Option VariableKind) := do
  if ← atWord "var" then return some .var
  else if ← atWord "const" then return some .constant
  else if ← letStartsDeclaration then return some .letLike
  else return none

/-! ## Loops -/

/-- The body of a loop. -/
def loopBody (r : Rules) (c : Context) : Reader Unit := do
  let _ ← r.statement { c with breakable := true, continuable := true } false

/-- The rest of a counting loop after its first semicolon. -/
def countingRest (r : Rules) (c : Context) : Reader Unit := do
  if !(← atPunct ";") then
    let _ ← innerExpression r c
  expect ";"
  if !(← atPunct ")") then
    let _ ← innerExpression r c
  expect ")"
  loopBody r c

/-- The rest of a loop over keys or values, from the word `in` or `of` on. -/
def iteratingRest (r : Rules) (c : Context) : Reader Unit := do
  if ← eatWord "of" then
    let _ ← innerAssignment r c
  else
    require (← eatWord "in")
    let _ ← innerExpression r c
  expect ")"
  loopBody r c

/-- What a loop does after the first part of its head, by the current token: it counts after a
semicolon, else it goes over keys or values. Only a loop over values can await them. -/
def headRest (r : Rules) (c : Context) (awaiting : Bool) : Reader Unit := do
  if ← eat ";" then
    require !awaiting
    countingRest r c
  else
    require (!awaiting || (← atWord "of"))
    iteratingRest r c

/-- A `for` loop after its keyword. A loop over keys may give its one variable a first value in
sloppy code. -/
def forLoop (r : Rules) (c : Context) : Reader Unit := do
  let awaiting ← eatWord "await"
  expect "("
  let head := { c with awaitingHead := awaiting }
  if ← atPunct ";" then headRest r c awaiting
  else
    match ← variableKind? with
    | some kind =>
      advance
      let declared ← declarators r head kind true
      if !(← atPunct ";") then
        require (declared.count == 1)
        require (!declared.initialized || (!c.strict && (← atWord "in")))
      headRest r c awaiting
    | none =>
      let target ← expression r { head with allowIn := false }
      if !(← atPunct ";") then require (target.shape.isAssignable c.strict)
      headRest r c awaiting

/-! ## Branches -/

/-- A branch of an `if`. -/
def branch (r : Rules) (c : Context) : Reader Unit := do
  let _ ← r.statement c false

/-- The statements of a `switch` clause. -/
def clauseBody (r : Rules) (c : Context) : Reader Unit :=
  loop (fun () => do
    if (← atPunct "\x7d") || (← atWord "case") || (← atWord "default") then return .inr ()
    else
      let _ ← r.statement c true
      return .inl ()) ()

/-- A `switch` after its keyword: at most one default clause. -/
def switchRest (r : Rules) (c : Context) : Reader Unit := do
  parenExpression r c
  expect "\x7b"
  let c := { c with breakable := true }
  loop (fun defaulted => do
    if ← eat "\x7d" then return .inr ()
    else if ← eatWord "default" then
      require !defaulted
      expect ":"
      clauseBody r c
      return .inl true
    else
      require (← eatWord "case")
      let _ ← innerExpression r c
      expect ":"
      clauseBody r c
      return .inl defaulted) false

/-- A `try` after its keyword: a handler, a finalizer or both. -/
def tryRest (r : Rules) (c : Context) : Reader Unit := do
  blockBody r c
  let handled ← eatWord "catch"
  if handled then
    if ← eat "(" then
      let _ ← r.binding c
      expect ")"
    blockBody r c
  if ← eatWord "finally" then blockBody r c else require handled

/-! ## Jumps -/

/-- The label after `break` or `continue`, if one stands on the same line. -/
def jumpLabel? (c : Context) : Reader (Option String) := do
  if ← atStatementEnd then return none
  else
    match c.reference? (← get).token with
    | some name =>
      advance
      return some name
    | none => refuse

/-- A jump after its keyword: out of a loop, a switch or a labelled statement. -/
def jumpRest (c : Context) (allowed : Bool) : Reader Unit := do
  let label ← jumpLabel? c
  require (allowed && label.all c.labels.contains)
  endStatement

/-- A labelled statement: a label is not used twice. -/
def labelled (r : Rules) (c : Context) (label : String) : Reader Unit := do
  require !(c.labels.contains label)
  advance
  expect ":"
  let c := { c with breakable := true, labels := label :: c.labels }
  if !c.strict && (← eatWord "function") then
    require !(← atPunct "*")
    functionRest r c false true
  else
    let _ ← r.statement c false

/-! ## All statements -/

/-- A statement that starts with a keyword; `none` if the word starts an expression. -/
def keywordStatement (r : Rules) (c : Context) (declarations : Bool) (word : String) :
    Reader (Option Unit) := do
  match word with
  | "var" =>
    advance
    let _ ← declarators r c .var false
    return some (← endStatement)
  | "const" =>
    require declarations
    advance
    let _ ← declarators r c .constant false
    return some (← endStatement)
  | "let" =>
    if declarations && (← letStartsDeclaration) then
      advance
      let _ ← declarators r c .letLike false
      return some (← endStatement)
    else return none
  | "function" =>
    require declarations
    advance
    return some (← functionRest r c false true)
  | "async" =>
    let (next, newline) ← peek
    if next.isWord "function" && !newline then
      advance
      advance
      return some (← functionRest r c true true)
    else return none
  | "class" =>
    require declarations
    advance
    return some (← classRest r c true)
  | "if" =>
    advance
    parenExpression r c
    branch r c
    if ← eatWord "else" then return some (← branch r c) else return some ()
  | "for" =>
    advance
    return some (← forLoop r c)
  | "while" =>
    advance
    parenExpression r c
    return some (← loopBody r c)
  | "do" =>
    advance
    loopBody r c
    require (← eatWord "while")
    parenExpression r c
    let _ ← eat ";"
    return some ()
  | "switch" =>
    advance
    return some (← switchRest r c)
  | "try" =>
    advance
    return some (← tryRest r c)
  | "with" =>
    require !c.strict
    advance
    parenExpression r c
    let _ ← r.statement c false
    return some ()
  | "return" =>
    require c.function
    advance
    if !(← atStatementEnd) then
      let _ ← innerExpression r c
    return some (← endStatement)
  | "throw" =>
    advance
    require !(← atNewline)
    let _ ← innerExpression r c
    return some (← endStatement)
  | "break" =>
    advance
    return some (← jumpRest c c.breakable)
  | "continue" =>
    advance
    return some (← jumpRest c c.continuable)
  | "debugger" =>
    advance
    return some (← endStatement)
  | _ => return none

/-- A statement that starts with `import`: an expression, which needs no end. -/
def importStatement (r : Rules) (c : Context) : Reader Statement := do
  let (next, _) ← peek
  require (next == .punct "(" || next == .punct ".")
  let term ← expression r c
  let _ ← eat ";"
  return .expression term

/-- An expression statement. -/
def expressionStatement (r : Rules) (c : Context) : Reader Statement := do
  let term ← innerExpression r c
  endStatement
  return .expression term

/-- The label that starts here. The word `await` is an operator, not a label. -/
def label? (c : Context) : Reader (Option String) := do
  let token := (← get).token
  let (next, _) ← peek
  if next == .punct ":" && !token.isWord "await" then return c.reference? token else return none

/-- A statement that starts with no keyword. -/
def plainStatement (r : Rules) (c : Context) : Reader Statement := do
  let start ← mark
  match ← label? c with
  | some label =>
    labelled r c label
    return .other start (← done)
  | none => expressionStatement r c

/-- A statement. -/
def statementRule (r : Rules) (c : Context) (declarations : Bool) : Reader Statement := do
  let start ← mark
  let token := (← get).token
  match token with
  | .punct ";" =>
    advance
    return .empty
  | .punct "\x7b" =>
    blockBody r c
    return .other start (← done)
  | .word "import" _ => importStatement r c
  | .word word _ =>
    require (c.name? token).isSome
    match ← keywordStatement r c declarations word with
    | some () => return .other start (← done)
    | none => plainStatement r c
  | .identifier _ => plainStatement r c
  | _ => expressionStatement r c

end PugComponents.Script
