import PugComponents.Script.Function
import PugComponents.Script.Markup

/- Expressions. Arrow functions stand only at the start of an assignment
   expression, so the flag `arrow` is handed down to the first operand and to
   nothing else. -/
namespace PugComponents.Script

open Reader

/-- A comma expression. -/
def expression (r : Rules) (c : Context) : Reader Term := do
  let first ← r.assignment c
  if ← atPunct "," then
    loop (fun () => do
      if ← eat "," then
        let _ ← r.assignment c
        return .inl ()
      else
        return .inr (← close .sequence first.start)) ()
  else return first

/-- A comma expression where the operator `in` is allowed. -/
def innerExpression (r : Rules) (c : Context) : Reader Term := expression r { c with allowIn := true }

/-! ## Literals -/

/-- The elements of an array literal after its opening bracket. -/
def arrayLiteral (r : Rules) (c : Context) : Reader Shape :=
  loop (fun (state : List Element × Bool) => do
    let (read, comma) := state
    let finish (element : Element) : Reader ((List Element × Bool) ⊕ Shape) := do
      if ← atPunct "]" then return .inl (element :: read, false)
      else
        expect ","
        return .inl (element :: read, true)
    if ← eat "]" then return .inr (.array read.reverse comma)
    else if ← eat "," then return .inl (.hole :: read, true)
    else if ← eat "..." then
      let term ← innerAssignment r c
      finish (.spread term.shape)
    else
      let term ← innerAssignment r c
      finish (.item term.shape)) ([], false)

/-- A property of an object literal. -/
def objectProperty (r : Rules) (c : Context) : Reader Property := do
  if ← eat "..." then
    let term ← innerAssignment r c
    return .spread term.shape
  else
    let m ← methodModifiers c false
    let key ← propertyKey r c
    if m.any || (← atPunct "(") then
      methodTail r c m
      return .method
    else if ← eat ":" then
      let term ← innerAssignment r c
      return .keyed term.shape
    else
      match key with
      | .name id reference =>
        require reference
        if ← eat "=" then
          let _ ← innerAssignment r c
          return .initialized id
        else return .shorthand id
      | _ => refuse

/-- The properties of an object literal after its opening brace. -/
def objectLiteral (r : Rules) (c : Context) : Reader Shape :=
  loop (fun (state : List Property × Bool) => do
    let (read, comma) := state
    if ← eat "\x7d" then return .inr (.object read.reverse comma)
    else
      let property ← objectProperty r c
      if ← atPunct "\x7d" then return .inl (property :: read, false)
      else
        expect ","
        return .inl (property :: read, true)) ([], false)

/-- A template whose opening mark is the current token. -/
def template (r : Rules) (c : Context) (tagged : Bool) : Reader Unit := do
  loop (fun text => do
    match templateText tagged text with
    | none => refuse
    | some (.closed, rest) =>
      jump .script rest
      return .inr ()
    | some (.substitution, rest) =>
      jump .script rest
      let _ ← innerExpression r c
      require (← atPunct "\x7d")
      return .inl (← get).rest) (← get).rest

/-- A regular expression whose opening slash starts the current token. -/
def regex : Reader Unit := do
  match regex? (← get).here.tail with
  | some rest => jump .script rest
  | none => refuse

/-! ## Parenthesized expressions and arrow functions -/

/-- Parenthesized items, which a later arrow turns into parameters. -/
structure Items where
  /-- The shapes in order; the flag marks a spread. -/
  items : List (Bool × Shape)
  /-- A comma follows the last item. -/
  comma : Bool

namespace Items

/-- The items are parameters: patterns, the last one perhaps taking the rest. -/
def areParameters (strict : Bool) (i : Items) : Bool :=
  i.items.dropLast.all (fun (spread, shape) => !spread && shape.isParameter strict) &&
    match i.items.getLast? with
    | none => !i.comma
    | some (true, .assignment _) => false
    | some (true, shape) => !i.comma && shape.isParameter strict
    | some (false, shape) => shape.isParameter strict

/-- The items are plain names. -/
def areNames (i : Items) : Bool := i.items.all fun (spread, shape) => !spread && shape.isName

/-- Some item is an object literal that only a pattern gives a meaning. -/
def needPatterns (i : Items) : Bool := i.items.any fun (_, shape) => shape.hasInitializedProperty

/-- The shape of the items as a parenthesized expression. -/
def paren? (i : Items) : Option Shape :=
  if i.comma || i.items.any (fun (spread, _) => spread) then none
  else
    match i.items with
    | [] => none
    | [(_, shape)] => some (.paren shape)
    | _ => some (.paren .sequence)

end Items

/-- Items in parentheses. -/
def parenItems (r : Rules) (c : Context) : Reader Items := do
  expect "("
  loop (fun i : Items => do
    if ← eat ")" then return .inr { i with items := i.items.reverse }
    else
      let spread ← eat "..."
      let term ← innerAssignment r c
      if ← atPunct ")" then return .inl ⟨(spread, term.shape) :: i.items, false⟩
      else
        expect ","
        return .inl ⟨(spread, term.shape) :: i.items, true⟩) ⟨[], false⟩

/-- Binary operators with their precedence. -/
def binaryOperators : List (String × Nat) :=
  [("??", 1), ("||", 1), ("&&", 2), ("|", 3), ("^", 4), ("&", 5), ("==", 6), ("!=", 6), ("===", 6),
   ("!==", 6), ("<", 7), (">", 7), ("<=", 7), (">=", 7), ("<<", 8), (">>", 8), (">>>", 8), ("+", 9),
   ("-", 9), ("*", 10), ("/", 10), ("%", 10), ("**", 11)]

/-- The current token is a binary operator that is no word. -/
def atBinaryOperator : Reader Bool := do
  match (← get).token with
  | .punct text => return (binaryOperators.lookup text).isSome
  | _ => return false

/-- A parenthesized expression, an arrow function, or, after `async`, a call. No operator follows
the braces of an arrow function. -/
def parenthesized (r : Rules) (c : Context) (arrow async : Bool) (start : Nat) : Reader Term := do
  let items ← parenItems r c
  if ← atPunct "=>" then
    require (arrow && !(← atNewline) && items.areParameters c.strict)
    advance
    let braces ← arrowBody r c async items.areNames
    require !(braces && (← atBinaryOperator))
    close .arrow start
  else
    require !items.needPatterns
    if async then close .call start
    else
      match items.paren? with
      | some shape => close shape start
      | none => refuse

/-- The rest of an arrow function whose one parameter is a plain name. -/
def arrowAfterName (r : Rules) (c : Context) (async : Bool) (start : Nat) : Reader Term := do
  expect "=>"
  let _ ← arrowBody r c async true
  close .arrow start

/-- The word `of` stands here and goes on with the head of a loop that awaits its values. -/
def atAwaitedOf (c : Context) : Reader Bool := do
  if c.awaitingHead && (← atWord "of") then
    let (next, _) ← peek
    return next != .punct "=>"
  else return false

/-- An identifier, or an arrow function that starts with one. The word `let` starts none. -/
def identifier (r : Rules) (c : Context) (arrow : Bool) (start : Nat) : Reader Term := do
  let token := (← get).token
  match c.reference? token with
  | none => refuse
  | some name =>
    require !(c.classField && name == "arguments")
    advance
    let cursor ← get
    if !arrow || token.isWord "let" || cursor.newline then close (.name name) start
    else if token.isWord "async" && cursor.token == .punct "(" then parenthesized r c true true start
    else if name == "async" && (c.reference? cursor.token).isSome then
      if ← atAwaitedOf c then close (.name name) start
      else
        bindingName c
        arrowAfterName r c true start
    else if cursor.token == .punct "=>" then
      require !(c.strict && Shape.isProtectedName name)
      arrowAfterName r c false start
    else close (.name name) start

/-! ## Operands -/

/-- An expression that no operator takes part in. -/
def primary (r : Rules) (c : Context) (arrow : Bool) : Reader Term := do
  let start ← mark
  match (← get).token with
  | .word "this" _ | .word "null" _ | .word "true" _ | .word "false" _ =>
    advance
    close .other start
  | .word "function" _ =>
    advance
    functionRest r c false false
    close .other start
  | .word "class" _ =>
    advance
    classRest r c false
    close .other start
  | .word "async" _ =>
    let (next, newline) ← peek
    if next.isWord "function" && !newline then
      advance
      advance
      functionRest r c true false
      close .other start
    else identifier r c arrow start
  | .number big octal =>
    require !(c.strict && octal)
    advance
    close (if big then .other else .number) start
  | .string octal =>
    require !(c.strict && octal)
    advance
    close .other start
  | .punct "[" =>
    advance
    let shape ← arrayLiteral r c
    close shape start
  | .punct "\x7b" =>
    advance
    let shape ← objectLiteral r c
    close shape start
  | .punct "(" => parenthesized r c arrow false start
  | .punct "\x60" =>
    template r c false
    close .other start
  | .punct "/" | .punct "/=" =>
    regex
    close .other start
  | .punct "#" =>
    let _ ← privateName c true
    close .other start
  | _ => identifier r c arrow start

/-- The arguments of a call. A comma may follow the last one if `trailing`. -/
def arguments (r : Rules) (c : Context) (trailing : Bool) : Reader Unit := do
  expect "("
  loop (fun () => do
    if ← eat ")" then return .inr ()
    else
      let _ ← eat "..."
      let _ ← innerAssignment r c
      if ← eat "," then require (trailing || !(← atPunct ")"))
      else require (← atPunct ")")
      return .inl ()) ()

/-- A name after a dot. -/
def memberName (c : Context) : Reader Unit := do
  require (c.name? (← get).token).isSome
  advance

/-- A name or a private name after a dot. -/
def anyMemberName (c : Context) : Reader Unit := do
  if ← atPunct "#" then
    let _ ← privateName c false
  else memberName c

/-- A computed member after its opening bracket. -/
def computedMember (r : Rules) (c : Context) : Reader Unit := do
  let _ ← innerExpression r c
  expect "]"

/-- The shape a step gives a chain: once optional, always optional. -/
def Shape.step (base next : Shape) : Shape :=
  match base with
  | .optional => .optional
  | _ => next

/-- The steps after an operand: members, templates and, if `calls`, calls. -/
def subscripts (r : Rules) (c : Context) (calls : Bool) (base : Term) : Reader Term :=
  loop (fun term : Term => do
    if ← eat "?." then
      if ← eat "[" then computedMember r c
      else if ← atPunct "(" then arguments r c true
      else anyMemberName c
      return .inl (← close .optional term.start)
    else if ← eat "." then
      anyMemberName c
      return .inl (← close (term.shape.step .member) term.start)
    else if ← eat "[" then
      computedMember r c
      return .inl (← close (term.shape.step .member) term.start)
    else if calls && (← atPunct "(") then
      arguments r c true
      return .inl (← close (term.shape.step .call) term.start)
    else if ← atPunct "\x60" then
      match term.shape with
      | .optional => refuse
      | _ =>
        template r c true
        return .inl (← close .other term.start)
    else return .inr term) base

/-- `super` with its first step. It can be called anywhere, but has no private members. -/
def superStep (r : Rules) (c : Context) (calls : Bool) : Reader Term := do
  let start ← mark
  advance
  if calls && (← atPunct "(") then
    arguments r c true
    close .call start
  else
    require c.superMember
    if ← eat "[" then computedMember r c
    else
      expect "."
      memberName c
    close .member start

/-- `import` with its arguments, of which there may be any number. A phase can be named before
them. -/
def importCall (r : Rules) (c : Context) : Reader Term := do
  let start ← mark
  advance
  if ← eat "." then
    let phase := c.name? (← get).token
    require (phase == some "defer" || phase == some "source")
    advance
  arguments r c false
  close .call start

/-- `new` with its operand, or an operand with its member steps. -/
def newOrMember (r : Rules) (c : Context) (arrow : Bool) : Reader Term := do
  let start ← mark
  if ← eatWord "new" then
    if ← eat "." then
      require ((← eatWord "target") && c.hasNewTarget)
      subscripts r c false (← close .other start)
    else
      let callee ← r.callee c
      match callee.shape with
      | .optional => refuse
      | _ =>
        if ← atPunct "(" then
          arguments r c true
          subscripts r c false (← close .other start)
        else close .bareNew start
  else if ← atWord "super" then subscripts r c false (← superStep r c false)
  else if ← atWord "import" then subscripts r c false (← importCall r c)
  else
    let base ← primary r c arrow
    match base.shape with
    | .arrow => return base
    | _ => subscripts r c false base

/-- An operand with all its steps. -/
def leftHandRule (r : Rules) (c : Context) (arrow : Bool) : Reader Term := do
  if ← atWord "super" then subscripts r c true (← superStep r c true)
  else if ← atWord "import" then subscripts r c true (← importCall r c)
  else
    let callee ← newOrMember r c arrow
    match callee.shape with
    | .arrow | .bareNew => return callee
    | shape =>
      if ← atPunct "(" then
        arguments r c true
        subscripts r c true (← close (shape.step .call) callee.start)
      else return callee

/-! ## Operators -/

/-- `await` with its operand. Outside asynchronous code it is a name where nothing follows it. -/
def awaitTerm (r : Rules) (c : Context) : Reader Term := do
  let start ← mark
  require (c.name? (← get).token).isSome
  advance
  if !c.async &&
      ((← atStatementEnd) || (← atPunct ")") || (← atPunct "]") || (← atPunct ",")) then
    require !c.staticBlock
    close (.name "await") start
  else
    require c.canAwait
    let operand ← r.unary c
    return ⟨.await, start, operand.stop⟩

/-- A prefix operator that needs no target. -/
def isPrefixOperator : Token → Bool
  | .punct "+" | .punct "-" | .punct "~" | .punct "!" => true
  | .word "delete" _ | .word "void" _ | .word "typeof" _ => true
  | _ => false

/-- An operator that counts up or down. -/
def isUpdateOperator (token : Token) : Bool := token == .punct "++" || token == .punct "--"

/-- An operand with its prefix and postfix operators. Markup is an operand that takes neither steps
nor postfix operators. -/
def unaryRule (r : Rules) (c : Context) (arrow : Bool) : Reader Term := do
  let start ← mark
  let token := (← get).token
  if isUpdateOperator token then
    advance
    let operand ← r.unary c
    require (operand.shape.isSimpleTarget c.strict)
    return ⟨.update, start, operand.stop⟩
  else if isPrefixOperator token then
    advance
    let operand ← r.unary c
    require !(c.strict && token.isWord "delete" && operand.shape.isName)
    return ⟨.unary, start, operand.stop⟩
  else if token.isWord "await" then awaitTerm r c
  else if token == .punct "<" then
    r.markup c .script
    close .other start
  else
    let operand ← leftHandRule r c arrow
    match operand.shape with
    | .arrow => return operand
    | shape =>
      let cursor ← get
      if !cursor.newline && isUpdateOperator cursor.token then
        require (shape.isSimpleTarget c.strict)
        advance
        close .update operand.start
      else return operand

/-- The binary operator a token is here, with its precedence. -/
def binaryOperator? (allowIn : Bool) : Token → Option (String × Nat)
  | .punct text => (binaryOperators.lookup text).map fun precedence => (text, precedence)
  | .word "in" _ => if allowIn then some ("in", 7) else none
  | .word "instanceof" _ => some ("instanceof", 7)
  | _ => none

/-- The shape can stand left of `**`. -/
def Shape.isPowerBase : Shape → Bool
  | .unary | .await => false
  | _ => true

/-- A logical operation, which does not mix with `??`. -/
def Shape.isLogical : Shape → Bool
  | .binary "&&" | .binary "||" => true
  | _ => false

/-- The operators after an operand that bind more tightly than `least`. Each step reads an
operator, so the text that is left bounds their number. -/
def binaryTail (r : Rules) (c : Context) : Nat → Nat → Term → Reader Term
  | 0, _, _ => refuse
  | n + 1, least, left => do
    match binaryOperator? c.allowIn (← get).token with
    | none => return left
    | some (operator, precedence) =>
      if precedence ≤ least then return left
      else
        require (operator != "**" || left.shape.isPowerBase)
        advance
        let operand ← r.unary c
        let right ← binaryTail r c n (if operator == "**" then precedence - 1 else precedence) operand
        require !(operator == "??" && (left.shape.isLogical || right.shape.isLogical))
        binaryTail r c n least ⟨.binary operator, left.start, right.stop⟩

/-- Operands joined by binary operators. -/
def binaryRule (r : Rules) (c : Context) (arrow : Bool) : Reader Term := do
  let left ← unaryRule r c arrow
  match left.shape with
  | .arrow => return left
  | _ => binaryTail r c ((← get).gap.length + 2) 0 left

/-- The ternary operator. Between `?` and `:` the operator `in` is allowed. -/
def conditionalRule (r : Rules) (c : Context) (arrow : Bool) : Reader Term := do
  let test ← binaryRule r c arrow
  match test.shape with
  | .arrow => return test
  | _ =>
    if ← eat "?" then
      let _ ← innerAssignment r c
      expect ":"
      let alternate ← r.assignment c
      return ⟨.conditional, test.start, alternate.stop⟩
    else return test

/-- `yield` with its optional operand. -/
def yieldTerm (r : Rules) (c : Context) : Reader Term := do
  let start ← mark
  require (c.canYield && (c.name? (← get).token).isSome)
  advance
  let cursor ← get
  let closes := [")", "]", "\x7d", ",", ":", ";"].any (fun p => cursor.token == .punct p) ||
    cursor.token == .endOfText || cursor.token.isWord "in" || cursor.newline
  if closes then close .yield start
  else
    let _ ← eat "*"
    let operand ← r.assignment c
    return ⟨.yield, start, operand.stop⟩

/-- Assignment operators other than `=`. -/
def compoundAssignments : List String :=
  ["+=", "-=", "*=", "/=", "%=", "**=", "<<=", ">>=", ">>>=", "&=", "|=", "^=", "&&=", "||=", "??="]

/-- An assignment operator and its right side, if they follow. -/
def assignmentTail (r : Rules) (c : Context) (left : Term) : Reader Term := do
  match (← get).token with
  | .punct "=" =>
    require (left.shape.isAssignable c.strict)
    advance
    let right ← r.assignment c
    return ⟨.assignment true, left.start, right.stop⟩
  | .punct text =>
    if compoundAssignments.contains text then
      require (left.shape.isSimpleTarget c.strict)
      advance
      let right ← r.assignment c
      return ⟨.assignment false, left.start, right.stop⟩
    else return left
  | _ => return left

/-- An assignment expression. After an operator other than an assignment no assignment follows. -/
def assignmentRule (r : Rules) (c : Context) : Reader Term := do
  if c.generator && (← atWord "yield") then yieldTerm r c
  else
    let left ← conditionalRule r c true
    match left.shape with
    | .arrow | .conditional | .binary _ | .unary | .update => return left
    | _ => assignmentTail r c left

end PugComponents.Script
