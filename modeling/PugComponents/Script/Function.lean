import PugComponents.Script.Cursor

/- Functions and classes: binding patterns, parameters, bodies, methods and
   class members. -/
namespace PugComponents.Script

open Reader

/-! ## Binding patterns -/

/-- A bound name. -/
def bindingName (c : Context) : Reader Unit := do
  require (c.bindable? (← get).token).isSome
  advance

/-- A bound name, if one stands here. -/
def optionalName (c : Context) : Reader Unit := do
  if (c.reference? (← get).token).isSome then bindingName c

/-- An expression where the operator `in` is allowed. -/
def innerAssignment (r : Rules) (c : Context) : Reader Term := r.assignment { c with allowIn := true }

/-- A binding pattern with an optional default; gives whether it is a plain name. -/
def bindingElement (r : Rules) (c : Context) : Reader Bool := do
  let plain ← r.binding c
  if ← eat "=" then
    let _ ← innerAssignment r c
    return false
  else return plain

/-- Between the members of a list: a comma, unless the list closes. -/
def separate (closing : String) : Reader Unit := do
  if !(← atPunct closing) then expect ","

/-- What names a property. -/
inductive PropertyKey
  /-- A name; `reference` when it can refer to a variable. -/
  | name (id : String) (reference : Bool)
  /-- A string, as written. -/
  | quoted (text : String)
  | number
  | computed
  /-- `#id` -/
  | hidden (id : String)

/-- The key names the constructor of a class. -/
def PropertyKey.isConstructor : PropertyKey → Bool
  | .name id _ => id == "constructor"
  | .quoted text => text == "'constructor'" || text == "\"constructor\""
  | _ => false

/-- The name of a property that is no private name. -/
def propertyKey (r : Rules) (c : Context) : Reader PropertyKey := do
  let token := (← get).token
  match token with
  | .string octal =>
    require !(c.strict && octal)
    let text ← spelling
    advance
    return .quoted text
  | .number _ octal =>
    require !(c.strict && octal)
    advance
    return .number
  | .punct "[" =>
    advance
    let _ ← innerAssignment r c
    expect "]"
    return .computed
  | _ =>
    match c.name? token with
    | some id =>
      advance
      return .name id (c.reference? token).isSome
    | none => refuse

/-- The name after `#`, which is the current token. Unless `spaced`, no gap stands between. -/
def privateName (c : Context) (spaced : Bool) : Reader String := do
  expect "#"
  require (spaced || (← adjacent))
  match c.name? (← get).token with
  | some id =>
    advance
    return id
  | none => refuse

/-- The name of a class member. -/
def memberKey (r : Rules) (c : Context) : Reader PropertyKey := do
  if ← atPunct "#" then return .hidden (← privateName c false)
  else propertyKey r c

/-- A token that can start the name of a class member. -/
def startsMemberKey : Token → Bool
  | .word _ _ | .identifier _ | .string _ | .number _ _ | .punct "#" | .punct "[" => true
  | _ => false

/-- A property of an object pattern. A name that is no reference needs a default. -/
def bindingProperty (r : Rules) (c : Context) : Reader Unit := do
  let key ← propertyKey r c
  if ← eat ":" then
    let _ ← bindingElement r c
  else
    match key with
    | .name _ reference =>
      if ← eat "=" then
        let _ ← innerAssignment r c
      else require reference
    | _ => refuse

/-- A binding pattern: a name, an array pattern or an object pattern. -/
def bindingRule (r : Rules) (c : Context) : Reader Bool := do
  if ← eat "[" then
    loop (fun () => do
      if ← eat "]" then return .inr false
      else if ← eat "," then return .inl ()
      else if ← eat "..." then
        let _ ← r.binding c
        expect "]"
        return .inr false
      else
        let _ ← bindingElement r c
        separate "]"
        return .inl ()) ()
  else if ← eat "\x7b" then
    loop (fun () => do
      if ← eat "\x7d" then return .inr false
      else if ← eat "..." then
        bindingName c
        expect "\x7d"
        return .inr false
      else
        bindingProperty r c
        separate "\x7d"
        return .inl ()) ()
  else
    bindingName c
    return true

/-! ## Functions -/

/-- What matters of a parameter list. -/
structure Parameters where
  /-- Plain names only. -/
  simple : Bool
  count : Nat
  /-- The last parameter takes the rest. -/
  rest : Bool

/-- A parenthesized parameter list. -/
def parameters (r : Rules) (c : Context) : Reader Parameters := do
  expect "("
  loop (fun ps : Parameters => do
    if ← eat ")" then return .inr ps
    else if ← eat "..." then
      let _ ← r.binding c
      expect ")"
      return .inr { simple := false, count := ps.count + 1, rest := true }
    else
      let plain ← bindingElement r c
      separate ")"
      return .inl { ps with simple := ps.simple && plain, count := ps.count + 1 })
    { simple := true, count := 0, rest := false }

/-- The current token is the directive that makes a body strict. -/
def atStrictDirective : Reader Bool := do
  let text ← spelling
  return text == "'use strict'" || text == "\"use strict\""

/-- The statement is exactly one token, which ends where `stop` characters are left. -/
def Statement.isToken (stop : Nat) : Statement → Bool
  | .expression term => term.stop == stop
  | _ => false

/-- Statements up to a token. If `directive`, all of them are strict when the first one starts with
the directive. The directive as a statement of its own needs `simple` parameters. -/
def statements (r : Rules) (c : Context) (directive simple : Bool) (stop : Token) :
    Reader (List Statement) := do
  let strict ← atStrictDirective
  let c := { c with strict := c.strict || (directive && strict) }
  loop (fun (state : Bool × List Statement) => do
    let (first, read) := state
    let cursor ← get
    if cursor.token == stop then return .inr read.reverse
    else
      let next ← r.statement c true
      require (simple || !(first && strict && next.isToken cursor.rest.length))
      return .inl (false, next :: read)) (true, [])

/-- Statements in braces. -/
def braced (r : Rules) (c : Context) (directive simple : Bool) : Reader Unit := do
  expect "\x7b"
  let _ ← statements r c directive simple (.punct "\x7d")
  expect "\x7d"

/-- The parameters and the body of a function that is no arrow. -/
def functionTail (r : Rules) (c : Context) (async generator : Bool) : Reader Parameters := do
  let ps ← parameters r (c.inParameters async generator)
  braced r (c.inBody async generator) true ps.simple
  return ps

/-- A function after its keyword. A declaration has a name. -/
def functionRest (r : Rules) (c : Context) (async named : Bool) : Reader Unit := do
  let generator ← eat "*"
  if named then bindingName c
  else optionalName { c with async := async, generator := generator }
  let _ ← functionTail r c.inFunction async generator

/-- The body of an arrow function; gives whether it stands in braces. It keeps the surrounding rule
on `in`, and no directive makes it strict. -/
def arrowBody (r : Rules) (c : Context) (async simple : Bool) : Reader Bool := do
  if ← atPunct "\x7b" then
    braced r (c.inArrow async) false simple
    return true
  else
    let _ ← r.assignment (c.inArrow async)
    return false

/-! ## Methods -/

/-- What stands before the name of a method. -/
structure Modifiers where
  async : Bool := false
  generator : Bool := false
  getter : Bool := false
  setter : Bool := false

/-- Some modifier is written. -/
def Modifiers.any (m : Modifiers) : Bool := m.async || m.generator || m.getter || m.setter

/-- The modifiers of a method: `async`, `*`, `get` and `set`. They are modifiers where a name
follows; if `sameLine`, the name stands on the line of `async`. -/
def methodModifiers (c : Context) (sameLine : Bool) : Reader Modifiers := do
  if ← eat "*" then return { generator := true }
  else
    let name := c.name? (← get).token
    let (next, newline) ← peek
    if name == some "async" && (startsMemberKey next || next == .punct "*") &&
        !(sameLine && newline) then
      advance
      return { async := true, generator := ← eat "*" }
    else if name == some "get" && startsMemberKey next then
      advance
      return { getter := true }
    else if name == some "set" && startsMemberKey next then
      advance
      return { setter := true }
    else return {}

/-- The number of parameters suits an accessor. -/
def Modifiers.accepts (m : Modifiers) (ps : Parameters) : Bool :=
  (!m.getter || ps.count == 0) && (!m.setter || (ps.count == 1 && !ps.rest))

/-- A method after its name. -/
def methodTail (r : Rules) (c : Context) (m : Modifiers) : Reader Unit := do
  let ps ← functionTail r c.inMethod m.async m.generator
  require (m.accepts ps)

/-! ## Classes -/

/-- A constructor after its name. Its parameters are read as the rest of the class. -/
def constructorTail (r : Rules) (c : Context) : Reader Unit := do
  let ps ← parameters r c
  braced r (c.inBody false false) true ps.simple

/-- The keyword `static` as a modifier. -/
def staticModifier (c : Context) : Reader Bool := do
  if ← atWord "static" then
    require (c.name? (← get).token).isSome
    let (next, _) ← peek
    if startsMemberKey next || next == .punct "*" || next == .punct "\x7b" then
      advance
      return true
    else return false
  else return false

/-- A field after its name. -/
def fieldTail (r : Rules) (c : Context) : Reader Unit := do
  if ← eat "=" then
    let _ ← r.assignment c.inField
  endStatement

/-- A class member; gives whether it is the constructor. Whatever is named like the constructor is
the constructor, also behind `static`, so it is a method without other modifiers. -/
def classMember (r : Rules) (c : Context) : Reader Bool := do
  let static ← staticModifier c
  if static && (← atPunct "\x7b") then
    braced r c.inStaticBlock false true
    return false
  else
    let m ← methodModifiers c true
    let key ← memberKey r c
    let called ← atPunct "("
    match key with
    | .hidden id => require (id != "constructor")
    | _ => require (!key.isConstructor || (called && !m.any))
    if !called then
      require !m.any
      fieldTail r c
    else if key.isConstructor then constructorTail r c
    else methodTail r c m
    return key.isConstructor

/-- A class after its keyword. A declaration has a name. All of it is strict. -/
def classRest (r : Rules) (c : Context) (named : Bool) : Reader Unit := do
  let c := { c with strict := true }
  if named then bindingName c else optionalName c
  if ← eatWord "extends" then
    let _ ← r.leftHand c
  expect "\x7b"
  loop (fun constructed => do
    if ← eat "\x7d" then return .inr ()
    else if ← eat ";" then return .inl constructed
    else
      let constructor ← classMember r c.inMember
      require !(constructor && constructed)
      return .inl (constructed || constructor)) false

end PugComponents.Script
