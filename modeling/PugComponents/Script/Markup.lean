import PugComponents.Script.Cursor

/- Markup inside a script: elements and fragments with attributes, text,
   containers and nested elements. The names of an opening and its closing tag
   agree. -/
namespace PugComponents.Script

open Reader

/-- A name inside a tag. -/
def markupName : Reader String := do
  match (← get).token with
  | .markupName name =>
    advance .tag
    return name
  | _ => refuse

/-- The name of an element, in parts: a namespace and a name, or a path of members. -/
def elementName : Reader (List String) := do
  let first ← markupName
  if ← eat ":" .tag then
    let second ← markupName
    return [first, ":", second]
  else
    loop (fun parts => do
      if ← eat "." .tag then
        let part ← markupName
        return .inl (parts ++ [".", part])
      else return .inr parts) [first]

/-- The expression of a container, which starts after the current token. The token after the
container is read in `mode`. -/
def container (r : Rules) (c : Context) (mode : Mode) : Reader Unit := do
  advance
  let _ ← r.assignment c
  loop (fun () => do
    if ← eat "," then
      let _ ← r.assignment c
      return .inl ()
    else return .inr ()) ()
  expect "\x7d" mode

/-- A container among children, which may be empty or a spread. -/
def childContainer (r : Rules) (c : Context) : Reader Unit := do
  let (next, _) ← peek
  if next == .punct "\x7d" then
    advance
    expect "\x7d" .child
  else if next == .punct "..." then
    advance
    container r c .child
  else container r c .child

/-- An attribute or a spread, which takes one expression without commas. -/
def markupAttribute (r : Rules) (c : Context) : Reader Unit := do
  if ← eat "\x7b" then
    expect "..."
    let _ ← r.assignment c
    expect "\x7d" .tag
  else
    let _ ← markupName
    if ← eat ":" .tag then
      let _ ← markupName
    if ← eat "=" .tag then
      match (← get).token with
      | .markupString => advance .tag
      | .punct "\x7b" => container r c .tag
      | .punct "<" => r.markup c .tag
      | _ => refuse

/-- The current bracket opens a closing tag. -/
def atClosingTag : Reader Bool := do
  match Cursor.at? .tag (← get).rest with
  | some next => return next.token == .punct "/"
  | none => refuse

/-- Children up to a closing tag. -/
def children (r : Rules) (c : Context) : Reader Unit :=
  loop (fun () => do
    match (← get).token with
    | .markupText =>
      advance .child
      return .inl ()
    | .punct "\x7b" =>
      childContainer r c
      return .inl ()
    | .punct "<" =>
      if ← atClosingTag then return .inr ()
      else
        r.markup c .child
        return .inl ()
    | _ => refuse) ()

/-- An element or a fragment whose first bracket is the current token. -/
def markupRule (r : Rules) (c : Context) (mode : Mode) : Reader Unit := do
  expect "<" .tag
  if ← eat ">" .child then
    children r c
    expect "<" .tag
    expect "/" .tag
    expect ">" mode
  else
    let name ← elementName
    let selfClosing ← loop (fun () => do
      if ← atPunct "/" then return .inr true
      else if ← atPunct ">" then return .inr false
      else
        markupAttribute r c
        return .inl ()) ()
    if selfClosing then
      expect "/" .tag
      expect ">" mode
    else
      expect ">" .child
      children r c
      expect "<" .tag
      expect "/" .tag
      let closing ← elementName
      require (closing == name)
      expect ">" mode

end PugComponents.Script
