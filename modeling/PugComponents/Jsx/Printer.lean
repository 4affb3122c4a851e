import PugComponents.Jsx.Tree
import PugComponents.Text.Identifier
import PugComponents.Text.Quoted

/- Printing with two-space indentation. A printed part starts where the cursor
   stands, and its further lines carry their own indentation. An expression is
   parenthesized where it binds more loosely than its place requires. -/
namespace PugComponents.Jsx

open Text
open Script (Strength)

/-- The white space at the start of a line. -/
def indentation (level : Nat) : String := String.ofList (List.replicate (2 * level) ' ')

/-- A line break and the indentation of the new line. -/
def newLine (level : Nat) : String := "\n" ++ indentation level

/-- Text in braces. -/
def braced (text : String) : String := "\x7b" ++ text ++ "\x7d"

/-- Parentheses where an operand of this strength needs them. -/
def wrap (strength required : Strength) (text : String) : String :=
  if strength.needsParens required then "(" ++ text ++ ")" else text

/-- The key of a property; one that is no identifier is quoted. -/
def propertyKey (key : String) : String := if isIdentifier key.toList then key else quoted key

/-- A binding in an object pattern. -/
def renderBinding (b : String × String) : String :=
  if b.1 == b.2 then b.2 else propertyKey b.1 ++ ": " ++ b.2

/-- A parameter. -/
def Param.render : Param → String
  | .ident name => name
  | .destructured bindings => braced (" " ++ joinWith ", " (bindings.map renderBinding) ++ " ")

/-- A parameter list without its parentheses. -/
def renderParams (params : List Param) : String := joinWith ", " (params.map Param.render)

/-- A statement copied from a template, ended by a semicolon. -/
def renderRaw (source : String) : String :=
  let text := trimEnd source.toList
  if text.getLast? == some ';' then String.ofList text else String.ofList text ++ ";"

/-- Text of markup; text with a character that means something in markup is a literal in braces. -/
def renderText (value : String) : String :=
  if value.toList.any (fun c => c == '\x7b' || c == '\x7d' || c == '<' || c == '>') then
    braced (quoted value)
  else value

/-- Children are laid out one to a line: there is markup among them, and no words. -/
def isBlockLayout (children : List Child) : Bool :=
  children.any Child.isMarkup && !children.any Child.isWords

mutual

/-- An expression at a place that requires a strength. -/
def renderExpr (level : Nat) (required : Strength) : Expr → String
  | .embedded e => wrap e.strength required e.source
  | .null => "null"
  | .str value => quoted value
  | .ident name => name
  | .object properties =>
    if properties.isEmpty then braced ""
    else braced (" " ++ joinWith ", " (renderProperties level properties) ++ " ")
  | .conditional test consequent alternate =>
    wrap .conditional required
      (renderExpr level .binary test ++ " ? " ++ renderExpr level .assignment consequent ++ " : " ++
        renderExpr level .assignment alternate)
  | .call callee arguments =>
    renderExpr level .primary callee ++ "(" ++ joinWith ", " (renderArguments level arguments) ++ ")"
  | .member object property => renderExpr level .primary object ++ "." ++ property
  | .arrow params result =>
    let body := renderExpr level .assignment result
    wrap .assignment required
      ("(" ++ renderParams params ++ ") => " ++ if result.isObject then "(" ++ body ++ ")" else body)
  | .blockArrow params body =>
    wrap .assignment required
      ("(" ++ renderParams params ++ ") => " ++
        if body.isEmpty then braced ""
        else braced (renderStmts (level + 1) body ++ newLine level))
  | .markup m => renderMarkup level false m

/-- The texts of arguments. -/
def renderArguments (level : Nat) : List Expr → List String
  | [] => []
  | e :: rest => renderExpr level .assignment e :: renderArguments level rest

/-- The texts of properties. -/
def renderProperties (level : Nat) : List Property → List String
  | [] => []
  | .mk key value :: rest =>
    (propertyKey key ++ ": " ++ renderExpr level .assignment value) :: renderProperties level rest

/-- A statement. -/
def renderStmt (level : Nat) : Stmt → String
  | .raw source => renderRaw source
  | .expression e => renderExpr level .sequence e ++ ";"
  | .binding name init => "const " ++ name ++ " = " ++ renderExpr level .assignment init ++ ";"
  | .switch subject cases =>
    "switch (" ++ renderExpr level .sequence subject ++ ") " ++
      braced (renderCases (level + 1) cases ++ newLine level)
  | .result value => "return " ++ renderExpr level .sequence value ++ ";"

/-- Statements, each on a new line. -/
def renderStmts (level : Nat) : List Stmt → String
  | [] => ""
  | stmt :: rest => newLine level ++ renderStmt level stmt ++ renderStmts level rest

/-- The cases of a `switch`, each on a new line. -/
def renderCases (level : Nat) : List SwitchCase → String
  | [] => ""
  | .test e body :: rest =>
    newLine level ++ "case " ++ renderExpr level .sequence e ++ ":" ++ renderStmts (level + 1) body ++
      renderCases level rest
  | .otherwise body :: rest =>
    newLine level ++ "default:" ++ renderStmts (level + 1) body ++ renderCases level rest

/-- Markup. Inside text everything stays on one line, so that no white space is added or lost. -/
def renderMarkup (level : Nat) (inline : Bool) : Markup → String
  | .element name attributes children selfClosing =>
    "<" ++ name ++ renderAttributes level attributes ++
      if children.isEmpty then if selfClosing then " />" else "></" ++ name ++ ">"
      else if !inline && isBlockLayout children then
        ">" ++ renderLines (level + 1) children ++ newLine level ++ "</" ++ name ++ ">"
      else ">" ++ renderRun level children ++ "</" ++ name ++ ">"
  | .fragment children =>
    if !inline && isBlockLayout children then
      "<>" ++ renderLines (level + 1) children ++ newLine level ++ "</>"
    else "<>" ++ renderRun level children ++ "</>"

/-- Attributes, each after a space. -/
def renderAttributes (level : Nat) : List Attribute → String
  | [] => ""
  | .flag name :: rest => " " ++ name ++ renderAttributes level rest
  | .value name e :: rest =>
    " " ++ name ++ "=" ++ braced (renderExpr level .assignment e) ++ renderAttributes level rest
  | .spread e :: rest =>
    " " ++ braced ("..." ++ renderExpr level .assignment e) ++ renderAttributes level rest

/-- A child in a row, or on a line of its own. -/
def renderChild (level : Nat) (inline : Bool) : Child → String
  | .text value => renderText value
  | .container e => braced (renderExpr level .assignment e)
  | .markup m => renderMarkup level inline m

/-- Children, each on a new line; blank text is left out. -/
def renderLines (level : Nat) : List Child → String
  | [] => ""
  | child :: rest =>
    if child.isBlankText then renderLines level rest
    else newLine level ++ renderChild level false child ++ renderLines level rest

/-- Children in a row. -/
def renderRun (level : Nat) : List Child → String
  | [] => ""
  | child :: rest => renderChild level true child ++ renderRun level rest

end

/-- An import declaration. -/
def Import.render (i : Import) : String :=
  "import " ++ braced (" " ++ i.name ++ " ") ++ " from " ++ quoted i.path ++ ";\n"

/-- The imports, with an empty line after them if there are any. -/
def renderImports : List Import → String
  | [] => ""
  | imports => joinWith "" (imports.map Import.render) ++ "\n"

/-- The text of a module. -/
def Program.render (p : Program) : String :=
  renderImports p.imports ++ "export const " ++ p.name ++ " = (" ++ renderParams p.params ++ ") => \x7b" ++
    renderStmts 1 p.body ++ "\n\x7d;\n"

/-! ## The layout of children -/

/-- The children of an element or a fragment in the layout that they have. -/
def renderChildren (level : Nat) (inline : Bool) (children : List Child) : String :=
  if !inline && isBlockLayout children then renderLines (level + 1) children ++ newLine level
  else renderRun level children

theorem renderMarkup_element (level : Nat) (inline : Bool) (name : String) (attributes : List Attribute)
    (children : List Child) (selfClosing : Bool) :
    renderMarkup level inline (.element name attributes children selfClosing) =
      "<" ++ name ++ renderAttributes level attributes ++
        if selfClosing && children.isEmpty then " />"
        else ">" ++ renderChildren level inline children ++ "</" ++ name ++ ">" := by
  cases children with
  | nil => cases selfClosing <;> simp [renderMarkup, renderChildren, isBlockLayout, renderRun]
  | cons child more =>
    simp only [renderMarkup, renderChildren, List.isEmpty_cons, Bool.and_false, Bool.false_eq_true,
      if_false]
    split <;> simp [String.append_assoc]

theorem renderMarkup_fragment (level : Nat) (inline : Bool) (children : List Child) :
    renderMarkup level inline (.fragment children) =
      "<>" ++ renderChildren level inline children ++ "</>" := by
  simp only [renderMarkup, renderChildren]
  split <;> simp [String.append_assoc]

/-! ## The characters of a text -/

theorem wrap_sequence (strength : Strength) (text : String) : wrap strength .sequence text = text := by
  cases strength <;> rfl

theorem toList_arrow (level : Nat) (params : List Param) (result : Expr) :
    (renderExpr level .sequence (.arrow params result)).toList =
      '(' :: ((renderParams params).toList ++ ')' :: ' ' :: '=' :: '>' :: ' ' ::
        if result.isObject then '(' :: ((renderExpr level .assignment result).toList ++ [')'])
        else (renderExpr level .assignment result).toList) := by
  cases hobject : result.isObject <;> simp [renderExpr, wrap_sequence, hobject]

theorem toList_blockArrow (level : Nat) (params : List Param) (body : List Stmt) :
    (renderExpr level .sequence (.blockArrow params body)).toList =
      '(' :: ((renderParams params).toList ++ ')' :: ' ' :: '=' :: '>' :: ' ' ::
        if body.isEmpty then ['\x7b', '\x7d']
        else '\x7b' :: ((renderStmts (level + 1) body).toList ++ (newLine level).toList ++ ['\x7d'])) := by
  cases hempty : body.isEmpty <;> simp [renderExpr, wrap_sequence, braced, hempty]

theorem toList_flag (level : Nat) (name : String) (more : List Attribute) :
    (renderAttributes level (.flag name :: more)).toList =
      ' ' :: (name.toList ++ (renderAttributes level more).toList) := by
  simp [renderAttributes]

theorem toList_value (level : Nat) (name : String) (e : Expr) (more : List Attribute) :
    (renderAttributes level (.value name e :: more)).toList =
      ' ' :: (name.toList ++ '=' :: '\x7b' :: ((renderExpr level .assignment e).toList ++
        '\x7d' :: (renderAttributes level more).toList)) := by
  simp [renderAttributes, braced]

theorem toList_spread (level : Nat) (e : Expr) (more : List Attribute) :
    (renderAttributes level (.spread e :: more)).toList =
      ' ' :: '\x7b' :: '.' :: '.' :: '.' :: ((renderExpr level .assignment e).toList ++
        '\x7d' :: (renderAttributes level more).toList) := by
  simp [renderAttributes, braced]

end PugComponents.Jsx
