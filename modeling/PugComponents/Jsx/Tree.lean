import PugComponents.Script.Snippet
import PugComponents.Text.WhiteSpace

/- The tree of a component module: markup, the expressions and statements around
   it, and the module that exports one component. -/
namespace PugComponents.Jsx

open Script (Embedded)

/-- A parameter of a function. -/
inductive Param
  | ident (name : String)
  /-- An object pattern: keys, and the names they are bound to. -/
  | destructured (bindings : List (String × String))
  deriving DecidableEq, Repr

mutual

/-- An expression. -/
inductive Expr
  /-- Copied from a template. -/
  | embedded (e : Embedded)
  | null
  | str (value : String)
  | ident (name : String)
  | object (properties : List Property)
  | conditional (test consequent alternate : Expr)
  | call (callee : Expr) (arguments : List Expr)
  | member (object : Expr) (property : String)
  /-- An arrow function with an expression as its body. -/
  | arrow (params : List Param) (result : Expr)
  /-- An arrow function with a block as its body. -/
  | blockArrow (params : List Param) (body : List Stmt)
  | markup (m : Markup)

/-- A property of an object. -/
inductive Property
  | mk (key : String) (value : Expr)

/-- A statement. -/
inductive Stmt
  /-- Copied from a template. -/
  | raw (source : String)
  | expression (e : Expr)
  | binding (name : String) (init : Expr)
  | switch (subject : Expr) (cases : List SwitchCase)
  | result (value : Expr)

/-- A case of a `switch`. -/
inductive SwitchCase
  | test (e : Expr) (body : List Stmt)
  | otherwise (body : List Stmt)

/-- An element or a fragment. -/
inductive Markup
  | element (name : String) (attributes : List Attribute) (children : List Child)
      (selfClosing : Bool)
  | fragment (children : List Child)

/-- An attribute of an element. -/
inductive Attribute
  /-- A name without a value. -/
  | flag (name : String)
  | value (name : String) (e : Expr)
  | spread (e : Expr)

/-- A child of an element or a fragment. -/
inductive Child
  | text (value : String)
  /-- An expression in braces. -/
  | container (e : Expr)
  | markup (m : Markup)

end

instance : Inhabited Expr := ⟨.null⟩

/-- A fragment as an expression. -/
def Expr.fragment (children : List Child) : Expr := .markup (.fragment children)

/-- A function that is called where it stands. -/
def Expr.invoked (body : List Stmt) : Expr := .call (.blockArrow [] body) []

/-- An element without attributes and children that closes itself. -/
def Markup.selfClosing (name : String) : Markup := .element name [] [] true

/-- An object literal. -/
def Expr.isObject : Expr → Bool
  | .object _ => true
  | _ => false

/-- Text that is empty or white space. -/
def Child.isBlankText : Child → Bool
  | .text value => Text.isBlank value.toList
  | _ => false

/-- Text that is more than white space. -/
def Child.isWords : Child → Bool
  | .text value => !Text.isBlank value.toList
  | _ => false

/-- An element or a fragment. -/
def Child.isMarkup : Child → Bool
  | .markup _ => true
  | _ => false

/-- The import of a component. -/
structure Import where
  name : String
  path : String
  deriving DecidableEq, Repr

/-- A module that exports one component. -/
structure Program where
  imports : List Import
  name : String
  params : List Param
  body : List Stmt

end PugComponents.Jsx
