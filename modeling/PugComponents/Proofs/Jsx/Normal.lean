import PugComponents.Jsx.Printer

/- What a printed module determines. Printing forgets a little of a tree: white
   space between the lines of markup, the borders between neighbouring texts, and
   whether a text with a brace in it was a string. The normal form of a tree is
   what remains. Plain trees are those whose text is all the printer's own: they
   hold no script from a template, and their names are made of letters and
   digits. -/
namespace PugComponents.Jsx

open Text

/-! ## Plain trees -/

/-- A name of letters and digits that starts with a letter. -/
def isName (name : String) : Bool :=
  match name.toList with
  | [] => false
  | c :: cs => c.isAlpha && cs.all Char.isAlphanum

/-- A parameter whose names are plain. -/
def Param.isPlain : Param → Bool
  | .ident name => isName name
  | .destructured bindings => bindings.all fun b => isName b.2

mutual

/-- An expression without embedded script whose names are plain. The name `null` is none. -/
def Expr.isPlain : Expr → Bool
  | .embedded _ => false
  | .null => true
  | .str _ => true
  | .ident name => isName name && name != "null"
  | .object properties => plainProperties properties
  | .conditional test consequent alternate => test.isPlain && consequent.isPlain && alternate.isPlain
  | .call callee arguments => callee.isPlain && plainArguments arguments
  | .member object property => object.isPlain && isName property
  | .arrow params result => params.all Param.isPlain && result.isPlain
  | .blockArrow params body => params.all Param.isPlain && plainBody body
  | .markup m => m.isPlain

/-- Arguments that are plain. -/
def plainArguments : List Expr → Bool
  | [] => true
  | e :: rest => e.isPlain && plainArguments rest

/-- Properties whose values are plain. The keys are arbitrary. -/
def plainProperties : List Property → Bool
  | [] => true
  | .mk _ value :: rest => value.isPlain && plainProperties rest

/-- A statement that is plain. -/
def Stmt.isPlain : Stmt → Bool
  | .raw _ => false
  | .expression e => e.isPlain
  | .binding name init => isName name && init.isPlain
  | .switch subject cases => subject.isPlain && plainCases cases
  | .result value => value.isPlain

/-- Statements that are plain. -/
def plainBody : List Stmt → Bool
  | [] => true
  | stmt :: rest => stmt.isPlain && plainBody rest

/-- Cases of a `switch` that are plain. -/
def plainCases : List SwitchCase → Bool
  | [] => true
  | .test e body :: rest => e.isPlain && plainBody body && plainCases rest
  | .otherwise body :: rest => plainBody body && plainCases rest

/-- Markup that is plain. -/
def Markup.isPlain : Markup → Bool
  | .element name attributes children _ =>
    isName name && plainAttributes attributes && plainChildren children
  | .fragment children => plainChildren children

/-- Attributes that are plain. -/
def plainAttributes : List Attribute → Bool
  | [] => true
  | .flag name :: rest => isName name && plainAttributes rest
  | .value name e :: rest => isName name && e.isPlain && plainAttributes rest
  | .spread e :: rest => e.isPlain && plainAttributes rest

/-- Children that are plain. The texts are arbitrary. -/
def plainChildren : List Child → Bool
  | [] => true
  | .text _ :: rest => plainChildren rest
  | .container e :: rest => e.isPlain && plainChildren rest
  | .markup m :: rest => m.isPlain && plainChildren rest

end

/-- A module that is plain. -/
def Program.isPlain (p : Program) : Bool :=
  p.imports.all (fun i => isName i.name) && isName p.name && p.params.all Param.isPlain &&
    plainBody p.body

/-! ## Normal forms -/

/-- A text with a character that means something in markup. -/
def needsBraces (value : String) : Bool :=
  value.toList.any fun c => c == '\x7b' || c == '\x7d' || c == '<' || c == '>'

/-- A run of text as a child. No child is an empty run, or white space with a line break in it. -/
def keptRun (run : List Char) : List Child :=
  if run.isEmpty || (isBlank run && run.contains '\n') then [] else [.text (String.ofList run)]

mutual

/-- The normal form of an expression. -/
def Expr.normal : Expr → Expr
  | .embedded e => .embedded e
  | .null => .null
  | .str value => .str value
  | .ident name => .ident name
  | .object properties => .object (normalProperties properties)
  | .conditional test consequent alternate =>
    .conditional test.normal consequent.normal alternate.normal
  | .call callee arguments => .call callee.normal (normalArguments arguments)
  | .member object property => .member object.normal property
  | .arrow params result => .arrow params result.normal
  | .blockArrow params body => .blockArrow params (normalBody body)
  | .markup m => .markup (m.normal false)

/-- The normal forms of arguments. -/
def normalArguments : List Expr → List Expr
  | [] => []
  | e :: rest => e.normal :: normalArguments rest

/-- The normal forms of properties. -/
def normalProperties : List Property → List Property
  | [] => []
  | .mk key value :: rest => .mk key value.normal :: normalProperties rest

/-- The normal form of a statement. -/
def Stmt.normal : Stmt → Stmt
  | .raw source => .raw source
  | .expression e => .expression e.normal
  | .binding name init => .binding name init.normal
  | .switch subject cases => .switch subject.normal (normalCases cases)
  | .result value => .result value.normal

/-- The normal forms of statements. -/
def normalBody : List Stmt → List Stmt
  | [] => []
  | stmt :: rest => stmt.normal :: normalBody rest

/-- The normal forms of the cases of a `switch`. -/
def normalCases : List SwitchCase → List SwitchCase
  | [] => []
  | .test e body :: rest => .test e.normal (normalBody body) :: normalCases rest
  | .otherwise body :: rest => .otherwise (normalBody body) :: normalCases rest

/-- The normal form of markup; `inline` where the printer keeps it on one line. That an element
closes itself counts only if it has no children. -/
def Markup.normal (inline : Bool) : Markup → Markup
  | .element name attributes children selfClosing =>
    .element name (normalAttributes attributes)
      (if !inline && isBlockLayout children then normalLines children else normalRun [] children)
      (selfClosing && children.isEmpty)
  | .fragment children =>
    .fragment
      (if !inline && isBlockLayout children then normalLines children else normalRun [] children)

/-- The normal forms of attributes. -/
def normalAttributes : List Attribute → List Attribute
  | [] => []
  | .flag name :: rest => .flag name :: normalAttributes rest
  | .value name e :: rest => .value name e.normal :: normalAttributes rest
  | .spread e :: rest => .spread e.normal :: normalAttributes rest

/-- Children that are laid out one to a line: blank text does not count. -/
def normalLines : List Child → List Child
  | [] => []
  | .text value :: rest =>
    if isBlank value.toList then normalLines rest else .text value :: normalLines rest
  | .container e :: rest => .container e.normal :: normalLines rest
  | .markup m :: rest => .markup (m.normal false) :: normalLines rest

/-- Children in a row, after a run of text: neighbouring texts are one run, and a text with a
character that means something in markup is a string in braces. -/
def normalRun (run : List Char) : List Child → List Child
  | [] => keptRun run
  | .text value :: rest =>
    if needsBraces value then keptRun run ++ .container (.str value) :: normalRun [] rest
    else normalRun (run ++ value.toList) rest
  | .container e :: rest => keptRun run ++ .container e.normal :: normalRun [] rest
  | .markup m :: rest => keptRun run ++ .markup (m.normal true) :: normalRun [] rest

end

/-- The normal form of the children of an element or a fragment. -/
def normalChildren (inline : Bool) (children : List Child) : List Child :=
  if !inline && isBlockLayout children then normalLines children else normalRun [] children

theorem normalRun_container (run : List Char) (e : Expr) (more : List Child) :
    normalRun run (.container e :: more) = keptRun run ++ .container e.normal :: normalRun [] more := by
  rw [normalRun]

theorem normalLines_container (e : Expr) (more : List Child) :
    normalLines (.container e :: more) = .container e.normal :: normalLines more := by
  rw [normalLines]

theorem normal_fragment (inline : Bool) (children : List Child) :
    (Markup.fragment children).normal inline = .fragment (normalChildren inline children) := by
  rw [Markup.normal, normalChildren]

theorem isObject_normal (e : Expr) : e.normal.isObject = e.isObject := by
  cases e with
  | object | embedded | null | str | ident | conditional | call | member | arrow | blockArrow | markup =>
    simp only [Expr.normal, Expr.isObject]

theorem normalArguments_eq_map : ∀ arguments : List Expr,
    normalArguments arguments = arguments.map Expr.normal
  | [] => by simp only [normalArguments, List.map_nil]
  | e :: more => by simp only [normalArguments, List.map_cons, normalArguments_eq_map more]

/-- The normal form of a property. -/
def Property.normal : Property → Property
  | .mk key value => .mk key value.normal

theorem normalProperties_eq_map : ∀ properties : List Property,
    normalProperties properties = properties.map Property.normal
  | [] => by simp only [normalProperties, List.map_nil]
  | .mk key value :: more => by
    simp only [normalProperties, List.map_cons, Property.normal, normalProperties_eq_map more]

/-- The normal form of a module. -/
def Program.normal (p : Program) : Program := { p with body := normalBody p.body }

end PugComponents.Jsx
