import PugComponents.Script.Strength

/- Terms: what the grammar keeps of a parsed expression. A shape says how
   strongly the expression binds and whether it can be reread as a pattern,
   which is known only when a later `=` or `=>` asks for one. -/
namespace PugComponents.Script

mutual

/-- The outermost form of an expression. -/
inductive Shape
  /-- An identifier. -/
  | name (id : String)
  /-- A property access. -/
  | member
  /-- A chain with an optional step in it. -/
  | optional
  | call
  | number
  /-- An array literal; `comma` when a comma follows its last element. -/
  | array (elements : List Element) (comma : Bool)
  /-- An object literal; `comma` when a comma follows its last property. -/
  | object (properties : List Property) (comma : Bool)
  /-- An assignment; `plain` when its operator is `=`. -/
  | assignment (plain : Bool)
  /-- A parenthesized expression. -/
  | paren (inner : Shape)
  | arrow
  | yield
  | conditional
  | binary (operator : String)
  | unary
  | update
  | await
  /-- `new` without arguments. -/
  | bareNew
  | sequence
  | other

/-- An element of an array literal. -/
inductive Element
  | hole
  | item (shape : Shape)
  | spread (shape : Shape)

/-- A property of an object literal. -/
inductive Property
  | shorthand (id : String)
  /-- `id = value`, which only a pattern gives a meaning. -/
  | initialized (id : String)
  | keyed (value : Shape)
  | method
  | spread (value : Shape)

end

instance : Inhabited Shape := ⟨.other⟩

/-- A parsed expression. Places are counted by the characters that are left from there on, so
`stop ≤ start`. -/
structure Term where
  shape : Shape
  start : Nat
  stop : Nat
  deriving Inhabited

namespace Shape

/-- How strongly an expression of this shape binds. -/
def strength : Shape → Strength
  | sequence => .sequence
  | arrow | yield | assignment _ => .assignment
  | conditional => .conditional
  | binary _ => .binary
  | unary | update | await | bareNew | number => .unary
  | _ => .primary

/-- Identifiers that strict code cannot assign to or bind. -/
def isProtectedName (id : String) : Bool := id == "eval" || id == "arguments"

/-- A plain name, without a pattern or a default. -/
def isName : Shape → Bool
  | name _ => true
  | _ => false

/-- The shape can stand left of any assignment operator. -/
def isSimpleTarget (strict : Bool) : Shape → Bool
  | name id => !(strict && isProtectedName id)
  | member => true
  | paren inner => inner.isSimpleTarget strict
  | _ => false

end Shape

mutual

/-- The shape can be reread as a pattern: one that binds names if `binding`, else one that assigns
to targets. -/
def Shape.isPattern (binding strict : Bool) : Shape → Bool
  | .name id => !(strict && Shape.isProtectedName id)
  | .member => !binding
  | .paren inner => !binding && inner.isSimpleTarget strict
  | .array elements comma => elementsArePatterns binding strict comma elements
  | .object properties comma => propertiesArePatterns binding strict comma properties
  | .assignment plain => plain
  | _ => false

/-- Elements of an array pattern: a rest element stands last, without a comma or a default. -/
def elementsArePatterns (binding strict comma : Bool) : List Element → Bool
  | [] => true
  | .hole :: rest => elementsArePatterns binding strict comma rest
  | .item shape :: rest =>
    shape.isPattern binding strict && elementsArePatterns binding strict comma rest
  | .spread (.assignment _) :: _ => false
  | .spread shape :: rest => rest.isEmpty && !comma && shape.isPattern binding strict

/-- Properties of an object pattern: a rest property stands last and has no comma; in a binding it
is a name. -/
def propertiesArePatterns (binding strict comma : Bool) : List Property → Bool
  | [] => true
  | .shorthand id :: rest =>
    !(binding && strict && Shape.isProtectedName id) &&
      propertiesArePatterns binding strict comma rest
  | .initialized id :: rest =>
    !(binding && strict && Shape.isProtectedName id) &&
      propertiesArePatterns binding strict comma rest
  | .keyed value :: rest =>
    value.isPattern binding strict && propertiesArePatterns binding strict comma rest
  | .method :: _ => false
  | .spread (.assignment _) :: _ => false
  | .spread value :: rest =>
    rest.isEmpty && !comma && (!binding || value.isName) && value.isPattern binding strict

end

namespace Shape

/-- The shape can stand left of `=`. -/
def isAssignable (strict : Bool) : Shape → Bool
  | array elements comma => (array elements comma).isPattern false strict
  | object properties comma => (object properties comma).isPattern false strict
  | shape => shape.isSimpleTarget strict

/-- The shape can be a parameter of an arrow function. -/
def isParameter (strict : Bool) (shape : Shape) : Bool := shape.isPattern true strict

/-- An object literal with a property that only a pattern gives a meaning. -/
def hasInitializedProperty : Shape → Bool
  | object properties _ => properties.any fun
    | .initialized _ => true
    | _ => false
  | _ => false

end Shape

end PugComponents.Script
