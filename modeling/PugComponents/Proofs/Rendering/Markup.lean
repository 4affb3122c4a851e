import PugComponents.Component.Target
import PugComponents.Text.WhiteSpace

/- What markup renders. Embedded script is evaluated in an environment by an
   `Evaluation`, of which nothing is assumed; expressions, statements and markup
   around it have their usual meaning: a conditional expression picks an arm, a
   `switch` runs from the first case that matches its subject until a `return`,
   an arrow function binds its parameters, `map` calls a function once per item,
   a fragment stands for its children and `null` for nothing. Declarations are
   seen by the statements after them in the same function.

   White space between pieces carries no content, so renderings are compared by
   what they show (`shown`). -/
namespace PugComponents.Rendering

open Jsx
open Script (Embedded)

mutual

/-- A piece of rendered output. -/
inductive Piece (Value : Type)
  | text (content : String)
  /-- The value of an expression. -/
  | value (v : Value)
  | element (name : String) (attributes : List (RenderedAttribute Value))
      (children : List (Piece Value))

/-- An attribute of a rendered element. -/
inductive RenderedAttribute (Value : Type)
  | flag (name : String)
  | value (name : String) (r : Result Value)
  | spread (r : Result Value)

/-- What an expression evaluates to. -/
inductive Result (Value : Type)
  /-- `null` and `undefined`. -/
  | nothing
  | text (content : String)
  /-- The value of embedded script. -/
  | value (v : Value)
  | markup (pieces : List (Piece Value))
  | object (entries : List (String × Result Value))
  /-- A function, as what a call of it renders. -/
  | function (render : List Value → List (Piece Value))

end

/-- How embedded script is evaluated in an environment. -/
structure Evaluation (Env Value : Type) where
  /-- The value of an expression. -/
  value : Env → String → Value
  /-- Whether a value counts as true in a test. -/
  truthy : Value → Bool
  /-- The comparison of a `switch`. -/
  same : Value → Value → Bool
  /-- The items of a collection. -/
  items : Value → List Value
  /-- The value of an index. -/
  index : Nat → Value
  /-- The value of a missing argument. -/
  missing : Value
  member : Value → String → Value
  /-- The environment in which a name stands for a result. -/
  define : Env → String → Result Value → Env
  /-- The environment after a statement. -/
  run : Env → String → Env

variable {Env Value : Type}

mutual

/-- A piece without the white space in it. -/
def Piece.shown : Piece Value → List (Piece Value)
  | .text content => if Text.isBlank content.toList then [] else [.text content]
  | .value v => [.value v]
  | .element name attributes children => [.element name attributes (shown children)]

/-- Pieces without the white space between and in them. -/
def shown : List (Piece Value) → List (Piece Value)
  | [] => []
  | p :: ps => p.shown ++ shown ps

end

namespace Result

/-- What a result renders as a child of markup. -/
def pieces : Result Value → List (Piece Value)
  | nothing => []
  | text content => [.text content]
  | value v => [.value v]
  | markup ps => ps
  | object _ => []
  | function _ => []

/-- A result as the environment keeps it: a function is known by what its calls show. -/
def kept : Result Value → Result Value
  | function render => .function fun arguments => shown (render arguments)
  | r => r

/-- A result as an argument of a function. -/
def argument (ev : Evaluation Env Value) : Result Value → Value
  | value v => v
  | _ => ev.missing

/-- The call of a function. -/
def call (ev : Evaluation Env Value) (arguments : List (Result Value)) :
    Result Value → Result Value
  | function render => .markup (render (arguments.map (argument ev)))
  | _ => .nothing

/-- The call of a method. `map` calls a function once for each item of a collection, with the item,
its index and the collection. -/
def callMethod (ev : Evaluation Env Value) (property : String) (arguments : List (Result Value)) :
    Result Value → Result Value
  | value v =>
    match property, arguments with
    | "map", [.function render] =>
      .markup ((ev.items v).zipIdx.flatMap fun (item, i) => render [item, ev.index i, v])
    | _, _ => .nothing
  | _ => .nothing

end Result

namespace Evaluation

/-- Whether a result counts as true. -/
def holds (ev : Evaluation Env Value) : Result Value → Bool
  | .nothing => false
  | .text content => content != ""
  | .value v => ev.truthy v
  | _ => true

/-- Whether a subject matches the test of a case. -/
def selects (ev : Evaluation Env Value) : Result Value → Result Value → Bool
  | .value subject, .value test => ev.same subject test
  | _, _ => false

/-- The environment in which a parameter stands for an argument. -/
def bindParam (ev : Evaluation Env Value) (env : Env) (v : Value) : Param → Env
  | .ident name => ev.define env name (.value v)
  | .destructured bindings =>
    bindings.foldl (fun env (key, name) => ev.define env name (.value (ev.member v key))) env

/-- The environment of a function's body. Arguments without a parameter are passed over. -/
def bindParams (ev : Evaluation Env Value) : Env → List Param → List Value → Env
  | env, [], _ => env
  | env, p :: ps, vs => ev.bindParams (ev.bindParam env (vs.headD ev.missing) p) ps vs.tail

end Evaluation

/-- How a list of statements ends. -/
inductive Flow (Env Value : Type)
  /-- Control goes on after them. -/
  | next (env : Env)
  | returned (r : Result Value)

namespace Flow

/-- What a call of a function with this end gives. -/
def result : Flow Env Value → Result Value
  | next _ => .nothing
  | returned r => r

/-- What comes after statements with this end. -/
def andThen (flow : Flow Env Value) (rest : Env → Flow Env Value) : Flow Env Value :=
  match flow with
  | next env => rest env
  | returned r => .returned r

/-- The end of a block: its declarations are not seen after it. -/
def inBlock (env : Env) : Flow Env Value → Flow Env Value
  | next _ => .next env
  | returned r => .returned r

end Flow

/-- A case of a `switch`: the value of its test, none for the default, and its statements. -/
structure Arm (Env Value : Type) where
  test : Option (Result Value)
  run : Env → Flow Env Value

/-- Runs the statements of cases one after another until one returns. -/
def runArms : List (Arm Env Value) → Env → Flow Env Value
  | [], env => .next env
  | arm :: rest, env => (arm.run env).andThen (runArms rest)

/-- The cases from the first one that matches on, or else from the default on. -/
def entered (ev : Evaluation Env Value) (subject : Result Value) (arms : List (Arm Env Value)) :
    List (Arm Env Value) :=
  match arms.dropWhile fun arm => !arm.test.any (ev.selects subject) with
  | [] => arms.dropWhile (·.test.isSome)
  | matched => matched

mutual

/-- The value of an expression. -/
def evalExpr (ev : Evaluation Env Value) : Expr → Env → Result Value
  | .embedded e, env => .value (ev.value env e.source)
  | .null, _ => .nothing
  | .str value, _ => .text value
  | .ident name, env => .value (ev.value env name)
  | .object properties, env => .object (evalProperties ev properties env)
  | .conditional test consequent alternate, env =>
    if ev.holds (evalExpr ev test env) then evalExpr ev consequent env
    else evalExpr ev alternate env
  | .call (.member object property) arguments, env =>
    (evalExpr ev object env).callMethod ev property (evalArguments ev arguments env)
  | .call callee arguments, env => (evalExpr ev callee env).call ev (evalArguments ev arguments env)
  | .member object property, env =>
    .value (ev.member ((evalExpr ev object env).argument ev) property)
  | .arrow params result, env =>
    .function fun arguments => (evalExpr ev result (ev.bindParams env params arguments)).pieces
  | .blockArrow params body, env =>
    .function fun arguments => (runBody ev body (ev.bindParams env params arguments)).result.pieces
  | .markup m, env => .markup (renderMarkup ev m env)

/-- The values of arguments. -/
def evalArguments (ev : Evaluation Env Value) : List Expr → Env → List (Result Value)
  | [], _ => []
  | e :: rest, env => evalExpr ev e env :: evalArguments ev rest env

/-- The entries of an object. -/
def evalProperties (ev : Evaluation Env Value) : List Property → Env → List (String × Result Value)
  | [], _ => []
  | .mk key value :: rest, env => (key, evalExpr ev value env) :: evalProperties ev rest env

/-- Runs a statement. -/
def runStmt (ev : Evaluation Env Value) : Stmt → Env → Flow Env Value
  | .raw source, env => .next (ev.run env source)
  | .expression (.embedded e), env => .next (ev.run env e.source)
  | .expression _, env => .next env
  | .binding name init, env => .next (ev.define env name (evalExpr ev init env).kept)
  | .switch subject cases, env =>
    (runArms (entered ev (evalExpr ev subject env) (armsOf ev cases env)) env).inBlock env
  | .result value, env => .returned (evalExpr ev value env)

/-- Runs statements until one returns. -/
def runBody (ev : Evaluation Env Value) : List Stmt → Env → Flow Env Value
  | [], env => .next env
  | s :: rest, env => (runStmt ev s env).andThen fun env => runBody ev rest env

/-- The cases of a `switch`. -/
def armsOf (ev : Evaluation Env Value) : List SwitchCase → Env → List (Arm Env Value)
  | [], _ => []
  | .test e body :: rest, env =>
    ⟨some (evalExpr ev e env), fun env => runBody ev body env⟩ :: armsOf ev rest env
  | .otherwise body :: rest, env => ⟨none, fun env => runBody ev body env⟩ :: armsOf ev rest env

/-- What markup renders. -/
def renderMarkup (ev : Evaluation Env Value) : Markup → Env → List (Piece Value)
  | .element name attributes children _, env =>
    [.element name (renderAttributes ev attributes env) (renderChildren ev children env)]
  | .fragment children, env => renderChildren ev children env

/-- The attributes of an element. -/
def renderAttributes (ev : Evaluation Env Value) :
    List Attribute → Env → List (RenderedAttribute Value)
  | [], _ => []
  | .flag name :: rest, env => .flag name :: renderAttributes ev rest env
  | .value name e :: rest, env => .value name (evalExpr ev e env) :: renderAttributes ev rest env
  | .spread e :: rest, env => .spread (evalExpr ev e env) :: renderAttributes ev rest env

/-- What children render. -/
def renderChildren (ev : Evaluation Env Value) : List Child → Env → List (Piece Value)
  | [], _ => []
  | .text value :: rest, env => .text value :: renderChildren ev rest env
  | .container e :: rest, env => (evalExpr ev e env).pieces ++ renderChildren ev rest env
  | .markup m :: rest, env => renderMarkup ev m env ++ renderChildren ev rest env

end

end PugComponents.Rendering
