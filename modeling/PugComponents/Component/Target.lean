import PugComponents.Jsx.Tree

/- Targets: what template nodes become before it is settled whether they stand
   in markup or in a function body. -/
namespace PugComponents.Component

open Jsx

/-- What a template node becomes. -/
inductive Target
  | child (c : Child)
  /-- An expression without braces. -/
  | bare (e : Expr)
  | statement (s : Stmt)
  | imported (i : Import)
  /-- Renders nothing, but keeps its neighbours apart. -/
  | placeholder

namespace Target

/-- The name of a target's kind. -/
def kind : Target → String
  | child (.text _) => "MarkupText"
  | child (.container _) => "ExpressionContainer"
  | child (.markup (.element ..)) => "Element"
  | child (.markup (.fragment _)) => "Fragment"
  | bare (.conditional ..) => "ConditionalExpr"
  | bare _ => "Expression"
  | statement (.binding ..) => "VariableBinding"
  | statement (.switch ..) => "SwitchStatement"
  | statement _ => "Statement"
  | imported _ => "Import"
  | placeholder => "Placeholder"

/-- The child that a target is, if it renders something. -/
def rendered? : Target → Option Child
  | child c => some c
  | bare e => some (.container e)
  | _ => none

/-- The statement that a target is. -/
def statement? : Target → Option Stmt
  | statement s => some s
  | _ => none

/-- The import that a target is. -/
def imported? : Target → Option Import
  | imported i => some i
  | _ => none

end Target

/-- The imports among targets. -/
def importsOf (targets : List Target) : List Import := targets.filterMap Target.imported?

end PugComponents.Component
