import PugComponents.Proofs.Lowering

/- The parts of a program: every expression, statement and piece of markup that
   stands anywhere in it. Targets keep their parts whether they are read as
   children or as a function body (`targetParts_subset`). -/
namespace PugComponents.Jsx

/-- An expression, a statement, or an element or fragment. -/
inductive Part
  | expr (e : Expr)
  | stmt (s : Stmt)
  | markup (m : Markup)

mutual

/-- An expression and the parts in it. -/
def exprParts : Expr → List Part
  | .embedded e => [.expr (.embedded e)]
  | .null => [.expr .null]
  | .str value => [.expr (.str value)]
  | .ident name => [.expr (.ident name)]
  | .object properties => .expr (.object properties) :: propertyParts properties
  | .conditional test consequent alternate =>
    .expr (.conditional test consequent alternate) ::
      (exprParts test ++ exprParts consequent ++ exprParts alternate)
  | .call callee arguments =>
    .expr (.call callee arguments) :: (exprParts callee ++ argumentParts arguments)
  | .member object property => .expr (.member object property) :: exprParts object
  | .arrow params result => .expr (.arrow params result) :: exprParts result
  | .blockArrow params body => .expr (.blockArrow params body) :: bodyParts body
  | .markup m => .expr (.markup m) :: markupParts m

/-- The parts of arguments. -/
def argumentParts : List Expr → List Part
  | [] => []
  | e :: rest => exprParts e ++ argumentParts rest

/-- The parts of properties. -/
def propertyParts : List Property → List Part
  | [] => []
  | .mk _ value :: rest => exprParts value ++ propertyParts rest

/-- A statement and the parts in it. -/
def stmtParts : Stmt → List Part
  | .raw source => [.stmt (.raw source)]
  | .expression e => .stmt (.expression e) :: exprParts e
  | .binding name init => .stmt (.binding name init) :: exprParts init
  | .switch subject cases => .stmt (.switch subject cases) :: (exprParts subject ++ caseParts cases)
  | .result value => .stmt (.result value) :: exprParts value

/-- The parts of statements. -/
def bodyParts : List Stmt → List Part
  | [] => []
  | stmt :: rest => stmtParts stmt ++ bodyParts rest

/-- The parts of the cases of a `switch`. -/
def caseParts : List SwitchCase → List Part
  | [] => []
  | .test e body :: rest => exprParts e ++ bodyParts body ++ caseParts rest
  | .otherwise body :: rest => bodyParts body ++ caseParts rest

/-- Markup and the parts in it. -/
def markupParts : Markup → List Part
  | .element name attributes children selfClosing =>
    .markup (.element name attributes children selfClosing) ::
      (attributeParts attributes ++ childParts children)
  | .fragment children => .markup (.fragment children) :: childParts children

/-- The parts of attributes. -/
def attributeParts : List Attribute → List Part
  | [] => []
  | .flag _ :: rest => attributeParts rest
  | .value _ e :: rest => exprParts e ++ attributeParts rest
  | .spread e :: rest => exprParts e ++ attributeParts rest

/-- The parts of children. -/
def childParts : List Child → List Part
  | [] => []
  | .text _ :: rest => childParts rest
  | .container e :: rest => exprParts e ++ childParts rest
  | .markup m :: rest => markupParts m ++ childParts rest

end

/-- The parts of a module. -/
def Program.parts (p : Program) : List Part := bodyParts p.body

theorem bodyParts_append (a b : List Stmt) : bodyParts (a ++ b) = bodyParts a ++ bodyParts b := by
  induction a with
  | nil => rfl
  | cons s a ih => simp [bodyParts, ih]

theorem childParts_cons (c : Child) (cs : List Child) :
    childParts (c :: cs) = childParts [c] ++ childParts cs := by
  cases c <;> simp [childParts]

theorem childParts_subset_fragment (children : List Child) :
    childParts children ⊆ exprParts (.fragment children) := by
  intro p hp
  simp only [Expr.fragment, exprParts, markupParts, List.mem_cons]
  exact .inr (.inr hp)

theorem bodyParts_subset_invoked (body : List Stmt) :
    bodyParts body ⊆ exprParts (.invoked body) := by
  intro p hp
  simp only [Expr.invoked, exprParts, List.mem_cons, List.mem_append]
  exact .inr (.inl (.inr hp))

end PugComponents.Jsx

namespace PugComponents.Component

open Jsx

/-- The parts of a target. -/
def targetParts : Target → List Part
  | .child c => childParts [c]
  | .bare e => exprParts e
  | .statement s => stmtParts s
  | .imported _ => []
  | .placeholder => []

/-- Targets keep their parts, as children and as a body. -/
theorem targetParts_subset (targets : List Target) :
    targets.flatMap targetParts ⊆ childParts (childrenOf targets) ∧
      targets.flatMap targetParts ⊆ bodyParts (bodyOf targets) := by
  induction targets with
  | nil => exact ⟨List.nil_subset _, List.nil_subset _⟩
  | cons t targets ih =>
    obtain ⟨hchildren, hbody⟩ := ih
    have hkept (c : Child) : childParts [c] ++ targets.flatMap targetParts ⊆
        childParts (c :: childrenOf targets) := by
      rw [childParts_cons c (childrenOf targets)]
      exact List.append_subset.mpr ⟨List.subset_append_left _ _,
        List.Subset.trans hchildren (List.subset_append_right _ _)⟩
    -- a target that renders starts the returned fragment of a body
    have hreturned (c : Child) : childParts [c] ++ targets.flatMap targetParts ⊆
        bodyParts [.result (.fragment (c :: childrenOf targets))] := by
      intro p hp
      simp only [bodyParts, stmtParts, List.append_nil, List.mem_cons]
      exact .inr (childParts_subset_fragment _ (hkept c hp))
    cases t with
    | child c =>
      simp only [List.flatMap_cons, targetParts, childrenOf, bodyOf]
      exact ⟨hkept c, hreturned c⟩
    | bare e =>
      have he : exprParts e = childParts [.container e] := by simp [childParts]
      simp only [List.flatMap_cons, targetParts, childrenOf, bodyOf, he]
      exact ⟨hkept (.container e), hreturned (.container e)⟩
    | statement s =>
      have hs : stmtParts s ++ targets.flatMap targetParts ⊆ bodyParts (s :: bodyOf targets) := by
        rw [bodyParts]
        exact List.append_subset.mpr ⟨List.subset_append_left _ _,
          List.Subset.trans hbody (List.subset_append_right _ _)⟩
      simp only [List.flatMap_cons, targetParts, childrenOf, bodyOf, childParts, List.append_nil]
      exact ⟨List.Subset.trans hs (bodyParts_subset_invoked _), hs⟩
    | imported i | placeholder => exact ⟨hchildren, hbody⟩

end PugComponents.Component
