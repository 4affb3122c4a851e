import Mathlib.Data.List.Perm.Subperm
import PugComponents.Proofs.Component.Shapes

/- Traces: what the nodes of a template leave in the program. Most parts of a
   program are frames that only hold other parts. Two kinds are not: the binding of
   a function, and a conditional with an empty fragment for one of its arms. A trace
   says what it sees in such parts, and from which nodes this comes: bindings come
   from mixins, and only the slot of a block has an arm that may be empty.
   `lowerNodes_traced` follows a trace through lowering; what it sees in a program
   is then what it finds in the template (`traced_component`), up to the order in
   which a component states and renders. -/
namespace PugComponents.Jsx

/-- A fragment without children. -/
def Expr.isEmptyFragment : Expr → Bool
  | .markup (.fragment []) => true
  | _ => false

/-- The part only holds other parts. -/
def Part.isFrame : Part → Bool
  | .expr (.conditional _ consequent alternate) =>
    !consequent.isEmptyFragment && !alternate.isEmptyFragment
  | .stmt (.binding ..) => false
  | _ => true

end PugComponents.Jsx

namespace PugComponents.Component

open scoped List
open Component.Lower (result_bind_eq_ok result_pure_eq_ok result_mapM_eq_ok)
open Jsx
open Link (slotName)
open Script (SnippetReader)
open Template (Node Branch Alternate Document Spread occurrences preorder preorderOfBranches
  preorderOfAlternates map_node_occurrences)

/-- The conditional of a slot whose block has content. -/
def slotChoice (name : String) (children : List Child) : Expr :=
  .conditional (.ident (slotName name)) (.markup (.selfClosing (slotName name))) (.fragment children)

/-- The node is a block with content or a mixin. -/
def leavesTrace (layout : Bool) : Node → Bool
  | .namedBlock _ _ nodes _ => layout && !nodes.isEmpty
  | .mixinDefinition .. => true
  | _ => false

/-- Something that can be seen in the parts of a program, and the nodes that it comes from. -/
structure Trace (setting : Setting) (α : Type) where
  ofPart : Part → Option α
  ofNode : Node → Option α
  frame : ∀ part, part.isFrame = true → ofPart part = none
  untraced : ∀ node, leavesTrace setting.layout node = false → ofNode node = none
  slot : ∀ name mode nodes span targets, setting.layout = true → nodes ≠ [] →
    (lowerNodes setting false nodes).result = .ok targets →
    ofPart (.expr (slotChoice name (childrenOf targets))) = ofNode (.namedBlock name mode nodes span)
  mixin : ∀ name arguments body span init,
    ofPart (.stmt (.binding (mixinName name) init)) = ofNode (.mixinDefinition name arguments body span)

theorem filterMap_cons_toList {α β : Type} (f : α → Option β) (a : α) (list : List α) :
    (a :: list).filterMap f = (f a).toList ++ list.filterMap f := by
  cases h : f a with
  | none => exact List.filterMap_cons_none h
  | some b => exact List.filterMap_cons_some h

namespace Trace

variable {setting : Setting} {α : Type} (trace : Trace setting α)

/-- What is seen in parts. -/
def seen (parts : List Part) : List α := parts.filterMap trace.ofPart

@[simp]
theorem seen_nil : trace.seen [] = [] := rfl

@[simp]
theorem seen_append (a b : List Part) : trace.seen (a ++ b) = trace.seen a ++ trace.seen b :=
  List.filterMap_append

theorem seen_cons (part : Part) (parts : List Part) :
    trace.seen (part :: parts) = (trace.ofPart part).toList ++ trace.seen parts :=
  filterMap_cons_toList trace.ofPart part parts

theorem seen_frame {part : Part} (h : part.isFrame = true) (parts : List Part) :
    trace.seen (part :: parts) = trace.seen parts :=
  List.filterMap_cons_none (trace.frame part h)

/-! ## Frames -/

theorem seen_expr_markup (m : Markup) : trace.seen (exprParts (.markup m)) = trace.seen (markupParts m) := by
  rw [exprParts, trace.seen_frame rfl]

theorem seen_fragment (children : List Child) :
    trace.seen (exprParts (.fragment children)) = trace.seen (childParts children) := by
  rw [Expr.fragment, seen_expr_markup, markupParts, trace.seen_frame rfl]

theorem seen_branchValue (children : List Child) :
    trace.seen (exprParts (branchValue children)) = trace.seen (childParts children) := by
  unfold branchValue
  split
  · rename_i hempty
    rw [List.isEmpty_iff.mp hempty, exprParts, trace.seen_frame rfl, childParts]
  · exact trace.seen_fragment children

theorem seen_blockArrow (params : List Param) (body : List Stmt) :
    trace.seen (exprParts (.blockArrow params body)) = trace.seen (bodyParts body) := by
  rw [exprParts, trace.seen_frame rfl]

theorem seen_invoked (body : List Stmt) :
    trace.seen (exprParts (.invoked body)) = trace.seen (bodyParts body) := by
  rw [Expr.invoked, exprParts, trace.seen_frame rfl, argumentParts, List.append_nil, seen_blockArrow]

theorem seen_result (e : Expr) : trace.seen (bodyParts [.result e]) = trace.seen (exprParts e) := by
  rw [bodyParts, bodyParts, stmtParts, List.append_nil, trace.seen_frame rfl]

theorem seen_container (e : Expr) : trace.seen (childParts [.container e]) = trace.seen (exprParts e) := by
  rw [childParts, childParts, List.append_nil]

theorem seen_children_cons (c : Child) (children : List Child) :
    trace.seen (childParts (c :: children)) =
      trace.seen (childParts [c]) ++ trace.seen (childParts children) := by
  rw [childParts_cons, seen_append]

variable {source : String} {span : Template.Span}

/-- Nothing is seen in an expression of the template. -/
theorem seen_embedded {e : Expr} (h : (readExpression setting.reader source span).result = .ok e) :
    trace.seen (exprParts e) = [] := by
  obtain ⟨embedded, -, rfl⟩ := readExpression_eq_ok h
  rw [exprParts, trace.seen_frame rfl, seen_nil]

theorem seen_declarations (texts : List (List Char)) :
    trace.seen (propertyParts (texts.filterMap declaration?)) = [] := by
  induction texts with
  | nil => rfl
  | cons text rest ih =>
    cases hproperty : declaration? text with
    | none =>
      rw [List.filterMap_cons_none hproperty]
      exact ih
    | some property =>
      rw [List.filterMap_cons_some hproperty]
      unfold declaration? at hproperty
      split at hproperty
      · cases hproperty
      · split at hproperty
        · cases hproperty
        · cases hproperty
          rw [propertyParts, exprParts, List.singleton_append, trace.seen_frame rfl]
          exact ih

theorem seen_attribute {a : Template.Attribute} {b : Attribute}
    (h : (lowerAttribute setting.reader a).result = .ok b) : trace.seen (attributeParts [b]) = [] := by
  unfold lowerAttribute at h
  split at h
  · obtain rfl := result_pure_eq_ok.mp h
    rfl
  · split at h
    · obtain rfl := result_pure_eq_ok.mp h
      rw [attributeParts, attributeParts, List.append_nil, styleObject, exprParts, trace.seen_frame rfl]
      exact trace.seen_declarations _
    · obtain ⟨e, he, h⟩ := result_bind_eq_ok.mp h
      obtain rfl := result_pure_eq_ok.mp h
      rw [attributeParts, attributeParts, List.append_nil]
      exact trace.seen_embedded he

theorem seen_spread {s : Spread} {b : Attribute} (h : (lowerSpread setting.reader s).result = .ok b) :
    trace.seen (attributeParts [b]) = [] := by
  obtain ⟨e, he, h⟩ := result_bind_eq_ok.mp h
  obtain rfl := result_pure_eq_ok.mp h
  rw [attributeParts, attributeParts, List.append_nil]
  exact trace.seen_embedded he

variable {list : List Attribute}

theorem seen_mapM {β : Type} {f : β → Lower Attribute} {xs : List β}
    (h : (xs.mapM f).result = .ok list)
    (hf : ∀ x a, (f x).result = .ok a → trace.seen (attributeParts [a]) = []) :
    trace.seen (attributeParts list) = [] := by
  have hall := result_mapM_eq_ok.mp h
  clear h
  induction hall with
  | nil => rfl
  | @cons x a xs list ha _ ih =>
    rw [← List.singleton_append, attributeParts_append, seen_append, hf x a ha, ih, List.append_nil]

/-- Nothing is seen in attributes. -/
theorem seen_attributes {attributes : List Template.Attribute} {spreads : List Spread}
    (h : (lowerAttributes setting.reader attributes spreads).result = .ok list) :
    trace.seen (attributeParts list) = [] := by
  obtain ⟨first, hfirst, h⟩ := result_bind_eq_ok.mp h
  obtain ⟨second, hsecond, h⟩ := result_bind_eq_ok.mp h
  obtain rfl := result_pure_eq_ok.mp h
  rw [attributeParts_append, seen_append,
    trace.seen_mapM hfirst fun _ _ => trace.seen_attribute,
    trace.seen_mapM hsecond fun _ _ => trace.seen_spread, List.append_nil]

/-! ## Targets -/

/-- What is seen in targets. -/
def seenIn (targets : List Target) : List α := trace.seen (targets.flatMap targetParts)

@[simp]
theorem seenIn_nil : trace.seenIn [] = [] := rfl

theorem seenIn_cons (t : Target) (targets : List Target) :
    trace.seenIn (t :: targets) = trace.seen (targetParts t) ++ trace.seenIn targets := by
  unfold seenIn
  rw [List.flatMap_cons, seen_append]

theorem seenIn_append (a b : List Target) : trace.seenIn (a ++ b) = trace.seenIn a ++ trace.seenIn b := by
  unfold seenIn
  rw [List.flatMap_append, seen_append]

theorem seenIn_single (t : Target) : trace.seenIn [t] = trace.seen (targetParts t) := by
  rw [seenIn_cons, seenIn_nil, List.append_nil]

/-- The same is seen in targets, in their children and in their body. -/
theorem seen_placed (targets : List Target) :
    trace.seen (childParts (childrenOf targets)) = trace.seenIn targets ∧
      trace.seen (bodyParts (bodyOf targets)) = trace.seenIn targets := by
  induction targets with
  | nil =>
    refine ⟨rfl, ?_⟩
    rw [bodyOf, seen_result, exprParts, trace.seen_frame rfl]
    rfl
  | cons t targets ih =>
    obtain ⟨hchildren, hbody⟩ := ih
    rw [seenIn_cons]
    cases t with
    | child c =>
      have hall : trace.seen (childParts (c :: childrenOf targets)) =
          trace.seen (childParts [c]) ++ trace.seenIn targets := by
        rw [seen_children_cons, hchildren]
      rw [childrenOf, bodyOf, seen_result, seen_fragment, hall]
      exact ⟨rfl, rfl⟩
    | bare e =>
      have hall : trace.seen (childParts (.container e :: childrenOf targets)) =
          trace.seen (exprParts e) ++ trace.seenIn targets := by
        rw [seen_children_cons, seen_container, hchildren]
      rw [childrenOf, bodyOf, seen_result, seen_fragment, hall]
      exact ⟨rfl, rfl⟩
    | statement s =>
      have hall : trace.seen (bodyParts (s :: bodyOf targets)) =
          trace.seen (stmtParts s) ++ trace.seenIn targets := by
        rw [bodyParts, seen_append, hbody]
      rw [childrenOf, bodyOf, seen_container, seen_invoked, hall]
      exact ⟨rfl, rfl⟩
    | imported i =>
      rw [childrenOf, bodyOf]
      exact ⟨hchildren, hbody⟩
    | placeholder =>
      rw [childrenOf, bodyOf, childParts]
      exact ⟨hchildren, hbody⟩

theorem seen_children (targets : List Target) :
    trace.seen (childParts (childrenOf targets)) = trace.seenIn targets := (trace.seen_placed targets).1

theorem seen_body (targets : List Target) :
    trace.seen (bodyParts (bodyOf targets)) = trace.seenIn targets := (trace.seen_placed targets).2

/-- Script has no block, and nothing is seen in it. -/
theorem seenIn_code {value : String} {kind : Template.CodeKind} {block : List Node} {l : Lowered}
    (h : (lowerCode setting value kind block span).result = .ok l) :
    trace.seenIn l.targets = [] := by
  rcases lowerCode_eq_ok h with ⟨-, statements, -, rfl⟩ | ⟨-, e, he, rfl⟩
  · show trace.seenIn (statements.map _) = []
    clear h
    induction statements with
    | nil => rfl
    | cons s rest ih =>
      rw [List.map_cons, seenIn_cons, ih, List.append_nil]
      cases s with
      | expression e =>
        rw [targetParts, embeddedStatement, stmtParts, exprParts, trace.seen_frame rfl,
          trace.seen_frame rfl, seen_nil]
      | other source =>
        rw [targetParts, embeddedStatement, stmtParts, trace.seen_frame rfl, seen_nil]
  · show trace.seenIn [.child (.container e)] = []
    rw [seenIn_single, targetParts, seen_container]
    exact trace.seen_embedded he

/-! ## Lowering -/

/-- What is found in nodes. -/
def found (nodes : List Node) : List α := nodes.filterMap trace.ofNode

@[simp]
theorem found_append (a b : List Node) : trace.found (a ++ b) = trace.found a ++ trace.found b :=
  List.filterMap_append

theorem found_cons (node : Node) (rest : List Node) :
    trace.found (node :: rest) = (trace.ofNode node).toList ++ trace.found rest :=
  filterMap_cons_toList trace.ofNode node rest

theorem found_untraced {node : Node} (h : leavesTrace setting.layout node = false) (rest : List Node) :
    trace.found (node :: rest) = trace.found rest :=
  List.filterMap_cons_none (trace.untraced node h)

/-- The conditional of a slot is seen as the block says, with what is seen in the content. -/
theorem seenIn_slot (name : String) (mode : Template.BlockMode) {nodes : List Node} (span : Template.Span)
    {targets : List Target} (hlayout : setting.layout = true) (hnodes : nodes ≠ [])
    (h : (lowerNodes setting false nodes).result = .ok targets) :
    trace.seenIn [Component.slot (slotName name) (some (childrenOf targets))] =
      (trace.ofNode (.namedBlock name mode nodes span)).toList ++ trace.seenIn targets := by
  have hchoice := trace.slot name mode nodes span targets hlayout hnodes h
  unfold slotChoice at hchoice
  rw [seenIn_single, Component.slot, targetParts, seen_container, exprParts, seen_cons, hchoice,
    seen_append, seen_append, seen_fragment, seen_children, seen_expr_markup, Markup.selfClosing,
    markupParts, trace.seen_frame rfl, exprParts, trace.seen_frame rfl]
  rfl

theorem seenIn_selfClosing (name : String) : trace.seenIn [Component.slot name none] = [] := by
  rw [seenIn_single, Component.slot, targetParts, childParts, childParts, List.append_nil,
    Markup.selfClosing, markupParts, trace.seen_frame rfl]
  rfl

/-- The binding of a mixin is seen as the mixin says, with what is seen in its body. -/
theorem seenIn_mixin (name : String) (arguments : Option String) (body : List Node) (span : Template.Span)
    (params : List Param) (targets : List Target) :
    trace.seenIn [.statement (.binding (mixinName name) (.blockArrow params (bodyOf targets)))] =
      (trace.ofNode (.mixinDefinition name arguments body span)).toList ++ trace.seenIn targets := by
  rw [seenIn_single, targetParts, stmtParts, seen_cons, trace.mixin name arguments body span,
    seen_blockArrow, seen_body]

theorem seenIn_element {attributes : List Template.Attribute} {spreads : List Spread}
    (name : String) (selfClosing : Bool)
    (h : (lowerAttributes setting.reader attributes spreads).result = .ok list)
    (targets : List Target) :
    trace.seenIn [.child (.markup (.element name list (childrenOf targets) selfClosing))] =
      trace.seenIn targets := by
  rw [seenIn_single, targetParts, childParts, childParts, List.append_nil, markupParts,
    trace.seen_frame rfl, seen_append, trace.seen_attributes h, List.nil_append, seen_children]

theorem seenIn_mapCall {collection : Expr}
    (h : (readExpression setting.reader source span).result = .ok collection) (item : String)
    (key : Option String) (targets : List Target) :
    trace.seenIn [.child (.markup (mapCall collection item key (childrenOf targets)))] =
      trace.seenIn targets := by
  rw [seenIn_single, targetParts, childParts, childParts, List.append_nil, mapCall, markupParts,
    trace.seen_frame rfl, seen_container, exprParts, trace.seen_frame rfl, exprParts,
    List.cons_append, trace.seen_frame rfl, seen_append, trace.seen_embedded h, List.nil_append,
    argumentParts, argumentParts, List.append_nil, exprParts, trace.seen_frame rfl, seen_fragment,
    seen_children]

theorem seenIn_switchCall {subject : Expr}
    (h : (readExpression setting.reader source span).result = .ok subject)
    (cases' : List SwitchCase) :
    trace.seenIn [.child (.markup (switchCall subject cases'))] = trace.seen (caseParts cases') := by
  rw [seenIn_single, targetParts, childParts, childParts, List.append_nil, switchCall, markupParts,
    trace.seen_frame rfl, seen_container, seen_invoked, bodyParts, bodyParts, List.append_nil, stmtParts,
    trace.seen_frame rfl, seen_append, trace.seen_embedded h, List.nil_append]

theorem isEmptyFragment_branchValue (children : List Child) :
    (branchValue children).isEmptyFragment = false := by
  unfold branchValue
  split
  · rfl
  · cases children with
    | nil => contradiction
    | cons c children => rfl

theorem seen_conditional {test consequent alternate : Expr} (hconsequent : consequent.isEmptyFragment = false)
    (halternate : alternate.isEmptyFragment = false) (htest : trace.seen (exprParts test) = []) :
    trace.seen (exprParts (.conditional test consequent alternate)) =
      trace.seen (exprParts consequent) ++ trace.seen (exprParts alternate) := by
  rw [exprParts, trace.seen_frame (by simp [Part.isFrame, hconsequent, halternate]), seen_append,
    seen_append, htest, List.nil_append]

theorem seen_switchCase {test : Option String} {value : Option Expr}
    (h : (readTest setting.reader test span).result = .ok value) (body : List Stmt)
    (rest : List SwitchCase) :
    trace.seen (caseParts (switchCase value body :: rest)) =
      trace.seen (bodyParts body) ++ trace.seen (caseParts rest) := by
  rcases readTest_eq_ok h with ⟨rfl, rfl⟩ | ⟨source, e, rfl, rfl, he⟩
  · rw [switchCase, caseParts, seen_append]
  · rw [switchCase, caseParts, seen_append, seen_append, trace.seen_embedded he, List.nil_append]

mutual

/-- What is seen in the targets of a node is found in the node and below it. -/
theorem lowerNode_traced (top : Bool) (node : Node) {l : Lowered}
    (h : (lowerNode setting top node).result = .ok l) :
    trace.seenIn l.targets = trace.found (node :: node.descendants) := by
  match node with
  | .text value span =>
    obtain rfl := lowerNode_eq_ok h
    rw [trace.found_untraced rfl]
    show trace.seenIn [if _ then _ else _] = []
    split <;> rfl
  | .code value kind block span =>
    rw [lowerNode] at h
    obtain ⟨rfl, -⟩ := lowerCode_regular h
    rw [trace.found_untraced rfl, trace.seenIn_code h]
    rfl
  | .group nodes span =>
    obtain ⟨ts, hts, rfl⟩ := lowerNode_eq_ok h
    rw [trace.found_untraced rfl]
    exact lowerNodes_traced false nodes hts
  | .namedBlock name mode nodes span =>
    rcases lowerNode_eq_ok h with ⟨hlayout, ts, hts, rfl⟩ | ⟨-, rfl, rfl⟩ | ⟨hlayout, hnodes, ts, hts, rfl⟩
    · rw [trace.found_untraced (by simp [leavesTrace, hlayout])]
      exact lowerNodes_traced false nodes hts
    · rw [trace.found_untraced (by simp [leavesTrace])]
      exact trace.seenIn_selfClosing (slotName name)
    · rw [found_cons]
      have hslot := trace.seenIn_slot name mode span hlayout hnodes hts
      rw [lowerNodes_traced false nodes hts] at hslot
      exact hslot
  | .comment .. | .doctype .. | .rawInclude .. | .mixinCall .. | .extendsFile .. =>
    obtain rfl := lowerNode_eq_ok h
    rw [trace.found_untraced rfl]
    rfl
  | .caseOf subject branches span =>
    obtain ⟨value, cases', hvalue, hcases, rfl⟩ := lowerNode_eq_ok h
    rw [trace.found_untraced rfl]
    exact (trace.seenIn_switchCall hvalue cases').trans (lowerBranches_traced branches hcases)
  | .conditional test consequent alternates span =>
    obtain ⟨value, ts, other, hvalue, hts, hother, rfl⟩ := lowerNode_eq_ok h
    obtain ⟨hseen, hempty⟩ := lowerAlternates_traced alternates hother
    rw [trace.found_untraced rfl]
    show trace.seenIn [.bare (.conditional value (branchValue (childrenOf ts)) other)] =
      trace.found (preorder consequent ++ preorderOfAlternates alternates)
    rw [seenIn_single, targetParts,
      trace.seen_conditional (isEmptyFragment_branchValue _) hempty (trace.seen_embedded hvalue),
      seen_branchValue, seen_children, lowerNodes_traced false consequent hts, hseen, found_append]
  | .each collection item key body span =>
    obtain ⟨value, ts, hvalue, hts, rfl⟩ := lowerNode_eq_ok h
    rw [trace.found_untraced rfl]
    exact (trace.seenIn_mapCall hvalue item key ts).trans (lowerNodes_traced false body hts)
  | .mixinDefinition name arguments body span =>
    obtain ⟨ts, hts, rfl⟩ := lowerNode_eq_ok h
    have hmixin := trace.seenIn_mixin name arguments body span
      ((Template.mixinParameters arguments).map Param.ident) ts
    rw [lowerNodes_traced false body hts] at hmixin
    rw [found_cons]
    exact hmixin
  | .tag name attributes spreads children selfClosing span =>
    obtain ⟨list, ts, hlist, hts, rfl⟩ := lowerNode_eq_ok h
    rw [trace.found_untraced rfl]
    exact (trace.seenIn_element name selfClosing hlist ts).trans (lowerNodes_traced false children hts)
  | .interpolatedTag expression span =>
    obtain ⟨value, hvalue, rfl⟩ := lowerNode_eq_ok h
    rw [trace.found_untraced rfl]
    show trace.seenIn [.child (.container value)] = []
    rw [seenIn_single, targetParts, seen_container, trace.seen_embedded hvalue]
  | .includeFile file column span =>
    rw [trace.found_untraced rfl]
    rcases lowerNode_eq_ok h with ⟨-, rfl⟩ | ⟨-, rfl⟩ <;> rfl
  | .whileLoop .. | .mixinBlock .. | .filter .. =>
    exact (lowerNode_eq_ok h).elim

/-- What is seen in the targets of nodes is found in the nodes and below them. -/
theorem lowerNodes_traced (top : Bool) (nodes : List Node) {ts : List Target}
    (h : (lowerNodes setting top nodes).result = .ok ts) :
    trace.seenIn ts = trace.found (preorder nodes) := by
  match nodes with
  | [] =>
    obtain rfl := lowerNodes_eq_ok h
    rfl
  | node :: rest =>
    obtain ⟨l, more, hl, hmore, rfl⟩ := lowerNodes_eq_ok h
    rw [seenIn_append, lowerNode_traced top node hl, lowerNodes_traced top rest hmore, ← found_append,
      preorder, List.cons_append]

/-- The value of further branches is no empty fragment. -/
theorem lowerAlternates_traced (alternates : List Alternate) {e : Expr}
    (h : (lowerAlternates setting alternates).result = .ok e) :
    trace.seen (exprParts e) = trace.found (preorderOfAlternates alternates) ∧
      e.isEmptyFragment = false := by
  match alternates with
  | [] =>
    obtain rfl := lowerAlternates_eq_ok h
    rw [exprParts, trace.seen_frame rfl]
    exact ⟨rfl, rfl⟩
  | .orElse nodes _ :: _ =>
    obtain ⟨ts, hts, rfl⟩ := lowerAlternates_eq_ok h
    rw [preorderOfAlternates, seen_branchValue, seen_children]
    exact ⟨lowerNodes_traced false nodes hts, isEmptyFragment_branchValue _⟩
  | .orIf test nodes span :: rest =>
    obtain ⟨value, ts, other, hvalue, hts, hother, rfl⟩ := lowerAlternates_eq_ok h
    obtain ⟨hseen, hempty⟩ := lowerAlternates_traced rest hother
    refine ⟨?_, rfl⟩
    rw [trace.seen_conditional (isEmptyFragment_branchValue _) hempty (trace.seen_embedded hvalue),
      seen_branchValue, seen_children, lowerNodes_traced false nodes hts, hseen, preorderOfAlternates,
      found_append]

theorem lowerBranches_traced (branches : List Branch) {cases' : List SwitchCase}
    (h : (lowerBranches setting branches).result = .ok cases') :
    trace.seen (caseParts cases') = trace.found (preorderOfBranches branches) := by
  match branches with
  | [] =>
    obtain rfl := lowerBranches_eq_ok h
    rfl
  | .bare test span :: rest =>
    obtain ⟨value, more, hvalue, hmore, rfl⟩ := lowerBranches_eq_ok h
    rw [trace.seen_switchCase hvalue, lowerBranches_traced rest hmore, preorderOfBranches]
    rfl
  | .block test nodes span :: rest =>
    obtain ⟨value, ts, more, hvalue, hts, hmore, rfl⟩ := lowerBranches_eq_ok h
    rw [trace.seen_switchCase hvalue, seen_body, lowerNodes_traced false nodes hts,
      lowerBranches_traced rest hmore, preorderOfBranches, found_append]

end

/-! ## Programs -/

/-- The statements of targets and what they render hold together what is seen in the targets. -/
theorem seen_split (targets : List Target) :
    trace.seen (bodyParts (targets.filterMap Target.statement?)) ++
      trace.seen (childParts (targets.filterMap Target.rendered?)) ~ trace.seenIn targets := by
  induction targets with
  | nil => exact List.Perm.refl _
  | cons t targets ih =>
    rw [seenIn_cons]
    have hrendered (c : Child) (hc : trace.seen (targetParts t) = trace.seen (childParts [c])) :
        trace.seen (bodyParts (targets.filterMap Target.statement?)) ++
          trace.seen (childParts (c :: targets.filterMap Target.rendered?)) ~
            trace.seen (targetParts t) ++ trace.seenIn targets := by
      rw [seen_children_cons, hc]
      calc _ ~ trace.seen (childParts [c]) ++ (trace.seen (bodyParts (targets.filterMap Target.statement?)) ++
              trace.seen (childParts (targets.filterMap Target.rendered?))) := List.perm_append_comm_assoc ..
        _ ~ _ := ih.append_left _
    cases t with
    | child c => exact hrendered c rfl
    | bare e => exact hrendered (.container e) (trace.seen_container e).symm
    | statement s =>
      show trace.seen (bodyParts (s :: targets.filterMap Target.statement?)) ++
        trace.seen (childParts (targets.filterMap Target.rendered?)) ~ _
      rw [bodyParts, seen_append, List.append_assoc]
      exact ih.append_left _
    | imported i => exact ih
    | placeholder => exact ih

theorem seen_returnValue (children : List Child) :
    trace.seen (exprParts (returnValue children)) = trace.seen (childParts children) := by
  unfold returnValue
  split
  · rw [exprParts, trace.seen_frame rfl]
    rfl
  · rw [seen_expr_markup, childParts, childParts, List.append_nil]
  · exact trace.seen_fragment children

/-- What is seen in the components of blocks is such a component, or found in the content of one. -/
theorem lowerBlocks_traced {contents : BlockContents} {slots : List Stmt}
    (h : (lowerBlocks setting contents).result = .ok slots)
    {a : α} (ha : a ∈ trace.seen (bodyParts slots)) :
    ∃ block ∈ contents, a ∈ trace.found (preorder block.2) ∨
      ∃ init, trace.ofPart (.stmt (.binding (slotName block.1) init)) = some a := by
  have hall := result_mapM_eq_ok.mp h
  clear h
  induction hall with
  | nil => cases ha
  | @cons block stmt contents slots hstmt _ ih =>
    obtain ⟨targets, htargets, rfl⟩ := lowerBlock_eq_ok hstmt
    rw [bodyParts, seen_append, slotConstant, stmtParts, seen_cons, seen_blockArrow, seen_body,
      trace.lowerNodes_traced false block.2 htargets, List.mem_append, List.mem_append,
      Option.mem_toList] at ha
    rcases ha with (hbound | hcontent) | hrest
    · exact ⟨block, List.mem_cons_self, .inr ⟨_, hbound⟩⟩
    · exact ⟨block, List.mem_cons_self, .inl hcontent⟩
    · obtain ⟨other, hother, hseen⟩ := ih hrest
      exact ⟨other, List.mem_cons_of_mem block hother, hseen⟩

theorem seen_slotAttributes (contents : BlockContents) :
    trace.seen (attributeParts (contents.map fun (name, _) => .value name (.ident (slotName name)))) =
      [] := by
  induction contents with
  | nil => rfl
  | cons block rest ih =>
    rw [List.map_cons, attributeParts, exprParts, List.singleton_append, trace.seen_frame rfl]
    exact ih

variable {reader : SnippetReader} {file : Option String} {d : Document} {m : Module}

/-- What is seen in a component that fills no slots is found in the document. -/
theorem traced_component (trace : Trace ⟨reader, (contextOf file d).role = .layout⟩ α)
    (hrole : ∀ base, (contextOf file d).role ≠ .slotFiller base)
    (h : (convert reader file d).result = .ok m) :
    trace.seen m.program.parts ~ trace.found (preorder d.nodes) := by
  obtain ⟨x, targets, rfl, htargets, -, hprogram⟩ := convert_component hrole h
  rw [Program.parts, hprogram, moduleOf, bodyParts_append, seen_append, seen_result, seen_returnValue,
    ← trace.lowerNodes_traced true d.nodes htargets]
  exact trace.seen_split targets

/-- What is seen in a component that fills slots is the component of a block, or found in a node that
the conversion comes to. -/
theorem traced_slotFiller (trace : Trace ⟨reader, false⟩ α) {base : String}
    (hrole : (contextOf file d).role = .slotFiller base) (h : (convert reader file d).result = .ok m)
    {a : α} (ha : a ∈ trace.seen m.program.parts) :
    (∃ o ∈ converted d, trace.ofNode o.node = some a) ∨
      ∃ block ∈ blockContents d.nodes, ∃ init,
        trace.ofPart (.stmt (.binding (slotName block.1) init)) = some a := by
  obtain ⟨x, y, outside, slots, rfl, rfl, houtside, hslots, -, hprogram⟩ := convert_slotFiller hrole h
  have hconverted := converted_of_slotFiller (role_contextOf file d ▸ hrole)
  have hoccurs (direct : Bool) {nodes : List Node} (hfound : a ∈ trace.found (preorder nodes)) :
      ∃ o ∈ occurrences direct nodes, trace.ofNode o.node = some a := by
    rw [← map_node_occurrences direct nodes] at hfound
    obtain ⟨node, hnode, hseen⟩ := List.mem_filterMap.mp hfound
    obtain ⟨o, ho, rfl⟩ := List.mem_map.mp hnode
    exact ⟨o, ho, hseen⟩
  rw [Program.parts, hprogram, moduleOf, bodyParts_append, bodyParts_append, seen_append, seen_append, seen_result,
    seen_expr_markup, markupParts, trace.seen_frame rfl, seen_append, seen_slotAttributes, childParts,
    seen_nil, List.append_nil, List.append_nil, List.mem_append] at ha
  rcases ha with hstated | hblock
  · have hseen : a ∈ trace.seenIn outside :=
      (trace.seen_split outside).subset (List.mem_append_left _ hstated)
    rw [trace.lowerNodes_traced true _ (lowerNodes_of_lowerOutside houtside)] at hseen
    obtain ⟨o, ho, hnode⟩ := hoccurs true hseen
    exact .inl ⟨o, hconverted ▸ List.mem_append_left _ ho, hnode⟩
  · obtain ⟨block, hmem, hfound | hbound⟩ := trace.lowerBlocks_traced hslots hblock
    · obtain ⟨o, ho, hnode⟩ := hoccurs false hfound
      refine .inl ⟨o, hconverted ▸ List.mem_append_right _ ?_, hnode⟩
      exact List.mem_flatMap.mpr ⟨block, hmem, ho⟩
    · exact .inr ⟨block, hmem, hbound⟩

end Trace

end PugComponents.Component
