import Mathlib.Logic.Relation
import PugComponents.Proofs.Component.Demands
import PugComponents.Proofs.Component.Slots

/- Declared slots. The blocks that a layout declares are found in the content of
   tags, groups, blocks, loops over a collection, conditionals and `case`s, each
   node before its content. What stands directly in such a node stays in sight
   when the node is lowered (`lowerNode_content`), outside the definitions of
   mixins, and so by induction over the way down to a block does the slot of the
   block (`lowerNodes_reached`). `slots_declared_and_shown` puts the two together:
   the slots are the names of these blocks, and each of them is rendered. -/
namespace PugComponents.Template

/-! ## Content -/

/-- The nodes in the further branches of a conditional, which end with an `else`. -/
def chainNodes : List Alternate → List Node
  | [] => []
  | .orElse nodes _ :: _ => nodes
  | .orIf _ nodes _ :: rest => nodes ++ chainNodes rest

/-- The nodes of a branch of a `case`. -/
def Branch.nodes : Branch → List Node
  | .bare .. => []
  | .block _ nodes _ => nodes

/-- The nodes directly in a node, if they are rendered where the node stands: those of tags, groups,
blocks, loops over a collection, and all branches of conditionals and `case`s. -/
def Node.content : Node → List Node
  | .tag _ _ _ children _ _ => children
  | .group nodes _ => nodes
  | .namedBlock _ _ nodes _ => nodes
  | .each _ _ _ body _ => body
  | .conditional _ consequent alternates _ => consequent ++ chainNodes alternates
  | .caseOf _ branches _ => branches.flatMap Branch.nodes
  | _ => []

/-- The node is one of the nodes, or can be reached from them by going from a node to its content. -/
def Reached (nodes : List Node) (node : Node) : Prop :=
  ∃ root ∈ nodes, Relation.ReflTransGen (fun parent child => child ∈ parent.content) root node

/-- `Listed nodes list`: the list has the nodes and their contents, each node before its content. -/
inductive Listed : List Node → List Node → Prop
  | nil : Listed [] []
  | cons {node : Node} {rest inner after : List Node} :
    Listed node.content inner → Listed rest after → Listed (node :: rest) (node :: (inner ++ after))

/-- The name of a block. -/
def Node.blockName? : Node → Option String
  | .namedBlock name _ _ _ => some name
  | _ => none

theorem Listed.append {a b as bs : List Node} (ha : Listed a as) (hb : Listed b bs) :
    Listed (a ++ b) (as ++ bs) := by
  induction ha with
  | nil => exact hb
  | cons hinner _ _ ih =>
    rw [List.cons_append, List.cons_append, List.append_assoc]
    exact .cons hinner ih

/-- The nodes that are listed are those that can be reached. -/
theorem Listed.mem_iff {nodes list : List Node} (h : Listed nodes list) (node : Node) :
    node ∈ list ↔ Reached nodes node := by
  induction h with
  | nil => simp [Reached]
  | @cons first rest inner after _ _ ihinner ihafter =>
    rw [List.mem_cons, List.mem_append, ihinner, ihafter]
    simp only [Reached, List.mem_cons, exists_eq_or_imp]
    rw [Relation.ReflTransGen.cases_head_iff, ← or_assoc]
    simp only [eq_comm]

end PugComponents.Template

namespace PugComponents.Link

open Template

/-! ## The names of declared blocks -/

mutual

theorem listed_blockNames (node : Node) :
    ∃ list, Listed node.content list ∧
      blockNames node = node.blockName?.toList ++ list.filterMap Node.blockName? := by
  match node with
  | .namedBlock _ _ nodes _ | .tag _ _ _ nodes _ _ | .group nodes _ | .each _ _ _ nodes _ =>
    obtain ⟨list, hlist, hnames⟩ := listed_blockNamesOf nodes
    exact ⟨list, hlist, by rw [blockNames, hnames]; rfl⟩
  | .conditional _ consequent alternates _ =>
    obtain ⟨first, hfirst, hnames⟩ := listed_blockNamesOf consequent
    obtain ⟨more, hmore, hnames'⟩ := listed_blockNamesOfAlternates alternates
    refine ⟨first ++ more, hfirst.append hmore, ?_⟩
    rw [blockNames, hnames, hnames', List.filterMap_append]
    rfl
  | .caseOf _ branches _ =>
    obtain ⟨list, hlist, hnames⟩ := listed_blockNamesOfBranches branches
    exact ⟨list, hlist, by rw [blockNames, hnames]; rfl⟩
  | .text .. | .code .. | .comment .. | .doctype .. | .whileLoop .. | .mixinDefinition ..
  | .mixinCall .. | .mixinBlock .. | .interpolatedTag .. | .includeFile .. | .rawInclude ..
  | .extendsFile .. | .filter .. => exact ⟨[], .nil, rfl⟩

theorem listed_blockNamesOf (nodes : List Node) :
    ∃ list, Listed nodes list ∧ blockNamesOf nodes = list.filterMap Node.blockName? := by
  match nodes with
  | [] => exact ⟨[], .nil, rfl⟩
  | node :: rest =>
    obtain ⟨inner, hinner, hnode⟩ := listed_blockNames node
    obtain ⟨after, hafter, hrest⟩ := listed_blockNamesOf rest
    refine ⟨_, .cons hinner hafter, ?_⟩
    rw [blockNamesOf, hnode, hrest, List.filterMap_cons, List.filterMap_append]
    cases node.blockName? <;> simp

theorem listed_blockNamesOfAlternates (alternates : List Alternate) :
    ∃ list, Listed (chainNodes alternates) list ∧
      blockNamesOfAlternates alternates = list.filterMap Node.blockName? := by
  match alternates with
  | [] => exact ⟨[], .nil, rfl⟩
  | .orElse nodes _ :: _ =>
    obtain ⟨list, hlist, hnames⟩ := listed_blockNamesOf nodes
    exact ⟨list, hlist, by rw [blockNamesOfAlternates, hnames]⟩
  | .orIf _ nodes _ :: rest =>
    obtain ⟨first, hfirst, hnames⟩ := listed_blockNamesOf nodes
    obtain ⟨more, hmore, hnames'⟩ := listed_blockNamesOfAlternates rest
    refine ⟨first ++ more, hfirst.append hmore, ?_⟩
    rw [blockNamesOfAlternates, hnames, hnames', List.filterMap_append]

theorem listed_blockNamesOfBranches (branches : List Branch) :
    ∃ list, Listed (branches.flatMap Branch.nodes) list ∧
      blockNamesOfBranches branches = list.filterMap Node.blockName? := by
  match branches with
  | [] => exact ⟨[], .nil, rfl⟩
  | .bare .. :: rest =>
    obtain ⟨list, hlist, hnames⟩ := listed_blockNamesOfBranches rest
    exact ⟨list, hlist, by rw [blockNamesOfBranches, hnames]⟩
  | .block _ nodes _ :: rest =>
    obtain ⟨first, hfirst, hnames⟩ := listed_blockNamesOf nodes
    obtain ⟨more, hmore, hnames'⟩ := listed_blockNamesOfBranches rest
    refine ⟨first ++ more, hfirst.append hmore, ?_⟩
    rw [blockNamesOfBranches, hnames, hnames', List.filterMap_append]

end

end PugComponents.Link

namespace PugComponents.Jsx

/-! ## Parts in sight -/

/-- The part that a child is, if it is more than text. -/
def Child.part? : Child → Option Part
  | .text _ => none
  | .container e => some (.expr e)
  | .markup m => some (.markup m)

/-- The part that an attribute holds. -/
def Attribute.part? : Attribute → Option Part
  | .flag _ => none
  | .value _ e => some (.expr e)
  | .spread e => some (.expr e)

/-- The part that a property holds. -/
def Property.part : Property → Part
  | .mk _ value => .expr value

/-- The parts of a case of a `switch`. -/
def SwitchCase.inner : SwitchCase → List Part
  | .test e body => .expr e :: body.map .stmt
  | .otherwise body => body.map .stmt

/-- The parts directly in a part. A constant is not looked into: in a layout it is the definition of a
mixin. -/
def Part.inner : Part → List Part
  | .expr (.object properties) => properties.map Property.part
  | .expr (.conditional test consequent alternate) => [.expr test, .expr consequent, .expr alternate]
  | .expr (.call callee arguments) => .expr callee :: arguments.map .expr
  | .expr (.member object _) => [.expr object]
  | .expr (.arrow _ result) => [.expr result]
  | .expr (.blockArrow _ body) => body.map .stmt
  | .expr (.markup m) => [.markup m]
  | .expr (.embedded _) | .expr .null | .expr (.str _) | .expr (.ident _) => []
  | .stmt (.expression e) => [.expr e]
  | .stmt (.switch subject cases) => .expr subject :: cases.flatMap SwitchCase.inner
  | .stmt (.result value) => [.expr value]
  | .stmt (.raw _) | .stmt (.binding ..) => []
  | .markup (.element _ attributes children _) =>
    attributes.filterMap Attribute.part? ++ children.filterMap Child.part?
  | .markup (.fragment children) => children.filterMap Child.part?

/-- `StandsIn p q`: the part `p` is `q` or stands in it, outside the definitions of mixins. -/
def StandsIn (p q : Part) : Prop := Relation.ReflTransGen (fun outer inner => inner ∈ outer.inner) q p

/-- Each of the parts `ps` stands in one of the parts `qs`. -/
def AllStandIn (ps qs : List Part) : Prop := ∀ p ∈ ps, ∃ q ∈ qs, StandsIn p q

namespace AllStandIn

variable {ps qs rs ss : List Part}

theorem of_subset (h : ps ⊆ qs) : AllStandIn ps qs := fun p hp => ⟨p, h hp, .refl⟩

theorem refl (ps : List Part) : AllStandIn ps ps := of_subset (List.Subset.refl ps)

theorem trans (h : AllStandIn ps qs) (h' : AllStandIn qs rs) : AllStandIn ps rs := by
  intro p hp
  obtain ⟨q, hq, hpq⟩ := h p hp
  obtain ⟨r, hr, hqr⟩ := h' q hq
  exact ⟨r, hr, hqr.trans hpq⟩

theorem append (h : AllStandIn ps qs) (h' : AllStandIn rs ss) : AllStandIn (ps ++ rs) (qs ++ ss) := by
  intro p hp
  rcases List.mem_append.mp hp with hp | hp
  · obtain ⟨q, hq, hpq⟩ := h p hp
    exact ⟨q, List.mem_append_left _ hq, hpq⟩
  · obtain ⟨q, hq, hpq⟩ := h' p hp
    exact ⟨q, List.mem_append_right _ hq, hpq⟩

/-- What stands in parts that are directly in a part stands in that part. -/
theorem inner {q : Part} (h : AllStandIn ps qs) (hq : qs ⊆ q.inner) : AllStandIn ps [q] := by
  intro p hp
  obtain ⟨r, hr, hpr⟩ := h p hp
  exact ⟨q, List.mem_singleton.mpr rfl, .head (hq hr) hpr⟩

/-- Children stand in the fragment of them. -/
theorem fragment {children : List Child} (h : AllStandIn ps (children.filterMap Child.part?)) :
    AllStandIn ps [.expr (.fragment children)] := by
  have hmarkup : AllStandIn ps [.markup (.fragment children)] := h.inner (List.Subset.refl _)
  exact hmarkup.inner (List.Subset.refl _)

/-- The statements of a body stand in the function that is called with it. -/
theorem invoked {body : List Stmt} (h : AllStandIn ps (body.map .stmt)) :
    AllStandIn ps [.expr (.invoked body)] := by
  have harrow : AllStandIn ps [.expr (.blockArrow [] body)] := h.inner (List.Subset.refl _)
  exact harrow.inner (List.Subset.refl _)

end AllStandIn

end PugComponents.Jsx

namespace PugComponents.Component

open Jsx
open Link (FileContext slotName slotsOf listed_blockNamesOf)
open Script (SnippetReader)
open Template (Node Branch Alternate Document Listed Reached chainNodes)

/-- The part that a target is. -/
def Target.part? : Target → Option Part
  | .child c => c.part?
  | .bare e => some (.expr e)
  | .statement s => some (.stmt s)
  | .imported _ => none
  | .placeholder => none

/-- The parts that targets are. -/
def partsOf (targets : List Target) : List Part := targets.filterMap Target.part?

/-- What targets are stays in sight, among their children and in their body. -/
theorem partsOf_standIn (targets : List Target) :
    AllStandIn (partsOf targets) ((childrenOf targets).filterMap Child.part?) ∧
      AllStandIn (partsOf targets) ((bodyOf targets).map .stmt) := by
  induction targets with
  | nil => exact ⟨.of_subset (List.nil_subset _), .of_subset (List.nil_subset _)⟩
  | cons t rest ih =>
    obtain ⟨hchildren, hbody⟩ := ih
    have hfirst (c : Child) : AllStandIn (c.part?.toList ++ partsOf rest)
        ((c :: childrenOf rest).filterMap Child.part?) := by
      have hcons : (c :: childrenOf rest).filterMap Child.part? =
          c.part?.toList ++ (childrenOf rest).filterMap Child.part? := by
        cases c <;> rfl
      rw [hcons]
      exact (AllStandIn.refl _).append hchildren
    -- a body returns the first child and all that follows it
    have hreturned (c : Child) : AllStandIn (c.part?.toList ++ partsOf rest)
        [.stmt (.result (.fragment (c :: childrenOf rest)))] :=
      (hfirst c).fragment.inner (List.Subset.refl _)
    have hrun (s : Stmt) : AllStandIn (.stmt s :: partsOf rest) ((s :: bodyOf rest).map .stmt) :=
      (AllStandIn.refl [.stmt s]).append hbody
    cases t with
    | child c =>
      have hparts : partsOf (.child c :: rest) = c.part?.toList ++ partsOf rest := by
        cases c <;> rfl
      rw [hparts, childrenOf, bodyOf]
      exact ⟨hfirst c, hreturned c⟩
    | bare e =>
      rw [childrenOf, bodyOf]
      exact ⟨hfirst (.container e), hreturned (.container e)⟩
    | statement s =>
      rw [childrenOf, bodyOf]
      exact ⟨(hrun s).invoked, hrun s⟩
    | imported i | placeholder =>
      rw [childrenOf, bodyOf]
      exact ⟨hchildren, hbody⟩

/-- Children stand in the call of `map` with a function that returns them. -/
theorem standIn_mapCall (collection : Expr) (item : String) (key : Option String)
    (children : List Child) :
    AllStandIn (children.filterMap Child.part?) [.markup (mapCall collection item key children)] := by
  have harrow : AllStandIn _ [.expr (.arrow (.ident item :: key.toList.map .ident) (.fragment children))] :=
    (AllStandIn.refl (children.filterMap Child.part?)).fragment.inner (List.Subset.refl _)
  have hcall : AllStandIn _ [.expr (.call (.member collection "map")
      [.arrow (.ident item :: key.toList.map .ident) (.fragment children)])] :=
    harrow.inner (List.subset_cons_self _ _)
  exact hcall.inner (List.Subset.refl _)

/-- Cases stand in the `switch` with them. -/
theorem standIn_switchCall (subject : Expr) (cases' : List SwitchCase) :
    AllStandIn (cases'.flatMap SwitchCase.inner) [.markup (switchCall subject cases')] := by
  have hswitch : AllStandIn (cases'.flatMap SwitchCase.inner) ([Stmt.switch subject cases'].map .stmt) :=
    (AllStandIn.refl _).inner (List.subset_cons_self _ _)
  exact hswitch.invoked.inner (List.Subset.refl _)

/-- What targets are stays in sight in the value of a branch. -/
theorem partsOf_standIn_branchValue (targets : List Target) :
    AllStandIn (partsOf targets) [.expr (branchValue (childrenOf targets))] := by
  have hchildren := (partsOf_standIn targets).1
  unfold branchValue
  split
  · rename_i hnone
    rw [List.isEmpty_iff.mp hnone] at hchildren
    intro p hp
    obtain ⟨q, hq, -⟩ := hchildren p hp
    cases hq
  · exact hchildren.fragment

/-- What is rendered stays in sight in what a component returns. -/
theorem standIn_returnValue (children : List Child) :
    AllStandIn (children.filterMap Child.part?) [.stmt (.result (returnValue children))] := by
  have hvalue : AllStandIn (children.filterMap Child.part?) [.expr (returnValue children)] := by
    unfold returnValue
    split
    · exact .of_subset (List.nil_subset _)
    · exact (AllStandIn.refl _).inner (List.Subset.refl _)
    · exact (AllStandIn.refl _).fragment
  exact hvalue.inner (List.Subset.refl _)

/-- What targets are stays in sight in the body of their component. -/
theorem partsOf_standIn_component (targets : List Target) :
    AllStandIn (partsOf targets) ((targets.filterMap Target.statement? ++
      [Stmt.result (returnValue (targets.filterMap Target.rendered?))]).map .stmt) := by
  intro p hp
  obtain ⟨t, ht, hpart⟩ := List.mem_filterMap.mp hp
  rw [List.map_append]
  have hrendered (c : Child) (hc : t.rendered? = some c) (hp : c.part? = some p) :
      ∃ q ∈ (targets.filterMap Target.statement?).map Part.stmt ++
        [.stmt (.result (returnValue (targets.filterMap Target.rendered?)))], StandsIn p q := by
    have hmem : p ∈ (targets.filterMap Target.rendered?).filterMap Child.part? :=
      List.mem_filterMap.mpr ⟨c, List.mem_filterMap.mpr ⟨t, ht, hc⟩, hp⟩
    obtain ⟨q, hq, hpq⟩ := standIn_returnValue _ p hmem
    exact ⟨q, List.mem_append_right _ hq, hpq⟩
  cases t with
  | child c => exact hrendered c rfl hpart
  | bare e => exact hrendered (.container e) rfl hpart
  | statement s =>
    cases hpart
    have hmem : s ∈ targets.filterMap Target.statement? := List.mem_filterMap.mpr ⟨_, ht, rfl⟩
    exact ⟨_, List.mem_append_left _ (List.mem_map_of_mem hmem), .refl⟩
  | imported i => cases hpart
  | placeholder => cases hpart

/-! ## The way down to a block -/

variable {setting : Setting}

/-- `Keeps node ps`: the node can be lowered below the top level, and what its targets are stands in
the parts. -/
def Keeps (setting : Setting) (node : Node) (ps : List Part) : Prop :=
  ∃ l, (lowerNode setting false node).result = .ok l ∧ AllStandIn (partsOf l.targets) ps

variable {node : Node}

theorem Keeps.mono {ps qs : List Part} (h : Keeps setting node ps) (hpq : AllStandIn ps qs) :
    Keeps setting node qs := by
  obtain ⟨l, hl, hparts⟩ := h
  exact ⟨l, hl, hparts.trans hpq⟩

variable {top : Bool}

/-- A node of a list that is lowered is lowered, and its targets are among those of the list. -/
theorem lowerNode_of_mem {nodes : List Node} {ts : List Target}
    (h : (lowerNodes setting top nodes).result = .ok ts) (hnode : node ∈ nodes) :
    ∃ l, (lowerNode setting top node).result = .ok l ∧ AllStandIn (partsOf l.targets) (partsOf ts) := by
  induction nodes generalizing ts with
  | nil => cases hnode
  | cons first rest ih =>
    obtain ⟨l, more, hl, hmore, rfl⟩ := lowerNodes_eq_ok h
    have happend : partsOf (l.targets ++ more) = partsOf l.targets ++ partsOf more :=
      List.filterMap_append
    rw [happend]
    rcases List.mem_cons.mp hnode with rfl | hnode
    · exact ⟨l, hl, .of_subset (List.subset_append_left _ _)⟩
    · obtain ⟨l', hl', hparts⟩ := ih hmore hnode
      exact ⟨l', hl', hparts.trans (.of_subset (List.subset_append_right _ _))⟩

/-- The nodes in the branches of a conditional stay in sight in the value of the branches. -/
theorem lowerAlternates_keeps {alternates : List Alternate} {e : Expr}
    (h : (lowerAlternates setting alternates).result = .ok e) (hnode : node ∈ chainNodes alternates) :
    Keeps setting node [.expr e] := by
  induction alternates generalizing e with
  | nil => cases hnode
  | cons alternate rest ih =>
    cases alternate with
    | orElse nodes span =>
      obtain ⟨ts, hts, rfl⟩ := lowerAlternates_eq_ok h
      exact Keeps.mono (lowerNode_of_mem hts hnode) (partsOf_standIn_branchValue ts)
    | orIf test nodes span =>
      obtain ⟨value, ts, other, hvalue, hts, hother, rfl⟩ := lowerAlternates_eq_ok h
      rcases List.mem_append.mp hnode with hnode | hnode
      · refine Keeps.mono (lowerNode_of_mem hts hnode) ?_
        exact (partsOf_standIn_branchValue ts).inner (by simp [Part.inner])
      · exact (ih hother hnode).mono ((AllStandIn.refl _).inner (by simp [Part.inner]))

/-- The nodes in the branches of a `case` stay in sight in the cases. -/
theorem lowerBranches_keeps {branches : List Branch} {cases' : List SwitchCase}
    (h : (lowerBranches setting branches).result = .ok cases')
    (hnode : node ∈ branches.flatMap Branch.nodes) :
    Keeps setting node (cases'.flatMap SwitchCase.inner) := by
  induction branches generalizing cases' with
  | nil => cases hnode
  | cons branch rest ih =>
    rw [List.flatMap_cons] at hnode
    cases branch with
    | bare test span =>
      obtain ⟨value, more, hvalue, hmore, rfl⟩ := lowerBranches_eq_ok h
      rw [List.flatMap_cons]
      exact (ih hmore hnode).mono (.of_subset (List.subset_append_right _ _))
    | block test nodes span =>
      obtain ⟨value, ts, more, hvalue, hts, hmore, rfl⟩ := lowerBranches_eq_ok h
      rw [List.flatMap_cons]
      rcases List.mem_append.mp hnode with hnode | hnode
      · have hcase : (bodyOf ts).map Part.stmt ⊆ (switchCase value (bodyOf ts)).inner := by
          cases value with
          | none => exact List.Subset.refl _
          | some e => exact List.subset_cons_self _ _
        refine Keeps.mono (lowerNode_of_mem hts hnode) ((partsOf_standIn ts).2.trans ?_)
        exact .of_subset (List.Subset.trans hcase (List.subset_append_left _ _))
      · exact (ih hmore hnode).mono (.of_subset (List.subset_append_right _ _))

/-- What stands directly in a node stays in sight when the node is lowered. -/
theorem lowerNode_content (hlayout : setting.layout = true) {child : Node} {l : Lowered}
    (h : (lowerNode setting top node).result = .ok l) (hchild : child ∈ node.content) :
    Keeps setting child (partsOf l.targets) := by
  cases node with
  | tag name attributes spreads children selfClosing span =>
    obtain ⟨list, ts, -, hts, rfl⟩ := lowerNode_eq_ok h
    refine Keeps.mono (lowerNode_of_mem hts hchild) ((partsOf_standIn ts).1.inner ?_)
    exact List.subset_append_right _ _
  | group nodes span =>
    obtain ⟨ts, hts, rfl⟩ := lowerNode_eq_ok h
    exact lowerNode_of_mem hts hchild
  | namedBlock name mode nodes span =>
    rcases lowerNode_eq_ok h with ⟨hplain, -⟩ | ⟨-, rfl, -⟩ | ⟨-, -, ts, hts, rfl⟩
    · rw [hlayout] at hplain
      cases hplain
    · cases hchild
    · refine Keeps.mono (lowerNode_of_mem hts hchild) ((partsOf_standIn ts).1.fragment.inner ?_)
      simp [Part.inner]
  | each collection item key body span =>
    obtain ⟨value, ts, -, hts, rfl⟩ := lowerNode_eq_ok h
    refine Keeps.mono (lowerNode_of_mem hts hchild) ((partsOf_standIn ts).1.trans ?_)
    exact standIn_mapCall value item key _
  | conditional test consequent alternates span =>
    obtain ⟨value, ts, other, -, hts, hother, rfl⟩ := lowerNode_eq_ok h
    rcases List.mem_append.mp hchild with hchild | hchild
    · refine Keeps.mono (lowerNode_of_mem hts hchild) ?_
      exact (partsOf_standIn_branchValue ts).inner (by simp [Part.inner])
    · exact (lowerAlternates_keeps hother hchild).mono ((AllStandIn.refl _).inner (by simp [Part.inner]))
  | caseOf subject branches span =>
    obtain ⟨value, cases', -, hcases, rfl⟩ := lowerNode_eq_ok h
    exact (lowerBranches_keeps hcases hchild).mono (standIn_switchCall value cases')
  | _ => cases hchild

/-- A node that can be reached from nodes is lowered with them, and stays in sight among their
targets. -/
theorem lowerNodes_reached (hlayout : setting.layout = true) {nodes : List Node} {ts : List Target}
    (h : (lowerNodes setting top nodes).result = .ok ts) (hnode : Reached nodes node) :
    ∃ top' l, (lowerNode setting top' node).result = .ok l ∧
      AllStandIn (partsOf l.targets) (partsOf ts) := by
  obtain ⟨root, hroot, hway⟩ := hnode
  induction hway with
  | refl => exact ⟨top, lowerNode_of_mem h hroot⟩
  | tail _ hchild ih =>
    obtain ⟨top', l, hl, hparts⟩ := ih
    exact ⟨false, (lowerNode_content hlayout hl hchild).mono hparts⟩

/-! ## Slots -/

/-- The part shows the slot of a block with these nodes: the component alone if there are none, else
the component behind a test of whether it is there. -/
def IsSlotOf (name : String) (nodes : List Node) (p : Part) : Prop :=
  if nodes.isEmpty then p = .markup (.element (slotName name) [] [] true)
  else ∃ fallback, p = .expr (.conditional (.ident (slotName name))
    (.markup (.element (slotName name) [] [] true)) fallback)

theorem lowerNode_namedBlock (hlayout : setting.layout = true) {name : String}
    {mode : Template.BlockMode} {nodes : List Node} {span : Template.Span} {l : Lowered}
    (h : (lowerNode setting top (.namedBlock name mode nodes span)).result = .ok l) :
    ∃ p ∈ partsOf l.targets, IsSlotOf name nodes p := by
  rcases lowerNode_eq_ok h with ⟨hplain, -⟩ | ⟨-, rfl, rfl⟩ | ⟨-, hnodes, ts, -, rfl⟩
  · rw [hlayout] at hplain
    cases hplain
  · exact ⟨_, List.mem_singleton.mpr rfl, rfl⟩
  · refine ⟨_, List.mem_singleton.mpr rfl, ?_⟩
    rw [IsSlotOf, if_neg (by simpa using hnodes)]
    exact ⟨_, rfl⟩

/-- **Declared slots are exact and used.** The slots of a document have no repetitions. They are the
names of its blocks in the order in which the blocks first occur, each node before its content, and
they are exactly the names of the blocks that can be reached in the content of tags, groups, blocks,
loops over a collection, and all branches of conditionals and `case`s. The component of a layout has
one parameter, which pairs each slot with its component in that order; and every block that can be
reached shows its slot in the body, outside the definitions of mixins. -/
theorem slots_declared_and_shown (reader : SnippetReader) (file : Option String)
    (path identifier : String) (d : Document) :
    ∃ slots, slots = (FileContext.scan path identifier d).slots ∧ slots.Nodup ∧
      (∃ list, Listed d.nodes list ∧ slots = (list.filterMap Node.blockName?).eraseDups) ∧
      (∀ name, name ∈ slots ↔
        ∃ mode nodes span, Reached d.nodes (.namedBlock name mode nodes span)) ∧
      ((contextOf file d).role = .layout → ∀ m, (convert reader file d).result = .ok m →
        m.program.params = [.destructured (slots.map fun name => (name, slotName name))] ∧
        ∀ name mode nodes span, Reached d.nodes (.namedBlock name mode nodes span) →
          ∃ p, IsSlotOf name nodes p ∧ ∃ s ∈ m.program.body, StandsIn p (.stmt s)) := by
  obtain ⟨list, hlist, hnames⟩ := listed_blockNamesOf d.nodes
  have hslots : slotsOf d = (list.filterMap Node.blockName?).eraseDups := by
    rw [slotsOf, hnames, distinct_eq_eraseDups]
  refine ⟨slotsOf d, rfl, nodup_distinct _, ⟨list, hlist, hslots⟩, ?_, ?_⟩
  · intro name
    rw [slotsOf, mem_distinct, hnames, List.mem_filterMap]
    constructor
    · rintro ⟨node, hnode, hname⟩
      cases node with
      | namedBlock other mode nodes span =>
        obtain rfl := Option.some.inj hname
        exact ⟨mode, nodes, span, (hlist.mem_iff _).mp hnode⟩
      | _ => cases hname
    · rintro ⟨mode, nodes, span, hreached⟩
      exact ⟨_, (hlist.mem_iff _).mpr hreached, rfl⟩
  · intro hrole m hm
    obtain ⟨targets, htargets, hparams, hbody⟩ := convert_layout hrole hm
    refine ⟨hparams, ?_⟩
    intro name mode nodes span hreached
    obtain ⟨top, l, hl, hparts⟩ := lowerNodes_reached rfl htargets hreached
    obtain ⟨p, hp, hslot⟩ := lowerNode_namedBlock rfl hl
    obtain ⟨q, hq, hstands⟩ := (hparts.trans (partsOf_standIn_component targets)) p hp
    obtain ⟨s, hs, rfl⟩ := List.mem_map.mp hq
    rw [hbody]
    exact ⟨p, hslot, s, hs, hstands⟩

/-- A layout with blocks in a conditional, in the content of another block, in a `case`, and in a
mixin, where no block is declared. -/
def nestedBlocks : Document :=
  ⟨[.tag "body" [] []
      [.conditional "user" [.namedBlock "aside" .replace [.namedBlock "note" .replace [] ⟨30, 40⟩] ⟨18, 29⟩]
          [.orElse [.namedBlock "aside" .replace [] ⟨50, 61⟩] ⟨43, 47⟩] ⟨7, 14⟩,
        .caseOf "kind" [.block (some "a") [.namedBlock "content" .replace [] ⟨90, 103⟩] ⟨78, 84⟩] ⟨64, 73⟩]
      false ⟨0, 4⟩,
    .mixinDefinition "card" none [.namedBlock "inner" .replace [] ⟨117, 128⟩] ⟨104, 114⟩], 129⟩

theorem nestedBlocks_declared_and_shown : (contextOf none nestedBlocks).role = .layout ∧
    ∃ m, (convert calmReader none nestedBlocks).result = .ok m ∧
      m.program.params =
        [.destructured [("aside", "Aside"), ("note", "Note"), ("content", "Content")]] ∧
      ∃ s ∈ m.program.body, StandsIn (.markup (.element "Note" [] [] true)) (.stmt s) := by
  have hrole : (contextOf none nestedBlocks).role = .layout := by decide
  obtain ⟨slots, rfl, -, -, -, hlayout⟩ :=
    slots_declared_and_shown calmReader none "" "Template" nestedBlocks
  obtain ⟨hparams, hshown⟩ := hlayout hrole _ rfl
  have hreached : Reached nestedBlocks.nodes (.namedBlock "note" .replace [] ⟨30, 40⟩) :=
    ⟨_, List.mem_cons_self,
      .head List.mem_cons_self (.head List.mem_cons_self (.single List.mem_cons_self))⟩
  obtain ⟨p, rfl, hstands⟩ := hshown "note" .replace [] ⟨30, 40⟩ hreached
  exact ⟨hrole, _, rfl, hparams, hstands⟩

end PugComponents.Component
