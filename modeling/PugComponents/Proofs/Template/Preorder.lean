import PugComponents.Template.Node

/- The nodes of a template in the order of the source, each before the nodes
   below it. The block of a mixin call is not entered: nothing in it is ever
   rendered. An `else` ends the chain of its conditional. An occurrence also
   records whether its node stands directly in the document, which decides what
   becomes of an `include`. -/
namespace PugComponents.Template

mutual

/-- The nodes below a node. -/
def Node.descendants : Node → List Node
  | .code _ _ block _ => preorder block
  | .group nodes _ => preorder nodes
  | .namedBlock _ _ nodes _ => preorder nodes
  | .caseOf _ branches _ => preorderOfBranches branches
  | .conditional _ consequent alternates _ => preorder consequent ++ preorderOfAlternates alternates
  | .each _ _ _ body _ => preorder body
  | .whileLoop _ body _ => preorder body
  | .mixinDefinition _ _ body _ => preorder body
  | .tag _ _ _ children _ _ => preorder children
  | .text .. | .comment .. | .doctype .. | .mixinCall .. | .mixinBlock .. | .interpolatedTag ..
  | .includeFile .. | .rawInclude .. | .extendsFile .. | .filter .. => []

/-- The nodes of a list and those below them. -/
def preorder : List Node → List Node
  | [] => []
  | node :: rest => node :: (node.descendants ++ preorder rest)

/-- The nodes in the branches of a `case`. -/
def preorderOfBranches : List Branch → List Node
  | [] => []
  | .bare .. :: rest => preorderOfBranches rest
  | .block _ nodes _ :: rest => preorder nodes ++ preorderOfBranches rest

/-- The nodes in the further branches of a conditional. -/
def preorderOfAlternates : List Alternate → List Node
  | [] => []
  | .orElse nodes _ :: _ => preorder nodes
  | .orIf _ nodes _ :: rest => preorder nodes ++ preorderOfAlternates rest

end

/-- A node at its place in a document. -/
structure Occurrence where
  node : Node
  /-- The node stands directly in the document. -/
  direct : Bool

/-- An occurrence below the top level. -/
def Node.inside (node : Node) : Occurrence := ⟨node, false⟩

/-- The occurrences in a list of nodes; `direct` if the list is that of the document. -/
def occurrences (direct : Bool) (nodes : List Node) : List Occurrence :=
  nodes.flatMap fun node => ⟨node, direct⟩ :: node.descendants.map Node.inside

/-- The occurrences in a document. -/
def Document.occurrences (d : Document) : List Occurrence := Template.occurrences true d.nodes

@[simp]
theorem occurrences_nil (direct : Bool) : occurrences direct [] = [] := rfl

@[simp]
theorem occurrences_cons (direct : Bool) (node : Node) (rest : List Node) :
    occurrences direct (node :: rest) =
      (⟨node, direct⟩ :: node.descendants.map Node.inside) ++ occurrences direct rest :=
  List.flatMap_cons

/-- Below the top level the occurrences are the nodes. -/
theorem occurrences_false (nodes : List Node) :
    occurrences false nodes = (preorder nodes).map Node.inside := by
  induction nodes with
  | nil => rfl
  | cons node rest ih =>
    rw [occurrences_cons, ih, preorder, List.map_cons, List.map_append]
    rfl

/-- The nodes that occur are those of the list and those below them. -/
theorem map_node_occurrences (direct : Bool) (nodes : List Node) :
    (occurrences direct nodes).map Occurrence.node = preorder nodes := by
  induction nodes with
  | nil => rfl
  | cons node rest ih =>
    have hinside : Occurrence.node ∘ Node.inside = id := rfl
    rw [occurrences_cons, List.map_append, ih, List.map_cons, List.map_map, hinside, List.map_id]
    rfl

/-- What occurs directly in a document is a node of the document. -/
theorem direct_mem_occurrences {nodes : List Node} {node : Node} :
    ⟨node, true⟩ ∈ occurrences true nodes ↔ node ∈ nodes := by
  simp [occurrences, Node.inside]

end PugComponents.Template
