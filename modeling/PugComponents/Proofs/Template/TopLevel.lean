import PugComponents.Proofs.Template.NodeProperties

/- Groups without a name are part of the tree, but no line writes one: a head never
   says one, and what stands under a node is put into it. So no node of a document
   that was read is a group (`parse_ungrouped`), whether or not the source has
   faults. -/
namespace PugComponents.Template

/-- The node is no anonymous group. -/
def Node.Ungrouped : Node → Prop
  | .group .. => False
  | _ => True

theorem Node.Bare.ungrouped {node : Node} (h : node.Bare) : node.Ungrouped := by
  cases node with
  | group => exact h.elim
  | _ => trivial

/-- What is put into a node does not make it a group. -/
theorem Node.Ungrouped.lasting : Node.Lasting Node.Ungrouped where
  inline h := h.bare.ungrouped
  addChildren := by
    intro node new h
    cases node <;> exact h
  addRaw := by
    intro node raw h
    cases node <;> exact h
  addBranches := by
    intro node new h
    cases node <;> exact h
  attach _ h := h

/-- No node directly in a document that was read is a group. -/
theorem parse_ungrouped (source : String) :
    ∀ node ∈ (Document.parse source).1.nodes, node.Ungrouped := by
  have hall := parse_all Node.Ungrouped.lasting source (Head.read_all Node.Ungrouped.lasting
    (fun _ _ _ => trivial) (fun _ _ _ _ _ _ h => h.ungrouped) _)
  exact fun node hnode => (nodesHave_partsOf.mp hall node hnode).own

end PugComponents.Template
