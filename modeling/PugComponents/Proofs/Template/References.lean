import Mathlib.Logic.Basic
import PugComponents.Proofs.Template.Spans

/- The references of a tree to other files: its includes and the layouts it extends, at
   any depth, each node before the nodes below it. In the tree of a source this is the
   order of the source (`references_ordered`). A tree can be given other references and
   stays the same in everything else (`mapFiles`), so that trees which differ in what
   their references were resolved to are the same without it (`unresolved_mapFiles`). -/
namespace PugComponents.Template

open Text

/-- A reference at its place in a tree. -/
structure Reference where
  file : FileReference
  /-- It leads to a template. -/
  template : Bool
  /-- The span of the node. -/
  span : Span

/-- The reference that a node makes. -/
def Node.reference? : Node → Option Reference
  | .includeFile file _ s => some ⟨file, true, s⟩
  | .extendsFile file s => some ⟨file, true, s⟩
  | .rawInclude file s => some ⟨file, false, s⟩
  | _ => none

def Part.reference? : Part → Option Reference
  | .node n => n.reference?
  | _ => none

/-- The references among the parts of a tree. -/
def references (parts : List Part) : List Reference := parts.filterMap Part.reference?

/-- The references of a document. -/
def Document.references (d : Document) : List Reference := Template.references (partsOf d.nodes)

theorem references_cons (part : Part) (parts : List Part) :
    references (part :: parts) = part.reference?.toList ++ references parts := by
  cases h : part.reference? with
  | none | some r => simp [references, h]

@[simp]
theorem references_append (parts parts' : List Part) :
    references (parts ++ parts') = references parts ++ references parts' :=
  List.filterMap_append

/-! ## Other references in a tree -/

section

variable (g : Bool → FileReference → FileReference)

mutual

/-- The node with other references; `g` is told whether one leads to a template. -/
def Node.mapFiles : Node → Node
  | .code value kind block s => .code value kind (mapFilesOf block) s
  | .group nodes s => .group (mapFilesOf nodes) s
  | .namedBlock name mode nodes s => .namedBlock name mode (mapFilesOf nodes) s
  | .caseOf subject branches s => .caseOf subject (mapFilesOfBranches branches) s
  | .conditional test consequent alternates s =>
    .conditional test (mapFilesOf consequent) (mapFilesOfAlternates alternates) s
  | .each collection item key body s => .each collection item key (mapFilesOf body) s
  | .whileLoop test body s => .whileLoop test (mapFilesOf body) s
  | .mixinDefinition name arguments body s => .mixinDefinition name arguments (mapFilesOf body) s
  | .mixinCall name arguments attributes spreads block s =>
    .mixinCall name arguments attributes spreads (mapFilesOf block) s
  | .tag name attributes spreads children selfClosing s =>
    .tag name attributes spreads (mapFilesOf children) selfClosing s
  | .includeFile file column s => .includeFile (g true file) column s
  | .extendsFile file s => .extendsFile (g true file) s
  | .rawInclude file s => .rawInclude (g false file) s
  | .text value s => .text value s
  | .comment value buffer s => .comment value buffer s
  | .doctype value s => .doctype value s
  | .mixinBlock s => .mixinBlock s
  | .interpolatedTag expression s => .interpolatedTag expression s
  | .filter name body s => .filter name body s

def mapFilesOf : List Node → List Node
  | [] => []
  | node :: rest => node.mapFiles :: mapFilesOf rest

def mapFilesOfBranches : List Branch → List Branch
  | [] => []
  | .bare test s :: rest => .bare test s :: mapFilesOfBranches rest
  | .block test nodes s :: rest => .block test (mapFilesOf nodes) s :: mapFilesOfBranches rest

def mapFilesOfAlternates : List Alternate → List Alternate
  | [] => []
  | .orElse nodes s :: rest => .orElse (mapFilesOf nodes) s :: mapFilesOfAlternates rest
  | .orIf test nodes s :: rest => .orIf test (mapFilesOf nodes) s :: mapFilesOfAlternates rest

end

/-- The document with other references. -/
def Document.mapFiles (d : Document) : Document := { d with nodes := mapFilesOf g d.nodes }

/-- The reference to another file from the same place. -/
def Reference.mapFile (r : Reference) : Reference := { r with file := g r.template r.file }

theorem Node.reference?_mapFiles (node : Node) :
    (node.mapFiles g).reference? = node.reference?.map (Reference.mapFile g) := by
  cases node <;> rfl

end

/-- The document before its references were resolved. -/
def Document.unresolved (d : Document) : Document := d.mapFiles fun _ file => ⟨file.path, none⟩

/-- After `h` it does not show whether `g` came before. -/
def Hides (h g : Bool → FileReference → FileReference) : Prop :=
  ∀ template file, h template (g template file) = h template file

variable {g h : Bool → FileReference → FileReference}

mutual

theorem Node.mapFiles_mapFiles (hg : Hides h g) : (node : Node) →
    (node.mapFiles g).mapFiles h = node.mapFiles h
  | .code _ _ nodes _ | .group nodes _ | .namedBlock _ _ nodes _ | .each _ _ _ nodes _
  | .whileLoop _ nodes _ | .mixinDefinition _ _ nodes _ | .mixinCall _ _ _ _ nodes _
  | .tag _ _ _ nodes _ _ => by simp only [Node.mapFiles, mapFilesOf_mapFilesOf hg nodes]
  | .caseOf _ branches _ => congrArg (Node.caseOf _ · _) (mapFilesOfBranches_twice hg branches)
  | .conditional _ consequent alternates _ =>
    congrArg₂ (Node.conditional _ · · _) (mapFilesOf_mapFilesOf hg consequent)
      (mapFilesOfAlternates_twice hg alternates)
  | .includeFile .. | .extendsFile .. | .rawInclude .. => by simp only [Node.mapFiles, hg _ _]
  | .text .. | .comment .. | .doctype .. | .mixinBlock .. | .interpolatedTag .. | .filter .. => rfl

theorem mapFilesOf_mapFilesOf (hg : Hides h g) : (nodes : List Node) →
    mapFilesOf h (mapFilesOf g nodes) = mapFilesOf h nodes
  | [] => rfl
  | node :: rest => congrArg₂ List.cons (node.mapFiles_mapFiles hg) (mapFilesOf_mapFilesOf hg rest)

theorem mapFilesOfBranches_twice (hg : Hides h g) : (branches : List Branch) →
    mapFilesOfBranches h (mapFilesOfBranches g branches) = mapFilesOfBranches h branches
  | [] => rfl
  | .bare _ _ :: rest => congrArg (List.cons _) (mapFilesOfBranches_twice hg rest)
  | .block _ nodes _ :: rest =>
    congrArg₂ (Branch.block _ · _ :: ·) (mapFilesOf_mapFilesOf hg nodes) (mapFilesOfBranches_twice hg rest)

theorem mapFilesOfAlternates_twice (hg : Hides h g) : (alternates : List Alternate) →
    mapFilesOfAlternates h (mapFilesOfAlternates g alternates) = mapFilesOfAlternates h alternates
  | [] => rfl
  | .orElse nodes _ :: rest | .orIf _ nodes _ :: rest => by
    simp only [mapFilesOfAlternates, mapFilesOf_mapFilesOf hg nodes, mapFilesOfAlternates_twice hg rest]

end

/-- A document is the same but for what its references were resolved to, if they are written the
same. -/
theorem unresolved_mapFiles (hpath : ∀ template file, (g template file).path = file.path) (d : Document) :
    (d.mapFiles g).unresolved = d.unresolved := by
  have hhides : Hides (fun _ file => ⟨file.path, none⟩) g := by
    intro template file
    simp only [hpath]
  simp only [Document.unresolved, Document.mapFiles, mapFilesOf_mapFilesOf hhides]

mutual

theorem Node.references_mapFiles : (node : Node) →
    references (node.mapFiles g).inner = (references node.inner).map (Reference.mapFile g)
  | .code _ _ nodes _ | .group nodes _ | .namedBlock _ _ nodes _ | .each _ _ _ nodes _
  | .whileLoop _ nodes _ | .mixinDefinition _ _ nodes _ | .mixinCall _ _ _ _ nodes _
  | .tag _ _ _ nodes _ _ => references_mapFilesOf nodes
  | .caseOf _ branches _ => references_mapFilesOfBranches branches
  | .conditional _ consequent alternates _ => by
    rw [Node.mapFiles, Node.inner, Node.inner, references_append, references_append, List.map_append,
      references_mapFilesOf consequent, references_mapFilesOfAlternates alternates]
  | .includeFile .. | .extendsFile .. | .rawInclude .. | .text .. | .comment .. | .doctype ..
  | .mixinBlock .. | .interpolatedTag .. | .filter .. => rfl

/-- The references of a tree after the change are the changed ones, in their order. -/
theorem references_mapFilesOf : (nodes : List Node) →
    references (partsOf (mapFilesOf g nodes)) = (references (partsOf nodes)).map (Reference.mapFile g)
  | [] => rfl
  | node :: rest => by
    have hown : (Part.node (node.mapFiles g)).reference?.toList =
        (Part.node node).reference?.toList.map (Reference.mapFile g) := by
      simp only [Part.reference?, node.reference?_mapFiles g, Option.toList_map]
    simp only [mapFilesOf, partsOf, references_cons, references_append, List.map_append, hown,
      node.references_mapFiles, references_mapFilesOf rest]

theorem references_mapFilesOfBranches : (branches : List Branch) →
    references (branchParts (mapFilesOfBranches g branches)) =
      (references (branchParts branches)).map (Reference.mapFile g)
  | [] => rfl
  | .bare _ _ :: rest => references_mapFilesOfBranches rest
  | .block _ nodes _ :: rest => by
    simp only [mapFilesOfBranches, branchParts, Branch.inner, references_cons, references_append,
      List.map_append, references_mapFilesOf nodes, references_mapFilesOfBranches rest]
    rfl

theorem references_mapFilesOfAlternates : (alternates : List Alternate) →
    references (alternateParts (mapFilesOfAlternates g alternates)) =
      (references (alternateParts alternates)).map (Reference.mapFile g)
  | [] => rfl
  | .orElse nodes _ :: rest | .orIf _ nodes _ :: rest => by
    simp only [mapFilesOfAlternates, alternateParts, Alternate.inner, references_cons, references_append,
      List.map_append, references_mapFilesOf nodes, references_mapFilesOfAlternates rest]
    rfl

end

theorem Document.references_mapFiles (d : Document) :
    (d.mapFiles g).references = d.references.map (Reference.mapFile g) :=
  references_mapFilesOf d.nodes

/-! ## The order of the source -/

section

variable {source : List Char}

/-- The text of a text block refers to nothing. -/
theorem references_interpolated (text : List Char) (start : Nat) :
    references (partsOf (interpolated text start).1) = [] := by
  refine List.filterMap_eq_nil_iff.mpr ?_
  intro part hpart
  obtain ⟨node, hnode, hin⟩ := mem_partsOf.mp hpart
  obtain ⟨written, hpiece, -⟩ := (interpolated_cut text start).nodes node hnode
  cases hpiece with
  | text | code =>
    rcases hin with rfl | hin
    · rfl
    · cases hin

theorem Item.Located.references_text {item : Item} (h : item.Located source) :
    references (partsOf item.text) = [] := by
  rcases h.text with htext | ⟨raw, start, -, htext⟩
  · rw [htext]
    rfl
  · rw [htext, references_interpolated]

/-- A node that refers to a file is an item of the same span. -/
theorem Node.reference?_span (node : Node) :
    (node.reference?.toList.map Reference.span).Sublist [(node.own source).span] := by
  cases node with
  | includeFile | extendsFile | rawInclude => exact List.Sublist.refl _
  | _ => exact List.nil_sublist _

mutual

theorem Node.references_sublist : (node : Node) →
    (∀ item ∈ node.own source :: node.itemsBelow source, references (partsOf item.text) = []) →
    ((references node.inner).map Reference.span).Sublist ((node.itemsBelow source).map Item.span)
  | .code _ _ nodes _, h | .group nodes _, h | .namedBlock _ _ nodes _, h | .each _ _ _ nodes _, h
  | .whileLoop _ nodes _, h | .mixinDefinition _ _ nodes _, h | .mixinCall _ _ _ _ nodes _, h =>
    references_sublist nodes (List.forall_mem_cons.mp h).2
  | .caseOf _ branches _, h => branchReferences_sublist branches (List.forall_mem_cons.mp h).2
  | .conditional _ consequent alternates _, h => by
    obtain ⟨hleft, hright⟩ := List.forall_mem_append.mp (List.forall_mem_cons.mp h).2
    rw [Node.inner, Node.itemsBelow, references_append, List.map_append, List.map_append]
    exact (references_sublist consequent hleft).append (alternateReferences_sublist alternates hright)
  | .tag _ _ _ children _ s, h => by
    obtain ⟨hown, hbelow⟩ := List.forall_mem_cons.mp h
    simp only [Node.inner, Node.itemsBelow, Node.own] at hown hbelow ⊢
    -- The text under a tag is no item, but there is nothing in it.
    split at hown
    · rw [hown]
      exact List.nil_sublist _
    · rename_i hopens
      rw [if_neg hopens] at hbelow ⊢
      exact references_sublist children hbelow
  | .includeFile .., _ | .extendsFile .., _ | .rawInclude .., _ | .text .., _ | .comment .., _
  | .doctype .., _ | .mixinBlock .., _ | .interpolatedTag .., _ | .filter .., _ => List.Sublist.slnil

theorem references_sublist : (nodes : List Node) →
    (∀ item ∈ itemsOf source nodes, references (partsOf item.text) = []) →
    ((references (partsOf nodes)).map Reference.span).Sublist ((itemsOf source nodes).map Item.span)
  | [], _ => List.Sublist.slnil
  | node :: rest, h => by
    have happend : ∀ item ∈ (node.own source :: node.itemsBelow source) ++ itemsOf source rest,
        references (partsOf item.text) = [] := h
    obtain ⟨hnode, hrest⟩ := List.forall_mem_append.mp happend
    rw [partsOf, itemsOf, references_cons, references_append, List.map_append, List.map_append,
      List.map_cons, List.map_append]
    exact node.reference?_span.append ((node.references_sublist hnode).append (references_sublist rest hrest))

theorem branchReferences_sublist : (branches : List Branch) →
    (∀ item ∈ branchItems source branches, references (partsOf item.text) = []) →
    ((references (branchParts branches)).map Reference.span).Sublist
      ((branchItems source branches).map Item.span)
  | [], _ => List.Sublist.slnil
  | .bare _ _ :: rest, h => (branchReferences_sublist rest (List.forall_mem_cons.mp h).2).cons _
  | .block _ nodes _ :: rest, h => by
    obtain ⟨hnodes, hrest⟩ := List.forall_mem_append.mp (List.forall_mem_cons.mp h).2
    rw [branchParts, branchItems, references_cons, references_append, List.map_append, List.map_append,
      List.map_cons, List.map_append]
    exact ((references_sublist nodes hnodes).append (branchReferences_sublist rest hrest)).cons _

theorem alternateReferences_sublist : (alternates : List Alternate) →
    (∀ item ∈ alternateItems source alternates, references (partsOf item.text) = []) →
    ((references (alternateParts alternates)).map Reference.span).Sublist
      ((alternateItems source alternates).map Item.span)
  | [], _ => List.Sublist.slnil
  | .orElse nodes _ :: rest, h | .orIf _ nodes _ :: rest, h => by
    obtain ⟨hnodes, hrest⟩ := List.forall_mem_append.mp (List.forall_mem_cons.mp h).2
    rw [alternateParts, alternateItems, references_cons, references_append, List.map_append,
      List.map_append, List.map_cons, List.map_append]
    exact ((references_sublist nodes hnodes).append (alternateReferences_sublist rest hrest)).cons _

end

end

/-- The references of a source come in its order. -/
theorem references_ordered (source : String) :
    (Document.parse source).1.references.Pairwise fun a b => a.span.start ≤ b.span.start := by
  obtain ⟨rest, hrun⟩ := parse_run source
  have hsublist := references_sublist (Document.parse source).1.nodes
    fun item hitem => (hrun.located item hitem).references_text
  have hspans : ((itemsOf source.toList (Document.parse source).1.nodes).map Item.span).Pairwise
      fun a b => a.start ≤ b.start := List.pairwise_map.mpr hrun.ordered
  have hreferences := hspans.sublist hsublist
  rwa [List.pairwise_map] at hreferences

end PugComponents.Template
