import PugComponents.Template.Document

/- The parts of a tree: its nodes, the branches of its `case` nodes, and the
   further branches of its conditionals, at any depth. Reading only adds to a
   tree. What is put into a node becomes a part of it, and what was a part before
   stays one; only a conditional changes, since it takes in the branches that
   follow it (`Grows`, `assemble_grows`). -/
namespace PugComponents.Template

open Text

def Branch.span : Branch → Span
  | .bare _ s => s
  | .block _ _ s => s

def Alternate.span : Alternate → Span
  | .orElse _ s => s
  | .orIf _ _ s => s

/-- A part of a tree. -/
inductive Part
  | node (node : Node)
  | branch (branch : Branch)
  | alternate (branch : Alternate)

def Part.span : Part → Span
  | .node n => n.span
  | .branch b => b.span
  | .alternate b => b.span

mutual

/-- The parts of a node other than itself. -/
def Node.inner : Node → List Part
  | .code _ _ nodes _ => partsOf nodes
  | .group nodes _ => partsOf nodes
  | .namedBlock _ _ nodes _ => partsOf nodes
  | .caseOf _ branches _ => branchParts branches
  | .conditional _ nodes alternates _ => partsOf nodes ++ alternateParts alternates
  | .each _ _ _ nodes _ => partsOf nodes
  | .whileLoop _ nodes _ => partsOf nodes
  | .mixinDefinition _ _ nodes _ => partsOf nodes
  | .mixinCall _ _ _ _ nodes _ => partsOf nodes
  | .tag _ _ _ nodes _ _ => partsOf nodes
  | _ => []

def Branch.inner : Branch → List Part
  | .bare _ _ => []
  | .block _ nodes _ => partsOf nodes

def Alternate.inner : Alternate → List Part
  | .orElse nodes _ => partsOf nodes
  | .orIf _ nodes _ => partsOf nodes

/-- The parts of a list of nodes. -/
def partsOf : List Node → List Part
  | [] => []
  | node :: nodes => .node node :: (node.inner ++ partsOf nodes)

def branchParts : List Branch → List Part
  | [] => []
  | branch :: branches => .branch branch :: (branch.inner ++ branchParts branches)

def alternateParts : List Alternate → List Part
  | [] => []
  | branch :: branches => .alternate branch :: (branch.inner ++ alternateParts branches)

end

theorem mem_partsOf {part : Part} {nodes : List Node} :
    part ∈ partsOf nodes ↔ ∃ node ∈ nodes, part = .node node ∨ part ∈ node.inner := by
  induction nodes with
  | nil => simp [partsOf]
  | cons node nodes ih => simp [partsOf, ih, or_assoc]

theorem mem_alternateParts {part : Part} {branches : List Alternate} :
    part ∈ alternateParts branches ↔
      ∃ branch ∈ branches, part = .alternate branch ∨ part ∈ branch.inner := by
  induction branches with
  | nil => simp [alternateParts]
  | cons branch branches ih => simp [alternateParts, ih, or_assoc]

theorem partsOf_mono {a b : List Node} (h : a ⊆ b) : partsOf a ⊆ partsOf b := by
  intro part hpart
  obtain ⟨node, hnode, hin⟩ := mem_partsOf.mp hpart
  exact mem_partsOf.mpr ⟨node, h hnode, hin⟩

theorem mem_partsOf_self (node : Node) : .node node ∈ partsOf [node] := List.mem_cons_self

theorem inner_subset_partsOf (node : Node) : node.inner ⊆ partsOf [node] := by
  intro part hpart
  exact mem_partsOf.mpr ⟨node, List.mem_singleton_self node, .inr hpart⟩

/-! ## Nodes in nodes -/

/-- The nodes read under it become parts of the node. -/
def Node.holdsNodes : Node → Bool
  | .code .. | .namedBlock .. | .conditional .. | .each .. | .whileLoop .. | .mixinDefinition ..
  | .mixinCall .. | .tag .. => true
  | _ => false

theorem addChildren_span (new : List Node) (node : Node) : (node.addChildren new).span = node.span := by
  cases node <;> rfl

theorem addChildren_kind (new : List Node) (node : Node) : (node.addChildren new).kind = node.kind := by
  cases node <;> rfl

theorem partsOf_subset_addChildren {node : Node} (h : node.holdsNodes = true) (new : List Node) :
    partsOf new ⊆ (node.addChildren new).inner := by
  have hright : ∀ old : List Node, partsOf new ⊆ partsOf (old ++ new) :=
    fun old => partsOf_mono (List.subset_append_right old new)
  cases node with
  | conditional test consequent alternates s =>
    exact List.Subset.trans (hright consequent) (List.subset_append_left _ _)
  | code | namedBlock | each | whileLoop | mixinDefinition | mixinCall | tag => exact hright _
  | _ => cases h

theorem holdsNodes_of_tag {node : Node} (h : node.kind = "Tag") : node.holdsNodes = true := by
  cases node with
  | tag => rfl
  | _ => simp [Node.kind] at h

/-- A node in tags is a part of them with all its own parts. -/
theorem partsOf_subset_nestIn {hosts : List Node} (h : ∀ host ∈ hosts, host.kind = "Tag") (node : Node) :
    partsOf [node] ⊆ partsOf [nestIn hosts node] := by
  induction hosts with
  | nil => exact List.Subset.refl _
  | cons host hosts ih =>
    have hhost := holdsNodes_of_tag (h host List.mem_cons_self)
    have hinner := ih fun other hother => h other (List.mem_cons_of_mem host hother)
    exact List.Subset.trans hinner
      (List.Subset.trans (partsOf_subset_addChildren hhost _) (inner_subset_partsOf _))

/-- The tags that a node is put into are parts of the whole. -/
theorem exists_host_nestIn {hosts : List Node} (h : ∀ host ∈ hosts, host.kind = "Tag") (node : Node)
    {host : Node} (hmem : host ∈ hosts) :
    ∃ tag, .node tag ∈ partsOf [nestIn hosts node] ∧ tag.kind = "Tag" ∧ tag.span = host.span := by
  induction hosts with
  | nil => cases hmem
  | cons first hosts ih =>
    have hfirst := h first List.mem_cons_self
    rcases List.mem_cons.mp hmem with rfl | hmem
    · exact ⟨_, mem_partsOf_self _, (addChildren_kind _ _).trans hfirst, addChildren_span _ _⟩
    · obtain ⟨tag, htag, hkind, hspan⟩ :=
        ih (fun other hother => h other (List.mem_cons_of_mem first hother)) hmem
      have hinner := List.Subset.trans
        (partsOf_subset_addChildren (holdsNodes_of_tag hfirst) [nestIn hosts node]) (inner_subset_partsOf _)
      exact ⟨tag, hinner htag, hkind, hspan⟩

/-! ## Parts that stay -/

/-- The parts stay, but that a conditional may gain branches. -/
structure Grows (old new : List Part) : Prop where
  spans : ∀ part ∈ old, ∃ more ∈ new, more.span = part.span
  nodes : ∀ node, .node node ∈ old → node.kind ≠ "Conditional" → .node node ∈ new

namespace Grows

variable {a b c : List Part}

theorem of_subset (h : a ⊆ b) : Grows a b where
  spans := fun part hpart => ⟨part, h hpart, rfl⟩
  nodes := fun _ hnode _ => h hnode

theorem trans (h₁ : Grows a b) (h₂ : Grows b c) : Grows a c where
  spans := by
    intro part hpart
    obtain ⟨mid, hmid, hspan⟩ := h₁.spans part hpart
    obtain ⟨last, hlast, hspan'⟩ := h₂.spans mid hmid
    exact ⟨last, hlast, hspan'.trans hspan⟩
  nodes := fun node hnode hkind => h₂.nodes node (h₁.nodes node hnode hkind) hkind

theorem append (h₁ : Grows a c) (h₂ : Grows b c) : Grows (a ++ b) c where
  spans := by
    intro part hpart
    rcases List.mem_append.mp hpart with ha | hb
    · exact h₁.spans part ha
    · exact h₂.spans part hb
  nodes := by
    intro node hnode hkind
    rcases List.mem_append.mp hnode with ha | hb
    · exact h₁.nodes node ha hkind
    · exact h₂.nodes node hb hkind

end Grows

/-- A conditional takes in a further branch, and its other parts stay. -/
theorem conditional_grows (test : String) (consequent : List Node) (alternates : List Alternate)
    (s : Span) (branch : Alternate) (before : List Node) :
    Grows (partsOf (.conditional test consequent alternates s :: before) ++ .alternate branch :: branch.inner)
      (partsOf (.conditional test consequent (alternates ++ [branch]) s :: before)) := by
  have hbranch : ∀ part, part = .alternate branch ∨ part ∈ branch.inner →
      part ∈ alternateParts (alternates ++ [branch]) :=
    fun part hpart => mem_alternateParts.mpr ⟨branch, by simp, hpart⟩
  have hold : alternateParts alternates ⊆ alternateParts (alternates ++ [branch]) := by
    intro part hpart
    obtain ⟨other, hother, hin⟩ := mem_alternateParts.mp hpart
    exact mem_alternateParts.mpr ⟨other, List.mem_append_left _ hother, hin⟩
  have hparts : ∀ part, part ∈ partsOf (.conditional test consequent alternates s :: before) ++
        .alternate branch :: branch.inner → part = .node (.conditional test consequent alternates s) ∨
      part ∈ partsOf (.conditional test consequent (alternates ++ [branch]) s :: before) := by
    intro part hpart
    simp only [partsOf, Node.inner, List.mem_append, List.mem_cons] at hpart ⊢
    rcases hpart with (hself | (hnodes | halternates) | hbefore) | hnew
    · exact .inl hself
    · exact .inr (.inr (.inl (.inl hnodes)))
    · exact .inr (.inr (.inl (.inr (hold halternates))))
    · exact .inr (.inr (.inr hbefore))
    · exact .inr (.inr (.inl (.inr (hbranch part hnew))))
  refine ⟨?_, ?_⟩
  · intro part hpart
    rcases hparts part hpart with rfl | hmem
    · exact ⟨_, List.mem_cons_self, rfl⟩
    · exact ⟨part, hmem, rfl⟩
  · intro node hnode hkind
    rcases hparts _ hnode with heq | hmem
    · cases heq
      exact absurd rfl hkind
    · exact hmem

theorem attach_grows {branch : Alternate} {s : Span} {done : List Node}
    (h : (attach branch s done).2 = []) :
    Grows (partsOf done ++ .alternate branch :: branch.inner) (partsOf (attach branch s done).1) := by
  unfold attach at h ⊢
  split at h
  · split at h
    · cases h
    · rename_i hends
      rw [if_neg hends]
      exact conditional_grows _ _ _ _ _ _
  · cases h
  · cases h

/-- The parts that an entry brings to its block. -/
def BlockEntry.parts (entry : BlockEntry) : List Part :=
  match entry.sibling with
  | .nodes list => partsOf list
  | .alternate branch _ => .alternate branch :: branch.inner

/-- In a block without faults every entry keeps its parts. -/
theorem assemble_grows {done : List Node} {entries : List BlockEntry}
    (h : (assemble done entries).2 = []) :
    Grows (partsOf done ++ entries.flatMap BlockEntry.parts) (partsOf (assemble done entries).1) := by
  induction entries generalizing done with
  | nil =>
    rw [assemble, List.flatMap_nil, List.append_nil]
    exact .of_subset (partsOf_mono fun _ hnode => List.mem_reverse.mpr hnode)
  | cons entry entries ih =>
    obtain ⟨faults, sibling⟩ := entry
    rw [List.flatMap_cons, ← List.append_assoc]
    cases sibling with
    | nodes list =>
      rw [assemble] at h ⊢
      have hmore := ih (List.append_eq_nil_iff.mp h).2
      refine Grows.trans ?_ hmore
      refine .append (.of_subset ?_) (.of_subset (List.subset_append_right _ _))
      refine fun part hpart => List.mem_append_left _ ?_
      rcases List.mem_append.mp hpart with hdone | hlist
      · exact partsOf_mono (List.subset_append_right _ _) hdone
      · exact partsOf_mono (fun _ hnode => List.mem_append_left _ (List.mem_reverse.mpr hnode)) hlist
    | alternate branch s =>
      rw [assemble] at h ⊢
      obtain ⟨hattach, hmore⟩ := List.append_eq_nil_iff.mp h
      have hattached := attach_grows (List.append_eq_nil_iff.mp hattach).2
      refine Grows.trans ?_ (ih hmore)
      refine .append (hattached.trans (.of_subset (List.subset_append_left _ _)))
        (.of_subset (List.subset_append_right _ _))

end PugComponents.Template
