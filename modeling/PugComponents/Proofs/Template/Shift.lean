import PugComponents.Template.Document

/- Shifted trees. Moving a template to another offset moves every span of its
   tree and of its faults by the same number of bytes and changes nothing else.
   The functions that build trees from parts commute with the shift, and so do
   the readers of attribute lists and of text with interpolations, which see
   their own text and an offset only. -/
namespace PugComponents.Template

open Text

variable (d : Nat)

/-! ## Spans, attributes, faults and nodes -/

def Span.shift (s : Span) : Span := ⟨s.start + d, s.stop + d⟩

def Attribute.shift (a : Attribute) : Attribute := { a with span := a.span.shift d }

def Spread.shift (s : Spread) : Spread := { s with span := s.span.shift d }

def Fault.shift (f : Fault) : Fault := { f with span := f.span.shift d }

mutual

/-- The node with every span in it moved by `d` bytes. -/
def Node.shift : Node → Node
  | .text value s => .text value (s.shift d)
  | .code value kind block s => .code value kind (shiftNodes block) (s.shift d)
  | .group nodes s => .group (shiftNodes nodes) (s.shift d)
  | .namedBlock name mode nodes s => .namedBlock name mode (shiftNodes nodes) (s.shift d)
  | .comment value buffer s => .comment value buffer (s.shift d)
  | .doctype value s => .doctype value (s.shift d)
  | .caseOf subject branches s => .caseOf subject (shiftBranches branches) (s.shift d)
  | .conditional test consequent alternates s =>
    .conditional test (shiftNodes consequent) (shiftAlternates alternates) (s.shift d)
  | .each collection item key body s => .each collection item key (shiftNodes body) (s.shift d)
  | .whileLoop test body s => .whileLoop test (shiftNodes body) (s.shift d)
  | .mixinDefinition name arguments body s =>
    .mixinDefinition name arguments (shiftNodes body) (s.shift d)
  | .mixinCall name arguments attributes spreads block s =>
    .mixinCall name arguments (attributes.map (Attribute.shift d)) (spreads.map (Spread.shift d))
      (shiftNodes block) (s.shift d)
  | .mixinBlock s => .mixinBlock (s.shift d)
  | .tag name attributes spreads children selfClosing s =>
    .tag name (attributes.map (Attribute.shift d)) (spreads.map (Spread.shift d))
      (shiftNodes children) selfClosing (s.shift d)
  | .interpolatedTag expression s => .interpolatedTag expression (s.shift d)
  | .includeFile file column s => .includeFile file column (s.shift d)
  | .rawInclude file s => .rawInclude file (s.shift d)
  | .extendsFile file s => .extendsFile file (s.shift d)
  | .filter name body s => .filter name body (s.shift d)

/-- The branch with every span in it moved. -/
def Branch.shift : Branch → Branch
  | .bare test s => .bare test (s.shift d)
  | .block test nodes s => .block test (shiftNodes nodes) (s.shift d)

/-- The alternate with every span in it moved. -/
def Alternate.shift : Alternate → Alternate
  | .orElse nodes s => .orElse (shiftNodes nodes) (s.shift d)
  | .orIf test nodes s => .orIf test (shiftNodes nodes) (s.shift d)

def shiftNodes : List Node → List Node
  | [] => []
  | node :: nodes => node.shift :: shiftNodes nodes

def shiftBranches : List Branch → List Branch
  | [] => []
  | branch :: branches => branch.shift :: shiftBranches branches

def shiftAlternates : List Alternate → List Alternate
  | [] => []
  | branch :: branches => branch.shift :: shiftAlternates branches

end

@[simp] theorem shiftNodes_eq_map (nodes : List Node) : shiftNodes d nodes = nodes.map (Node.shift d) := by
  induction nodes with
  | nil => rfl
  | cons node nodes ih => rw [shiftNodes, ih, List.map_cons]

@[simp] theorem shiftBranches_eq_map (branches : List Branch) :
    shiftBranches d branches = branches.map (Branch.shift d) := by
  induction branches with
  | nil => rfl
  | cons branch branches ih => rw [shiftBranches, ih, List.map_cons]

@[simp] theorem shiftAlternates_eq_map (branches : List Alternate) :
    shiftAlternates d branches = branches.map (Alternate.shift d) := by
  induction branches with
  | nil => rfl
  | cons branch branches ih => rw [shiftAlternates, ih, List.map_cons]

@[simp] theorem Span.between_shift (start stop : Nat) :
    Span.between (start + d) (stop + d) = (Span.between start stop).shift d := by
  simp only [Span.between, Span.shift, Nat.add_max_add_right]

@[simp] theorem Span.shift_stop (s : Span) : (s.shift d).stop = s.stop + d := rfl

theorem Span.shift_zero (s : Span) : s.shift 0 = s := rfl

theorem map_attributeShift_zero (attributes : List Attribute) :
    attributes.map (Attribute.shift 0) = attributes := List.map_id _

theorem map_spreadShift_zero (spreads : List Spread) : spreads.map (Spread.shift 0) = spreads :=
  List.map_id _

theorem map_faultShift_zero (faults : List Fault) : faults.map (Fault.shift 0) = faults :=
  List.map_id _

mutual

theorem Node.shift_zero : (node : Node) → node.shift 0 = node
  | .text .. | .comment .. | .doctype .. | .mixinBlock .. | .interpolatedTag .. | .includeFile ..
  | .rawInclude .. | .extendsFile .. | .filter .. => rfl
  | .code _ _ nodes _ | .group nodes _ | .namedBlock _ _ nodes _ | .each _ _ _ nodes _
  | .whileLoop _ nodes _ | .mixinDefinition _ _ nodes _ => by
    rw [Node.shift, shiftNodes_zero nodes, Span.shift_zero]
  | .caseOf _ branches _ => by rw [Node.shift, shiftBranches_zero branches, Span.shift_zero]
  | .conditional _ consequent alternates _ => by
    rw [Node.shift, shiftNodes_zero consequent, shiftAlternates_zero alternates, Span.shift_zero]
  | .mixinCall _ _ _ _ nodes _ | .tag _ _ _ nodes _ _ => by
    rw [Node.shift, shiftNodes_zero nodes, map_attributeShift_zero, map_spreadShift_zero, Span.shift_zero]

theorem Branch.shift_zero : (branch : Branch) → branch.shift 0 = branch
  | .bare .. => rfl
  | .block _ nodes _ => by rw [Branch.shift, shiftNodes_zero nodes, Span.shift_zero]

theorem Alternate.shift_zero : (branch : Alternate) → branch.shift 0 = branch
  | .orElse nodes _ | .orIf _ nodes _ => by rw [Alternate.shift, shiftNodes_zero nodes, Span.shift_zero]

theorem shiftNodes_zero : (nodes : List Node) → shiftNodes 0 nodes = nodes
  | [] => rfl
  | node :: nodes => by rw [shiftNodes, node.shift_zero, shiftNodes_zero nodes]

theorem shiftBranches_zero : (branches : List Branch) → shiftBranches 0 branches = branches
  | [] => rfl
  | branch :: branches => by rw [shiftBranches, branch.shift_zero, shiftBranches_zero branches]

theorem shiftAlternates_zero : (branches : List Alternate) → shiftAlternates 0 branches = branches
  | [] => rfl
  | branch :: branches => by rw [shiftAlternates, branch.shift_zero, shiftAlternates_zero branches]

end

variable {d} in
theorem Span.shift_shift (s : Span) (e : Nat) : (s.shift d).shift e = s.shift (d + e) := by
  simp only [Span.shift, Nat.add_assoc]

variable {d} in
theorem map_attributeShift_shift (attributes : List Attribute) (e : Nat) :
    (attributes.map (Attribute.shift d)).map (Attribute.shift e) =
      attributes.map (Attribute.shift (d + e)) := by
  rw [List.map_map]
  exact List.map_congr_left fun a _ => by simp only [Function.comp, Attribute.shift, Span.shift_shift]

variable {d} in
theorem map_spreadShift_shift (spreads : List Spread) (e : Nat) :
    (spreads.map (Spread.shift d)).map (Spread.shift e) = spreads.map (Spread.shift (d + e)) := by
  rw [List.map_map]
  exact List.map_congr_left fun s _ => by simp only [Function.comp, Spread.shift, Span.shift_shift]

mutual

/-- Two moves are one. -/
theorem Node.shift_shift (d e : Nat) : (node : Node) → (node.shift d).shift e = node.shift (d + e)
  | .text .. | .comment .. | .doctype .. | .mixinBlock .. | .interpolatedTag .. | .includeFile ..
  | .rawInclude .. | .extendsFile .. | .filter .. => by simp only [Node.shift, Span.shift_shift]
  | .code _ _ nodes _ | .group nodes _ | .namedBlock _ _ nodes _ | .each _ _ _ nodes _
  | .whileLoop _ nodes _ | .mixinDefinition _ _ nodes _ | .mixinCall _ _ _ _ nodes _
  | .tag _ _ _ nodes _ _ => by
    simp only [Node.shift, shiftNodes_shift d e nodes, map_attributeShift_shift, map_spreadShift_shift,
      Span.shift_shift]
  | .caseOf _ branches _ => by simp only [Node.shift, shiftBranches_shift d e branches, Span.shift_shift]
  | .conditional _ consequent alternates _ => by
    simp only [Node.shift, shiftNodes_shift d e consequent, shiftAlternates_shift d e alternates,
      Span.shift_shift]

theorem Branch.shift_shift (d e : Nat) : (branch : Branch) → (branch.shift d).shift e = branch.shift (d + e)
  | .bare .. => by simp only [Branch.shift, Span.shift_shift]
  | .block _ nodes _ => by simp only [Branch.shift, shiftNodes_shift d e nodes, Span.shift_shift]

theorem Alternate.shift_shift (d e : Nat) : (branch : Alternate) →
    (branch.shift d).shift e = branch.shift (d + e)
  | .orElse nodes _ | .orIf _ nodes _ => by
    simp only [Alternate.shift, shiftNodes_shift d e nodes, Span.shift_shift]

theorem shiftNodes_shift (d e : Nat) : (nodes : List Node) →
    shiftNodes e (shiftNodes d nodes) = shiftNodes (d + e) nodes
  | [] => rfl
  | node :: nodes => by simp only [shiftNodes, node.shift_shift d e, shiftNodes_shift d e nodes]

theorem shiftBranches_shift (d e : Nat) : (branches : List Branch) →
    shiftBranches e (shiftBranches d branches) = shiftBranches (d + e) branches
  | [] => rfl
  | branch :: branches => by
    simp only [shiftBranches, branch.shift_shift d e, shiftBranches_shift d e branches]

theorem shiftAlternates_shift (d e : Nat) : (branches : List Alternate) →
    shiftAlternates e (shiftAlternates d branches) = shiftAlternates (d + e) branches
  | [] => rfl
  | branch :: branches => by
    simp only [shiftAlternates, branch.shift_shift d e, shiftAlternates_shift d e branches]

end

/-! ## Building trees -/

@[simp] theorem Node.kind_shift (node : Node) : (node.shift d).kind = node.kind := by
  cases node <;> rfl

@[simp] theorem Node.addChildren_shift (nodes : List Node) (node : Node) :
    (node.shift d).addChildren (nodes.map (Node.shift d)) = (node.addChildren nodes).shift d := by
  cases node <;> simp [Node.addChildren, Node.shift]

@[simp] theorem Node.addRaw_shift (raw : String) (node : Node) :
    (node.shift d).addRaw raw = (node.addRaw raw).shift d := by
  cases node <;> simp [Node.addRaw, Node.shift]

@[simp] theorem Node.addBranches_shift (branches : List Branch) (node : Node) :
    (node.shift d).addBranches (branches.map (Branch.shift d)) = (node.addBranches branches).shift d := by
  cases node <;> simp [Node.addBranches, Node.shift]

@[simp] theorem nestIn_shift (hosts : List Node) (node : Node) :
    nestIn (hosts.map (Node.shift d)) (node.shift d) = (nestIn hosts node).shift d := by
  induction hosts with
  | nil => rfl
  | cons host hosts ih =>
    simp only [nestIn, List.map_cons, List.foldr_cons] at ih ⊢
    rw [ih, ← Node.addChildren_shift, List.map_singleton]

@[simp] theorem Branch.ofBlock_shift (test : Option String) (s : Span) (block : Option (List Node)) :
    Branch.ofBlock test (s.shift d) (block.map (·.map (Node.shift d))) =
      (Branch.ofBlock test s block).shift d := by
  cases block <;> simp [Branch.ofBlock, Branch.shift]

@[simp] theorem Alternate.ofTest_shift (test : Option String) (nodes : List Node) (s : Span) :
    Alternate.ofTest test (nodes.map (Node.shift d)) (s.shift d) =
      (Alternate.ofTest test nodes s).shift d := by
  cases test <;> simp [Alternate.ofTest, Alternate.shift]

/-! ## Text and attribute lists -/

theorem textNode_shift (value : List Char) (start stop : Nat) :
    textNode value (start + d) (stop + d) = (textNode value start stop).map (Node.shift d) := by
  unfold textNode
  split
  · rfl
  · rw [Span.between_shift]
    rfl

/-- Nodes with the faults found in them, moved. -/
def shiftBoth {α : Type} (f : α → α) (r : List α × List Fault) : List α × List Fault :=
  (r.1.map f, r.2.map (Fault.shift d))

theorem pieces_shift (n start : Nat) (cs : List Char) :
    pieces n (start + d) cs = shiftBoth d (Node.shift d) (pieces n start cs) := by
  induction n generalizing start cs with
  | zero => rfl
  | succ n ih =>
    have hright : ∀ k, start + d + k = start + k + d := fun k => Nat.add_right_comm start d k
    simp only [pieces, hright]
    cases hrest : (literal cs).rest with
    | nil =>
      simp only [textNode_shift]
      rfl
    | cons sign braced =>
      simp only
      cases hgroup : group? braced with
      | none =>
        simp only [Nat.add_right_comm _ d, textNode_shift, Span.between_shift]
        rfl
      | some pair =>
        obtain ⟨inner, rest⟩ := pair
        simp only [Nat.add_right_comm _ d, textNode_shift, Span.between_shift, ih]
        simp [shiftBoth, Node.shift]

theorem interpolated_shift (text : List Char) (start : Nat) :
    interpolated text (start + d) = shiftBoth d (Node.shift d) (interpolated text start) := by
  unfold interpolated
  rw [pieces_shift]
  rcases pieces (text.length + 1) start text with ⟨_ | ⟨node, nodes⟩, faults⟩
  · rfl
  · rfl

def Place.shift (p : Place) : Place := ⟨p.offset + d, p.text⟩

@[simp] theorem Place.shift_offset (p : Place) : (p.shift d).offset = p.offset + d := rfl

@[simp] theorem Place.shift_text (p : Place) : (p.shift d).text = p.text := rfl

@[simp] theorem Place.shift_skip (p : Place) (front : List Char) :
    (p.shift d).skip front = (p.skip front).shift d := by
  simp only [Place.skip, Place.shift, Nat.add_right_comm _ d]

@[simp] theorem Place.shift_skipWhile (p : Place) (f : Char → Bool) :
    (p.shift d).skipWhile f = (p.skipWhile f).shift d :=
  Place.shift_skip d p _

@[simp] theorem Place.shift_stop (p : Place) : (p.shift d).stop = p.stop + d :=
  Nat.add_right_comm _ _ _

theorem attributeName_shift (first : Char) (p : Place) :
    attributeName first (p.shift d) =
      match attributeName first p with
      | .name text after => .name text (after.shift d)
      | .unclosed quote => .unclosed quote := by
  unfold attributeName
  simp only [Place.shift_skip, Place.shift_text]
  split
  · split <;> rfl
  · rfl

theorem valueSign_shift (p : Place) :
    valueSign (p.shift d) =
      match valueSign p with
      | .absent => .absent
      | .present escaped after => .present escaped (after.shift d)
      | .loneMark mark => .loneMark (mark.shift d) := by
  unfold valueSign
  simp only [Place.shift_skipWhile, Place.shift_skip, Place.shift_text]
  split <;> simp_all

theorem attributesFrom_shift (n : Nat) (before : Place) :
    attributesFrom n (before.shift d) = shiftBoth d (Attribute.shift d) (attributesFrom n before) := by
  induction n generalizing before with
  | zero => rfl
  | succ n ih =>
    simp only [attributesFrom, Place.shift_skipWhile, Place.shift_text]
    generalize before.skipWhile isAttributeGap = p
    cases p.text with
    | nil => rfl
    | cons first rest =>
      simp only [attributeName_shift]
      cases attributeName first p with
      | unclosed quote =>
        simp only [Place.shift_offset, Place.shift_stop, Span.between_shift]
        rfl
      | name name after =>
        cases name with
        | nil =>
          -- The place after the character that cannot start a name.
          have hnext := ih ⟨after.offset + first.utf8Size, after.text.tail⟩
          simp only [Place.shift] at hnext
          simp only [Place.shift_offset, Place.shift_text, Nat.add_right_comm _ d, hnext,
            Span.between_shift]
          rfl
        | cons c name =>
          simp only [valueSign_shift]
          cases valueSign after with
          | absent =>
            simp only [ih, Place.shift_offset, Span.between_shift]
            rfl
          | loneMark mark =>
            simp only [ih, Place.shift_skip, Place.shift_offset, Nat.add_right_comm _ d,
              Span.between_shift]
            rfl
          | present escaped afterSign =>
            simp only [ih, Place.shift_skipWhile, Place.shift_skip, Place.shift_offset,
              Place.shift_text, Span.between_shift]
            split <;> rfl

theorem attributeList_shift (inner : List Char) (offset : Nat) :
    attributeList inner (offset + d) = shiftBoth d (Attribute.shift d) (attributeList inner offset) :=
  attributesFrom_shift d (inner.length + 1) ⟨offset, inner⟩

def TagPart.shift : TagPart → TagPart
  | .className name s => .className name (s.shift d)
  | .attribute a => .attribute (a.shift d)

@[simp] theorem classNames_shift (parts : List TagPart) :
    classNames (parts.map (TagPart.shift d)) = classNames parts := by
  unfold classNames
  rw [List.filterMap_map]
  congr 1
  funext part
  cases part <;> rfl

@[simp] theorem plainAttributes_shift (parts : List TagPart) :
    plainAttributes (parts.map (TagPart.shift d)) =
      (plainAttributes parts).map (Attribute.shift d) := by
  unfold plainAttributes
  rw [List.filterMap_map, List.map_filterMap]
  congr 1
  funext part
  cases part <;> rfl

@[simp] theorem tagAttributes_shift (classes : List String) (parts : List TagPart) :
    tagAttributes classes (parts.map (TagPart.shift d)) =
      (tagAttributes classes parts).map (Attribute.shift d) := by
  induction parts with
  | nil => rfl
  | cons part parts ih =>
    rcases part with ⟨name, s⟩ | a
    · simp [TagPart.shift, tagAttributes, Attribute.shift]
    · simp [TagPart.shift, tagAttributes, ih]

/-! ## Blocks from their entries -/

def Sibling.shift : Sibling → Sibling
  | .nodes list => .nodes (list.map (Node.shift d))
  | .alternate branch s => .alternate (branch.shift d) (s.shift d)

def BlockEntry.shift (e : BlockEntry) : BlockEntry :=
  ⟨e.faults.map (Fault.shift d), e.sibling.shift d⟩

theorem endsInElse_shift (alternates : List Alternate) :
    endsInElse (alternates.map (Alternate.shift d)) = endsInElse alternates := by
  unfold endsInElse
  rw [List.getLast?_map]
  cases alternates.getLast? with
  | none => rfl
  | some branch => cases branch <;> rfl

theorem attach_shift (branch : Alternate) (s : Span) (done : List Node) :
    attach (branch.shift d) (s.shift d) (done.map (Node.shift d)) =
      shiftBoth d (Node.shift d) (attach branch s done) := by
  cases done with
  | nil => rfl
  | cons node done =>
    cases node with
    | conditional test consequent alternates span =>
      simp only [List.map_cons, Node.shift, attach, shiftAlternates_eq_map, endsInElse_shift]
      split <;> simp [shiftBoth, Node.shift, Fault.shift]
    | each => rfl
    | _ => rfl

theorem assemble_shift (done : List Node) (entries : List BlockEntry) :
    assemble (done.map (Node.shift d)) (entries.map (BlockEntry.shift d)) =
      shiftBoth d (Node.shift d) (assemble done entries) := by
  induction entries generalizing done with
  | nil => simp [assemble, shiftBoth]
  | cons entry entries ih =>
    obtain ⟨faults, sibling⟩ := entry
    cases sibling with
    | nodes list =>
      have happend : (list.map (Node.shift d)).reverse ++ done.map (Node.shift d) =
          (list.reverse ++ done).map (Node.shift d) := by simp
      simp only [List.map_cons, BlockEntry.shift, Sibling.shift, assemble, happend, ih]
      simp [shiftBoth]
    | alternate branch s =>
      simp only [List.map_cons, BlockEntry.shift, Sibling.shift, assemble, attach_shift]
      simp only [shiftBoth, ih]
      simp

/-! ## Heads that stand on one line -/

def Pending.shift (p : Pending) : Pending :=
  ⟨p.hosts.map (Node.shift d), p.node.shift d, p.body⟩

namespace Head

def shift : Head → Head
  | .node pending => .node (pending.shift d)
  | .elseBranch test s => .elseBranch test (s.shift d)
  | .whenBranch keyword s => .whenBranch keyword (s.shift d)
  | .text nodes piped => .text (nodes.map (Node.shift d)) piped
  | .skip => .skip

/-- A head and the faults on its line, moved. -/
def shiftResult (r : Result) : Result := (r.1.shift d, r.2.map (Fault.shift d))

end Head

end PugComponents.Template
