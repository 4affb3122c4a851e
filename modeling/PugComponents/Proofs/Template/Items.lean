import PugComponents.Proofs.Template.Lossless
import PugComponents.Proofs.Template.Pieces

/- The items of a tree: its nodes, the branches of a `case` and those of a
   conditional, each before what stands below it. The text under a tag that ends
   in a dot is not entered, since it is read without its indentation; the tag keeps
   it as one list of nodes. Closing a node with what stands under it puts the items
   below behind those that the node has (`items_addChildren`, `items_nestIn`), and
   a block has the items of its entries in their order (`items_assemble`). -/
namespace PugComponents.Template

open Text

/-! ## Tags that open a text block -/

/-- The name of the tag that a line starts with; a class or an id may stand without one. -/
def tagNameAt (content : List Char) : List Char :=
  match Marker.leading? content with
  | some (.tagName, length) => content.take length
  | _ => []

theorem tagNameAt_isPrefix (content : List Char) : tagNameAt content <+: content := by
  unfold tagNameAt
  split
  · exact List.take_prefix _ _
  · exact List.nil_prefix

/-- The head of the tag that starts where the span does. -/
def headAt (source : List Char) (s : Span) : TagHead :=
  let text := fromByte s.start source
  let start := (⟨s.start, text⟩ : Place).skip (tagNameAt (lineContent text))
  tagHead (start.text.length + 1) start []

/-- The tag that starts where the span does has a head that ends in a dot: the lines under it are
text. -/
def opensTextBlock (source : List Char) (s : Span) : Bool := (headAt source s).ending = .textBlock

/-- Where the heads of a line stand: at its start, behind the colon of a branch, and behind the colon
of a tag, which may be on a later line if the attributes of the tag are. -/
inductive HeadsAt (source : List Char) (line : Line) : Nat → Prop
  | first : HeadsAt source line line.start
  | branch {test : Option String} {rest : List Char} (h : branchHead line.text = .branch test rest)
      (hinline : inlineBranch rest ≠ []) :
      HeadsAt source line (line.fromEnd (inlineBranch rest)).start
  | colon {s : Span} {offset : Nat} (h : HeadsAt source line s.start)
      (hcolon : (headAt source s).place.ColonBefore offset) : HeadsAt source line offset

/-- No head of a line stands before it. -/
theorem HeadsAt.start_le {source : List Char} {line : Line} {offset : Nat}
    (h : HeadsAt source line offset) : line.start ≤ offset := by
  induction h with
  | first => exact Nat.le_refl _
  | branch => exact Nat.le_add_right _ _
  | @colon s _ _ hcolon ih =>
    have hhead : s.start ≤ (headAt source s).place.offset := by
      refine Nat.le_trans ?_ (Place.Reaches.tagHead _ _ []).offset_le
      exact Nat.le_add_right _ _
    exact Nat.le_trans (Nat.le_trans ih hhead) hcolon.offset_le

/-- What the head says, without the lines that are left. -/
def TagHead.alone (head : TagHead) : TagHead := { head with lines := [] }

theorem TagHead.ending_alone (head : TagHead) : head.alone.ending = head.ending := rfl

/-- What a group says does not depend on the lines after it. -/
theorem attributeGroup?_lines (p : Place) (lines lines' : List Line) :
    (attributeGroup? p lines).map ({ · with lines := [] }) =
      (attributeGroup? p lines').map ({ · with lines := [] }) := by
  unfold attributeGroup? parenthesised?
  split
  · cases closing? p.text 0 <;> rfl
  · split
    · simp only
      cases closing? (p.skip spreadLead).text 0 <;> rfl
    · rfl

/-- Nor does what the head of a tag says. -/
theorem tagHead_lines (n : Nat) (p : Place) (lines lines' : List Line) :
    (tagHead n p lines).alone = (tagHead n p lines').alone := by
  induction n generalizing p lines lines' with
  | zero => rfl
  | succ n ih =>
    unfold tagHead
    split
    · split
      · split <;> rfl
      · exact congrArg (TagHead.consPart _) (ih _ _ _)
    · split
      · rfl
      · exact congrArg (TagHead.consPart _) (ih _ _ _)
    · rfl
    · have hgroup := attributeGroup?_lines p lines lines'
      cases hg : attributeGroup? p lines with
      | none =>
        rw [hg, Option.map_none, eq_comm, Option.map_eq_none_iff] at hgroup
        rw [hgroup]
        rfl
      | some g =>
        rw [hg, Option.map_some, eq_comm, Option.map_eq_some_iff] at hgroup
        obtain ⟨g', hg', heq⟩ := hgroup
        rw [hg']
        obtain ⟨attributes, spreads, faults, place, left, closed⟩ := g
        obtain ⟨attributes', spreads', faults', place', left', closed'⟩ := g'
        cases heq
        cases closed with
        | false => rfl
        | true =>
          exact congrArg (fun more : TagHead => { more with
            parts := attributes.map TagPart.attribute ++ more.parts
            spreads := spreads ++ more.spreads
            faults := faults ++ more.faults }) (ih place left left')

variable {s : Span}

section

variable {source : List Char} {line : Line}

/-- The head of a tag, as it is read on its line, is the one at its span. -/
theorem headAt_eq (h : line.Placed source) (hs : s.start = line.start) (lines : List Line) :
    (headAt source s).alone =
      (tagHead ((line.afterName (tagNameAt line.text)).text.length + 1)
        (line.afterName (tagNameAt line.text)) lines).alone := by
  obtain ⟨before, hsource, hstart⟩ := h.place
  have htext : fromByte line.start source = line.onward := by
    rw [hstart, hsource, fromByte_append]
  simp only [headAt, hs, htext, ← h.content]
  exact tagHead_lines _ _ [] lines

/-- A tag opens a text block if its head, as it is read on its line, ends in a dot. -/
theorem opensTextBlock_eq (h : line.Placed source) (hs : s.start = line.start) (lines : List Line) :
    opensTextBlock source s =
      decide ((tagHead ((line.afterName (tagNameAt line.text)).text.length + 1)
        (line.afterName (tagNameAt line.text)) lines).ending = .textBlock) := by
  have hending := congrArg TagHead.ending (headAt_eq h hs lines)
  rw [TagHead.ending_alone, TagHead.ending_alone] at hending
  rw [opensTextBlock, hending]

end

/-! ## Items -/

/-- What a node, a branch or an alternate says of itself, without what stands below it. -/
structure Item where
  span : Span
  attributes : List Attribute
  spreads : List Spread
  /-- The script of a node that renders one. -/
  script : Option (CodeKind × String)
  /-- The nodes of a text block. -/
  text : List Node

/-- An item that says nothing else. -/
def Item.plain (s : Span) : Item := ⟨s, [], [], none, []⟩

/-- What a node says of itself. -/
def Node.own (source : List Char) : Node → Item
  | .code value kind _ s =>
    match kind with
    | .run => .plain s
    | _ => ⟨s, [], [], some (kind, value), []⟩
  | .mixinCall _ _ attributes spreads _ s => ⟨s, attributes, spreads, none, []⟩
  | .tag _ attributes spreads children _ s =>
    ⟨s, attributes, spreads, none, if opensTextBlock source s then children else []⟩
  | node => .plain node.span

mutual

/-- The items below a node. -/
def Node.itemsBelow (source : List Char) : Node → List Item
  | .code _ _ block _ => itemsOf source block
  | .group nodes _ => itemsOf source nodes
  | .namedBlock _ _ nodes _ => itemsOf source nodes
  | .caseOf _ branches _ => branchItems source branches
  | .conditional _ consequent alternates _ =>
    itemsOf source consequent ++ alternateItems source alternates
  | .each _ _ _ body _ => itemsOf source body
  | .whileLoop _ body _ => itemsOf source body
  | .mixinDefinition _ _ body _ => itemsOf source body
  | .mixinCall _ _ _ _ block _ => itemsOf source block
  | .tag _ _ _ children _ s => if opensTextBlock source s then [] else itemsOf source children
  | .text .. | .comment .. | .doctype .. | .mixinBlock .. | .interpolatedTag .. | .includeFile ..
  | .rawInclude .. | .extendsFile .. | .filter .. => []

/-- The items of a list of nodes. -/
def itemsOf (source : List Char) : List Node → List Item
  | [] => []
  | node :: rest => node.own source :: (node.itemsBelow source ++ itemsOf source rest)

/-- The items of the branches of a `case`. -/
def branchItems (source : List Char) : List Branch → List Item
  | [] => []
  | .bare _ s :: rest => .plain s :: branchItems source rest
  | .block _ nodes s :: rest => .plain s :: (itemsOf source nodes ++ branchItems source rest)

/-- The items of the further branches of a conditional. -/
def alternateItems (source : List Char) : List Alternate → List Item
  | [] => []
  | .orElse nodes s :: rest => .plain s :: (itemsOf source nodes ++ alternateItems source rest)
  | .orIf _ nodes s :: rest => .plain s :: (itemsOf source nodes ++ alternateItems source rest)

end

section

variable {source : List Char}

theorem itemsOf_append (a b : List Node) :
    itemsOf source (a ++ b) = itemsOf source a ++ itemsOf source b := by
  induction a with
  | nil => rfl
  | cons node a ih => simp [itemsOf, ih]

theorem itemsOf_singleton (node : Node) :
    itemsOf source [node] = node.own source :: node.itemsBelow source := by
  simp [itemsOf]

theorem branchItems_append (a b : List Branch) :
    branchItems source (a ++ b) = branchItems source a ++ branchItems source b := by
  induction a with
  | nil => simp [branchItems]
  | cons branch a ih => cases branch <;> simp [branchItems, ih]

theorem alternateItems_append (a b : List Alternate) :
    alternateItems source (a ++ b) = alternateItems source a ++ alternateItems source b := by
  induction a with
  | nil => simp [alternateItems]
  | cons alternate a ih => cases alternate <;> simp [alternateItems, ih]

theorem itemsOf_ofTest (test : Option String) (nodes : List Node) (s : Span) :
    alternateItems source [Alternate.ofTest test nodes s] = .plain s :: itemsOf source nodes := by
  cases test <;> simp [Alternate.ofTest, alternateItems]

theorem branchItems_ofBlock (test : Option String) (s : Span) (nodes : Option (List Node))
    (rest : List Branch) :
    branchItems source (Branch.ofBlock test s nodes :: rest) =
      .plain s :: (itemsOf source (nodes.getD []) ++ branchItems source rest) := by
  cases nodes <;> simp [Branch.ofBlock, branchItems, itemsOf]

/-! ## Nodes that are closed -/

/-- A tag before a colon: nothing stands in it yet, and it opens no text block. -/
def Node.IsHost (source : List Char) : Node → Prop
  | .tag _ _ _ children _ s => children = [] ∧ opensTextBlock source s = false
  | _ => False

/-- Nodes can be put behind what stands in the node: a conditional has no further branch yet, and a
tag opens no text block. -/
def Node.IsOpen (source : List Char) : Node → Prop
  | .conditional _ _ alternates _ => alternates = []
  | .tag _ _ _ _ _ s => opensTextBlock source s = false
  | .code .. | .group .. | .namedBlock .. | .each .. | .whileLoop .. | .mixinDefinition ..
  | .mixinCall .. => True
  | _ => False

/-- A script that raw text is added to is not rendered. -/
def Node.IsUnrendered : Node → Prop
  | .code _ kind _ _ => kind = .run
  | _ => True

theorem items_nestIn {hosts : List Node} (h : ∀ host ∈ hosts, host.IsHost source) (node : Node) :
    itemsOf source [nestIn hosts node] = itemsOf source (hosts ++ [node]) := by
  induction hosts with
  | nil => rfl
  | cons host hosts ih =>
    have hhost := h host List.mem_cons_self
    have hinner := ih fun other hother => h other (List.mem_cons_of_mem host hother)
    have hcons : itemsOf source (host :: hosts ++ [node]) =
        host.own source :: (host.itemsBelow source ++ itemsOf source [nestIn hosts node]) := by
      rw [hinner]
      rfl
    rw [hcons]
    show itemsOf source [host.addChildren [nestIn hosts node]] = _
    generalize nestIn hosts node = inner
    cases host with
    | tag name attributes spreads children selfClosing s =>
      obtain ⟨rfl, hplain⟩ := hhost
      simp [Node.addChildren, itemsOf, Node.own, Node.itemsBelow, hplain]
    | _ => exact hhost.elim

theorem items_addChildren {node : Node} (h : node.IsOpen source) (new : List Node) :
    itemsOf source [node.addChildren new] = itemsOf source [node] ++ itemsOf source new := by
  cases node with
  | conditional test consequent alternates s =>
    have hnone : alternates = [] := h
    subst hnone
    simp [Node.addChildren, itemsOf, Node.own, Node.itemsBelow, itemsOf_append, alternateItems, Node.span]
  | tag name attributes spreads children selfClosing s =>
    have hplain : opensTextBlock source s = false := h
    simp [Node.addChildren, itemsOf, Node.own, Node.itemsBelow, itemsOf_append, hplain]
  | code value kind block s =>
    cases kind <;>
      simp [Node.addChildren, itemsOf, Node.own, Node.itemsBelow, itemsOf_append]
  | group | namedBlock | each | whileLoop | mixinDefinition | mixinCall =>
    simp [Node.addChildren, itemsOf, Node.own, Node.itemsBelow, itemsOf_append, Node.span]
  | _ => exact h.elim

theorem items_addRaw {node : Node} (h : node.IsUnrendered) (raw : String) :
    itemsOf source [node.addRaw raw] = itemsOf source [node] := by
  cases node with
  | code value kind block s =>
    have hrun : kind = .run := h
    subst hrun
    rfl
  | _ => rfl

theorem items_addBranches (subject : String) (branches : List Branch) (s : Span) (new : List Branch) :
    itemsOf source [(Node.caseOf subject branches s).addBranches new] =
      itemsOf source [.caseOf subject branches s] ++ branchItems source new := by
  simp [Node.addBranches, itemsOf, Node.own, Node.itemsBelow, branchItems_append, Node.span]

/-! ## Blocks -/

/-- The items of an entry of a block. -/
def Sibling.items (source : List Char) : Sibling → List Item
  | .nodes list => itemsOf source list
  | .alternate branch _ => alternateItems source [branch]

/-- The fault says that a branch belongs to no conditional. -/
def Fault.IsOrphan (f : Fault) : Prop := f.cause = .orphanElse ∨ f.cause = .unsupportedEachElse

/-- A branch is added to the conditional before it, or dropped with a fault at the branch. -/
theorem attach_items (source : List Char) (branch : Alternate) (s : Span) (done : List Node) :
    itemsOf source (attach branch s done).1.reverse =
        itemsOf source done.reverse ++ alternateItems source [branch] ∨
      (attach branch s done).1 = done ∧ ∃ f ∈ (attach branch s done).2, f.span = s ∧ f.IsOrphan := by
  unfold attach
  split
  · split
    · exact .inr ⟨rfl, _, List.mem_singleton_self _, rfl, .inl rfl⟩
    · refine .inl ?_
      simp [itemsOf_append, itemsOf, Node.own, Node.itemsBelow, alternateItems_append, Node.span]
  · exact .inr ⟨rfl, _, List.mem_singleton_self _, rfl, .inr rfl⟩
  · exact .inr ⟨rfl, _, List.mem_singleton_self _, rfl, .inl rfl⟩

/-- The nodes of a block have the items of its entries, in their order. A branch that nothing
precedes is dropped. -/
theorem items_assemble (done : List Node) (entries : List BlockEntry) :
    (itemsOf source (assemble done entries).1).Sublist
      (itemsOf source done.reverse ++ entries.flatMap (·.sibling.items source)) := by
  induction entries generalizing done with
  | nil => simp [assemble]
  | cons entry rest ih =>
    obtain ⟨faults, sibling⟩ := entry
    cases sibling with
    | nodes list =>
      simpa [assemble, Sibling.items, itemsOf_append, List.flatMap_cons] using ih (list.reverse ++ done)
    | alternate branch s =>
      have hattach : (itemsOf source (attach branch s done).1.reverse).Sublist
          (itemsOf source done.reverse ++ alternateItems source [branch]) := by
        rcases attach_items source branch s done with heq | ⟨heq, -⟩
        · exact heq ▸ List.Sublist.refl _
        · rw [heq]
          exact List.sublist_append_left _ _
      rw [List.flatMap_cons, ← List.append_assoc]
      exact (ih _).trans (hattach.append_right _)

/-- The item is dropped with a branch at which there is a fault. -/
def Item.Dropped (source : List Char) (entries : List BlockEntry) (faults : List Fault) (item : Item) :
    Prop :=
  ∃ entry ∈ entries, ∃ branch s, entry.sibling = .alternate branch s ∧
    item ∈ alternateItems source [branch] ∧ ∃ f ∈ faults, f.span = s ∧ f.IsOrphan

theorem Item.Dropped.later {item : Item} {entries : List BlockEntry} {faults : List Fault}
    (h : item.Dropped source entries faults) (entry : BlockEntry) (more : List Fault) :
    item.Dropped source (entry :: entries) (more ++ faults) := by
  obtain ⟨other, hother, branch, s, hsibling, hitem, f, hf, horphan⟩ := h
  exact ⟨other, List.mem_cons_of_mem entry hother, branch, s, hsibling, hitem, f,
    List.mem_append_right more hf, horphan⟩

/-- An item of an entry is in the block, or dropped. -/
theorem mem_items_assemble {item : Item} (done : List Node) (entries : List BlockEntry)
    (h : item ∈ itemsOf source done.reverse ++ entries.flatMap (·.sibling.items source)) :
    item ∈ itemsOf source (assemble done entries).1 ∨
      item.Dropped source entries (assemble done entries).2 := by
  induction entries generalizing done with
  | nil => exact .inl (by simpa [assemble] using h)
  | cons entry rest ih =>
    obtain ⟨faults, sibling⟩ := entry
    rw [List.flatMap_cons, ← List.append_assoc] at h
    cases sibling with
    | nodes list =>
      have hlater := ih (list.reverse ++ done) (by simpa [itemsOf_append, Sibling.items] using h)
      exact hlater.imp id (·.later _ _)
    | alternate branch s =>
      have hattach : item ∈ itemsOf source (attach branch s done).1.reverse ++
            rest.flatMap (·.sibling.items source) ∨
          item ∈ alternateItems source [branch] ∧
            ∃ f ∈ (attach branch s done).2, f.span = s ∧ f.IsOrphan := by
        rcases attach_items source branch s done with heq | ⟨heq, horphan⟩
        · rw [heq]
          exact .inl h
        · rw [heq]
          rcases List.mem_append.mp h with hfront | hrest
          · exact (List.mem_append.mp hfront).imp (List.mem_append_left _) (⟨·, horphan⟩)
          · exact .inl (List.mem_append_right _ hrest)
      rcases hattach with hmem | ⟨hitem, f, hf, horphan⟩
      · exact (ih _ hmem).imp id (·.later _ _)
      · exact .inr ⟨_, List.mem_cons_self, branch, s, rfl, hitem, f,
          List.mem_append_left _ (List.mem_append_right _ hf), horphan⟩

theorem attach_faults {branch : Alternate} {done : List Node} {f : Fault}
    (h : f ∈ (attach branch s done).2) : f.span = s := by
  unfold attach at h
  split at h
  · split at h
    · rw [List.mem_singleton.mp h]
    · cases h
  · rw [List.mem_singleton.mp h]
  · rw [List.mem_singleton.mp h]

/-- A fault of a block is one of an entry, or lies at a further branch of a conditional. -/
theorem mem_assemble_faults {entries : List BlockEntry} {done : List Node} {f : Fault}
    (h : f ∈ (assemble done entries).2) :
    ∃ entry ∈ entries, f ∈ entry.faults ∨ ∃ branch, entry.sibling = .alternate branch f.span := by
  induction entries generalizing done with
  | nil => cases h
  | cons entry rest ih =>
    have later : ∀ {done : List Node}, f ∈ (assemble done rest).2 → ∃ entry' ∈ entry :: rest,
        f ∈ entry'.faults ∨ ∃ branch, entry'.sibling = .alternate branch f.span := by
      intro done h
      obtain ⟨other, hother, hf⟩ := ih h
      exact ⟨other, List.mem_cons_of_mem entry hother, hf⟩
    obtain ⟨faults, sibling⟩ := entry
    cases sibling with
    | nodes list =>
      rcases List.mem_append.mp h with hf | hf
      · exact ⟨_, List.mem_cons_self, .inl hf⟩
      · exact later hf
    | alternate branch s =>
      rcases List.mem_append.mp h with hf | hf
      · rcases List.mem_append.mp hf with hf | hf
        · exact ⟨_, List.mem_cons_self, .inl hf⟩
        · exact ⟨_, List.mem_cons_self, .inr ⟨branch, by rw [attach_faults hf]⟩⟩
      · exact later hf

end

end PugComponents.Template
