import PugComponents.Proofs.Template.Items
import PugComponents.Proofs.Template.KeywordHeads

/- Properties of the nodes of a document. Every node was said by the head of a line,
   or of what stands behind a colon of one; what is read under it goes into it and
   changes nothing else. So a property that says nothing of what stands in a node
   holds of all nodes of the tree, at any depth, if it holds of those that heads say
   (`parse_all`). Heads say tags, text with code in it, and nodes in which nothing
   stands yet (`Head.read_all`). -/
namespace PugComponents.Template

open Text

section

variable (P : Node → Prop)

/-- The property holds of all nodes among the parts. -/
def NodesHave (parts : List Part) : Prop := ∀ node, .node node ∈ parts → P node

/-- The property holds of the node and of all nodes in it. -/
structure Node.All (node : Node) : Prop where
  own : P node
  inner : NodesHave P node.inner

/-- The node is a piece of a text: characters, or code among them. -/
def Node.Inline : Node → Prop
  | .text .. => True
  | .code _ _ block _ => block = []
  | _ => False

/-- Text has the property, and a node that has it keeps it when something is put into it. -/
structure Node.Lasting : Prop where
  inline : ∀ {node : Node}, node.Inline → P node
  addChildren : ∀ {node : Node} (new : List Node), P node → P (node.addChildren new)
  addRaw : ∀ {node : Node} (raw : String), P node → P (node.addRaw raw)
  addBranches : ∀ {node : Node} (new : List Branch), P node → P (node.addBranches new)
  attach : ∀ {test : String} {consequent : List Node} {alternates : List Alternate} {s : Span}
    (branch : Alternate), P (.conditional test consequent alternates s) →
      P (.conditional test consequent (alternates ++ [branch]) s)

end

section

variable {P : Node → Prop}

theorem nodesHave_append {a b : List Part} : NodesHave P (a ++ b) ↔ NodesHave P a ∧ NodesHave P b := by
  constructor
  · intro h
    exact ⟨fun node hnode => h node (List.mem_append_left b hnode),
      fun node hnode => h node (List.mem_append_right a hnode)⟩
  · rintro ⟨ha, hb⟩ node hnode
    rcases List.mem_append.mp hnode with hnode | hnode
    · exact ha node hnode
    · exact hb node hnode

variable {nodes : List Node}

theorem nodesHave_partsOf : NodesHave P (partsOf nodes) ↔ ∀ node ∈ nodes, node.All P := by
  constructor
  · intro h node hnode
    refine ⟨h node (mem_partsOf.mpr ⟨node, hnode, .inl rfl⟩), ?_⟩
    intro other hother
    exact h other (mem_partsOf.mpr ⟨node, hnode, .inr hother⟩)
  · intro h other hother
    obtain ⟨node, hnode, heq | hin⟩ := mem_partsOf.mp hother
    · rw [Part.node.inj heq]
      exact (h node hnode).own
    · exact (h node hnode).inner other hin

theorem nodesHave_nil : NodesHave P (partsOf []) := nodesHave_partsOf.mpr (List.forall_mem_nil _)

theorem nodesHave_partsOf_append {a b : List Node} (ha : NodesHave P (partsOf a))
    (hb : NodesHave P (partsOf b)) : NodesHave P (partsOf (a ++ b)) := by
  rw [nodesHave_partsOf] at *
  exact List.forall_mem_append.mpr ⟨ha, hb⟩

theorem nodesHave_alternateParts {branches : List Alternate} :
    NodesHave P (alternateParts branches) ↔ ∀ branch ∈ branches, NodesHave P branch.inner := by
  constructor
  · intro h branch hbranch node hnode
    exact h node (mem_alternateParts.mpr ⟨branch, hbranch, .inr hnode⟩)
  · intro h node hnode
    obtain ⟨branch, hbranch, heq | hin⟩ := mem_alternateParts.mp hnode
    · cases heq
    · exact h branch hbranch node hin

theorem nodesHave_branchParts {branches : List Branch} :
    NodesHave P (branchParts branches) ↔ ∀ branch ∈ branches, NodesHave P branch.inner := by
  induction branches with
  | nil => simp [branchParts, NodesHave]
  | cons branch branches ih =>
    have hself : NodesHave P [.branch branch] := by
      intro node hnode
      cases List.mem_singleton.mp hnode
    rw [branchParts, ← List.singleton_append, nodesHave_append, nodesHave_append, ih,
      List.forall_mem_cons]
    exact and_iff_right hself

/-! ## Text -/

theorem Node.Inline.inner_eq {node : Node} (h : node.Inline) : node.inner = [] := by
  cases node with
  | text => rfl
  | code => rw [Node.inner, show _ = [] from h, partsOf]
  | _ => exact h.elim

theorem textNode_inline {value : List Char} {start stop : Nat} {node : Node}
    (h : node ∈ textNode value start stop) : node.Inline := by
  unfold textNode at h
  split at h
  · cases h
  · obtain rfl := List.mem_singleton.mp h
    trivial

theorem pieces_inline (n start : Nat) (cs : List Char) :
    ∀ node ∈ (pieces n start cs).1, node.Inline := by
  induction n generalizing start cs with
  | zero =>
    intro node h
    cases h
  | succ n ih =>
    intro node h
    simp only [pieces] at h
    split at h
    · exact textNode_inline h
    · split at h
      · exact textNode_inline h
      · rcases List.mem_append.mp h with h | h
        · exact textNode_inline h
        · cases h with
          | head => rfl
          | tail _ h => exact ih _ _ node h

theorem interpolated_inline (text : List Char) (start : Nat) :
    ∀ node ∈ (interpolated text start).1, node.Inline := by
  intro node h
  unfold interpolated at h
  split at h
  · obtain rfl := List.mem_singleton.mp h
    trivial
  · exact pieces_inline _ _ _ node h

/-- What follows the head of a tag on its line is text. -/
theorem tagTail_inline {line : Line} {selfClosing : Bool} {p : Place}
    (h : (Head.tagTail line selfClosing p).1 = .children nodes) : ∀ node ∈ nodes, node.Inline := by
  have hcode : ∀ {value kind s}, Head.Tail.children [.code value kind [] s] = .children nodes →
      ∀ node ∈ nodes, node.Inline := by
    rintro value kind s ⟨⟩
    exact List.forall_mem_singleton.mpr rfl
  have hinline : ∀ {content : List Char} {start : Nat} {tail : Head.Tail × List Fault},
      tail = (if content.isEmpty then (.children [], [])
        else (.children (interpolated content start).1, (interpolated content start).2)) →
      tail.1 = .children nodes → ∀ node ∈ nodes, node.Inline := by
    rintro content start tail rfl htail
    split at htail
    · cases htail
      exact List.forall_mem_nil _
    · cases htail
      exact interpolated_inline _ _
  have hwrong : Head.Tail.children [] = .children nodes → ∀ node ∈ nodes, node.Inline := by
    rintro ⟨⟩
    exact List.forall_mem_nil _
  unfold Head.tagTail at h
  simp only at h
  split at h
  · exact hwrong h
  · split at h
    · exact hwrong h
    · split at h
      · exact hwrong h
      · cases h
    · exact hcode h
    · exact hcode h
    · exact hinline rfl h
    · exact hinline rfl h
    · exact hwrong h

theorem nodesHave_of_inline (hP : Node.Lasting P) (h : ∀ node ∈ nodes, node.Inline) :
    NodesHave P (partsOf nodes) := by
  refine nodesHave_partsOf.mpr fun node hnode => ⟨hP.inline (h node hnode), ?_⟩
  rw [(h node hnode).inner_eq]
  intro other hother
  cases hother

/-! ## Nodes that are closed -/

variable (hP : Node.Lasting P)

include hP

namespace Node.All

variable {node : Node}

theorem addChildren (h : node.All P) {new : List Node} (hnew : NodesHave P (partsOf new)) :
    (node.addChildren new).All P := by
  refine ⟨hP.addChildren new h.own, ?_⟩
  cases node with
  | conditional test consequent alternates s =>
    obtain ⟨hconsequent, halternates⟩ := nodesHave_append.mp h.inner
    exact nodesHave_append.mpr ⟨nodesHave_partsOf_append hconsequent hnew, halternates⟩
  | tag | code | group | namedBlock | each | whileLoop | mixinDefinition | mixinCall =>
    exact nodesHave_partsOf_append h.inner hnew
  | _ => exact h.inner

theorem addRaw (h : node.All P) (raw : String) : (node.addRaw raw).All P := by
  refine ⟨hP.addRaw raw h.own, ?_⟩
  cases node <;> exact h.inner

theorem addBranches (h : node.All P) {new : List Branch} (hnew : NodesHave P (branchParts new)) :
    (node.addBranches new).All P := by
  refine ⟨hP.addBranches new h.own, ?_⟩
  cases node with
  | caseOf subject branches s =>
    refine nodesHave_branchParts.mpr (List.forall_mem_append.mpr ⟨?_, ?_⟩)
    · exact nodesHave_branchParts.mp h.inner
    · exact nodesHave_branchParts.mp hnew
  | _ => exact h.inner

theorem nestIn {hosts : List Node} (hhosts : ∀ host ∈ hosts, host.All P) (h : node.All P) :
    (Template.nestIn hosts node).All P := by
  induction hosts with
  | nil => exact h
  | cons host hosts ih =>
    obtain ⟨hhost, hrest⟩ := List.forall_mem_cons.mp hhosts
    exact hhost.addChildren hP (nodesHave_partsOf.mpr (List.forall_mem_singleton.mpr (ih hrest)))

end Node.All

/-- The property holds of all nodes that the head says. -/
def Head.All (P : Node → Prop) : Head → Prop
  | .node pending => pending.node.All P ∧ ∀ host ∈ pending.hosts, host.All P
  | .text nodes _ => NodesHave P (partsOf nodes)
  | .elseBranch .. | .whenBranch .. | .skip => True

variable {source : List Char} {line : Line} {lines after : List Line}

/-- The reader gives only nodes of which the property holds. -/
def BlockReader.All (P : Node → Prop) (source : List Char) (block : BlockReader) :
    Prop :=
  ∀ indent lines, lines <:+ Line.ofSource source → NodesHave P (partsOf (block indent lines).value)

/-- The reader of branches gives only nodes of which the property holds. -/
def BranchesAll (P : Node → Prop) (source : List Char)
    (branches : Nat → List Line → Reading (List Branch)) : Prop :=
  ∀ indent lines, lines <:+ Line.ofSource source →
    NodesHave P (branchParts (branches indent lines).value)

/-- On every line, and behind every colon of one, the reader says only nodes of which the property
holds. -/
def HeadReader.All (P : Node → Prop) (source : List Char) (head : HeadReader) :
    Prop :=
  ∀ line lines, line.Placed source → (head line lines).value.All P

theorem closeBody_all {block : BlockReader} (hblock : block.All P source) {node : Node}
    (h : node.All P) (body : Body) (indent : Nat) (hlines : lines <:+ Line.ofSource source) :
    (closeBody block node body indent lines).value.All P := by
  cases body with
  | nodes => exact h.addChildren hP (hblock indent lines hlines)
  | textBlock =>
    simp only [closeBody]
    split
    · exact h
    · exact h.addChildren hP (nodesHave_of_inline hP (interpolated_inline _ _))
  | raw =>
    simp only [closeBody]
    split
    · exact h
    · exact h.addRaw hP _
  | branches => exact h
  | leaf => exact h

theorem closeWith_all {branches : Nat → List Line → Reading (List Branch)} {block : BlockReader}
    (hbranches : BranchesAll P source branches) (hblock : block.All P source)
    {pending : Pending} (h : (Head.node pending).All P) (indent : Nat)
    (hlines : lines <:+ Line.ofSource source) :
    (closeWith branches block pending indent lines).value.All P := by
  obtain ⟨hnode, hhosts⟩ := h
  by_cases hbody : pending.body = .branches
  · rw [closeWith_branches hbody]
    exact (hnode.addBranches hP (hbranches indent lines hlines)).nestIn hP hhosts
  · rw [closeWith_body hbody]
    exact (closeBody_all hP hblock hnode _ _ hlines).nestIn hP hhosts

/-! ## Branches -/

variable {head : HeadReader} {block : BlockReader}

omit hP in
/-- The nodes of a branch stand behind its colon or under it. -/
theorem branchBlock_all (hc : head.Consumes) (hhead : head.All P source)
    (hblock : block.All P source) {close : Pending → Nat → List Line → Reading Node}
    (hclose : ∀ pending indent lines, (Head.node pending).All P → lines <:+ Line.ofSource source →
      (close pending indent lines).value.All P)
    (hline : line :: after <:+ Line.ofSource source) {rest : List Char} (hrest : rest <:+ line.text) :
    NodesHave P (partsOf ((branchBlock close head block line rest after).value.getD [])) := by
  have hafter := (List.suffix_cons line after).trans hline
  by_cases hinline : inlineBranch rest = []
  · rw [branchBlock_under hinline]
    split
    · exact nodesHave_nil
    · exact hblock line.indent after hafter
  · rw [branchBlock_inline hinline]
    have hplaced := (placed_of_suffix hline).fromEnd ((inlineBranch_suffix rest).trans hrest)
    have hsaid := hhead _ after hplaced
    have hsuffix := hc (line.fromEnd (inlineBranch rest)) after
    generalize head (line.fromEnd (inlineBranch rest)) after = reading at hsaid hsuffix ⊢
    obtain ⟨value, faults, left⟩ := reading
    cases value with
    | node pending =>
      exact nodesHave_partsOf.mpr
        (List.forall_mem_singleton.mpr (hclose pending _ left hsaid (hsuffix.trans hafter)))
    | text nodes piped => exact hsaid
    | elseBranch | whenBranch | skip => exact nodesHave_nil

theorem readBranches_all (hc : head.Consumes) (hhead : head.All P source) (hb : block.Consumes)
    (hblock : block.All P source) (n : Nat) :
    BranchesAll P source (readBranches head block n) := by
  induction n with
  | zero =>
    intro parent lines _ node hnode
    cases hnode
  | succ n ih =>
    intro parent lines hlines
    rw [readBranches_succ]
    cases hnest : nested? (some parent) lines with
    | none =>
      intro node hnode
      cases hnode
    | some pair =>
      obtain ⟨line, after⟩ := pair
      dsimp only
      have hline := (nested?_suffix hnest).trans hlines
      have hafter := (List.suffix_cons line after).trans hline
      have hskipped := ih parent _ ((skipChildren_suffix line.indent after).trans hafter)
      cases hsays : branchHead line.text with
      | ignored => exact hskipped
      | fault cause => exact hskipped
      | branch test rest =>
        have hclose : ∀ pending indent lines, (Head.node pending).All P →
            lines <:+ Line.ofSource source →
            (closeWith (readBranches head block n) block pending indent lines).value.All P :=
          fun _ indent _ hpending hlines => closeWith_all hP ih hblock hpending indent hlines
        have hlast := branchBlock_suffix (closeWith_suffix (readBranches_suffix hc hb n) hb) hc hb line
          rest after
        have hmore := ih parent _ (hlast.trans hafter)
        rw [nodesHave_branchParts] at hmore ⊢
        refine List.forall_mem_cons.mpr ⟨?_, hmore⟩
        rw [Branch.ofBlock_inner]
        exact branchBlock_all hc hhead hblock hclose hline (branchHead_suffix hsays)

/-! ## Blocks -/

/-- The property holds of all nodes that the entry brings to its block. -/
def BlockEntry.All (P : Node → Prop) (entry : BlockEntry) : Prop :=
  NodesHave P entry.parts

theorem readEntry_all (hc : head.Consumes) (hhead : head.All P source) (hb : block.Consumes)
    (hblock : block.All P source) (hline : line :: after <:+ Line.ofSource source)
    (afterPiped : Bool) : (readEntry head block line afterPiped after).entry.All P := by
  have hsaid := hhead line after (placed_of_suffix hline)
  have hleft := (hc line after).trans ((List.suffix_cons line after).trans hline)
  unfold readEntry
  generalize head line after = reading at hsaid hleft ⊢
  obtain ⟨value, faults, left⟩ := reading
  cases value with
  | node pending =>
    refine nodesHave_partsOf.mpr (List.forall_mem_singleton.mpr ?_)
    exact closeWith_all hP (readBranches_all hP hc hhead hb hblock _) hblock hsaid _ hleft
  | text nodes piped =>
    refine nodesHave_partsOf_append (nodesHave_of_inline hP ?_) hsaid
    intro node hnode
    split at hnode
    · obtain rfl := List.mem_singleton.mp hnode
      trivial
    · cases hnode
  | elseBranch test s =>
    intro node hnode
    rcases List.mem_cons.mp hnode with heq | hnode
    · cases heq
    · rw [Alternate.ofTest_inner] at hnode
      exact hblock line.indent left hleft node hnode
  | whenBranch | skip => exact nodesHave_nil

/-- A further branch of a conditional brings its nodes, or is dropped with them. -/
theorem attach_all {branch : Alternate} (hbranch : NodesHave P branch.inner) (s : Span)
    {done : List Node} (h : NodesHave P (partsOf done)) :
    NodesHave P (partsOf (attach branch s done).1) := by
  unfold attach
  split
  · split
    · exact h
    · obtain ⟨hfirst, hrest⟩ := List.forall_mem_cons.mp (nodesHave_partsOf.mp h)
      obtain ⟨hconsequent, halternates⟩ := nodesHave_append.mp hfirst.inner
      refine nodesHave_partsOf.mpr (List.forall_mem_cons.mpr ⟨⟨hP.attach _ hfirst.own, ?_⟩, hrest⟩)
      refine nodesHave_append.mpr ⟨hconsequent, ?_⟩
      rw [nodesHave_alternateParts] at halternates ⊢
      exact List.forall_mem_append.mpr ⟨halternates, List.forall_mem_singleton.mpr hbranch⟩
  · exact h
  · exact h

theorem assemble_all {entries : List BlockEntry} (hentries : ∀ entry ∈ entries, entry.All P)
    {done : List Node} (hdone : NodesHave P (partsOf done)) :
    NodesHave P (partsOf (assemble done entries).1) := by
  induction entries generalizing done with
  | nil =>
    rw [nodesHave_partsOf] at hdone ⊢
    exact fun node hnode => hdone node (List.mem_reverse.mp hnode)
  | cons entry rest ih =>
    obtain ⟨hentry, hrest⟩ := List.forall_mem_cons.mp hentries
    obtain ⟨faults, sibling⟩ := entry
    cases sibling with
    | nodes list =>
      rw [assemble]
      refine ih hrest (nodesHave_partsOf_append ?_ hdone)
      rw [nodesHave_partsOf]
      exact fun node hnode => nodesHave_partsOf.mp hentry node (List.mem_reverse.mp hnode)
    | alternate branch s =>
      rw [assemble]
      exact ih hrest (attach_all hP (fun node hnode => hentry node (List.mem_cons_of_mem _ hnode)) s hdone)

theorem readEntries_all (hc : head.Consumes) (hhead : head.All P source) (n : Nat)
    (parent expected : Option Nat) (afterPiped : Bool) (hlines : lines <:+ Line.ofSource source) :
    ∀ entry ∈ (readEntries head n parent expected afterPiped lines).1, entry.All P := by
  induction n generalizing parent expected afterPiped lines with
  | zero =>
    intro entry hentry
    cases hentry
  | succ n ih =>
    rw [readEntries_succ]
    cases hnest : nested? parent lines with
    | none =>
      intro entry hentry
      cases hentry
    | some pair =>
      obtain ⟨line, after⟩ := pair
      have hline := (nested?_suffix hnest).trans hlines
      have hb := blockWithin_consumes hc n
      -- A block inside is read with one step less.
      have hblock : (blockWithin head n).All P source := fun indent lines hlines =>
        assemble_all hP (ih (some indent) none false hlines) nodesHave_nil
      have hlast := readEntry_suffix hc hb line afterPiped after
      refine List.forall_mem_cons.mpr ⟨?_, ?_⟩
      · exact readEntry_all hP hc hhead hb hblock hline afterPiped
      · exact ih _ _ _ (hlast.trans ((List.suffix_cons line after).trans hline))

/-- What holds of all nodes that heads say holds of all nodes of the document. -/
theorem parse_all (source : String)
    (h : HeadReader.All P source.toList (Head.read source.toList (source.toList.length + 1))) :
    NodesHave P (partsOf (Document.parse source).1.nodes) := by
  have hentries := readEntries_all hP (Head.read_consumes source.toList _) h
    ((Line.ofSource source.toList).length + 1) none none false (List.suffix_refl _)
  exact assemble_all hP hentries nodesHave_nil

end

/-! ## Heads -/

/-- The head of the tag that a line starts with. -/
def Line.tagHead (line : Line) (lines : List Line) : TagHead :=
  Template.tagHead ((line.afterName (tagNameAt line.text)).text.length + 1)
    (line.afterName (tagNameAt line.text)) lines

/-- The node is neither a tag nor a group, and nothing stands in it yet. -/
def Node.Bare : Node → Prop
  | .tag .. | .group .. => False
  | node => node.inner = []

theorem Node.Bare.inner_eq {node : Node} (h : node.Bare) : node.inner = [] := by
  cases node with
  | tag | group => exact h.elim
  | _ => exact h

theorem Node.Inline.bare {node : Node} (h : node.Inline) : node.Bare := by
  cases node with
  | text => rfl
  | code => exact h.inner_eq
  | _ => exact h.elim

/-- The head says a bare node that stands alone on its line, or no node at all. -/
def Head.Bare : Head → Prop
  | .node pending => pending.hosts = [] ∧ pending.node.Bare
  | .text .. => False
  | .elseBranch .. | .whenBranch .. | .skip => True

namespace Head.Bare

theorem ofKeyword (source : List Char) (line : Line) (keyword : Keyword) (rest : Place) :
    (Head.ofKeyword source line keyword rest).1.Bare := by
  obtain ⟨f, hf, heq⟩ := Head.ofKeyword_worded keyword rest.text
  rw [heq source line rest.offset]
  cases hf with
  | fault | openArguments | elseBranch | whenBranch => trivial
  | _ => exact ⟨rfl, rfl⟩

theorem ofInterpolatedTag (line : Line) : (Head.ofInterpolatedTag line).1.Bare := by
  unfold Head.ofInterpolatedTag
  split
  · trivial
  · exact ⟨rfl, rfl⟩

theorem ofMixinCall (line : Line) (length : Nat) (lines : List Line) :
    (Head.ofMixinCall line length lines).value.Bare := by
  rw [Head.ofMixinCall_eq]
  simp only
  split
  · split
    · trivial
    · exact ⟨rfl, rfl⟩
  · exact ⟨rfl, rfl⟩

end Head.Bare

section

variable {P : Node → Prop} {source : List Char}

/-- The property holds of the bare nodes that the reader says. -/
def HeadReader.BareHave (P : Node → Prop) (source : List Char) (head : HeadReader) : Prop :=
  ∀ line lines, line.Placed source → ∀ pending, (head line lines).value = .node pending →
    pending.node.Bare → P pending.node

theorem Head.Bare.all {head : Head} (h : head.Bare)
    (hown : ∀ pending, head = .node pending → pending.node.Bare → P pending.node) : head.All P := by
  cases head with
  | node pending =>
    obtain ⟨hosts, node, body⟩ := pending
    obtain ⟨rfl, hnode⟩ := h
    refine ⟨⟨hown _ rfl hnode, ?_⟩, List.forall_mem_nil _⟩
    rw [hnode.inner_eq]
    intro other hother
    cases hother
  | text => exact h.elim
  | _ => trivial

variable (hP : Node.Lasting P) {expand : HeadReader} {line : Line}
  (htag : ∀ {line : Line} (lines : List Line) (children : List Node), line.Placed source →
    P ((line.tagHead lines).tag line (tagNameAt line.text) children))

include hP htag

/-- The nodes on the line of a tag are the tag, the text behind it and what its colon is followed by. -/
theorem Head.ofTag_all (hexpand : expand.All P source) (hplaced : line.Placed source)
    (lines : List Line) : (Head.ofTag expand line (tagNameAt line.text) lines).value.All P := by
  have hname : tagNameAt line.text <+: line.onward := by
    rw [hplaced.content]
    exact (tagNameAt_isPrefix _).trans (lineContent_isPrefix _)
  have hin : (line.afterName (tagNameAt line.text)).In source :=
    Place.In.skip (p := ⟨line.start, line.onward⟩) hplaced.place hname
  have hplace := (Place.Reaches.tagHead ((line.afterName (tagNameAt line.text)).text.length + 1)
    (line.afterName (tagNameAt line.text)) lines).placeIn hin
  rw [Head.ofTag_eq]
  simp only
  rw [← Line.tagHead] at hplace ⊢
  generalize hhead : line.tagHead lines = head at hplace ⊢
  have hsingle : ∀ children, NodesHave P (partsOf children) →
      (Head.single (head.tag line (tagNameAt line.text) children) head.body).All P :=
    fun children hchildren =>
      ⟨⟨hhead ▸ htag lines children hplaced, hchildren⟩, List.forall_mem_nil _⟩
  have hempty := hsingle [] nodesHave_nil
  generalize hresult : Head.tagTail line (head.ending = .selfClosing) head.place = tail
  obtain ⟨tail, faults⟩ := tail
  cases tail with
  | children nodes =>
    exact hsingle nodes (nodesHave_of_inline hP (tagTail_inline (congrArg Prod.fst hresult)))
  | expansion sub =>
    obtain ⟨hsub, htext, -⟩ := tagTail_expansion (congrArg Prod.fst hresult) head.lines
    have hinner := hexpand sub head.lines ⟨htext, hsub.placeIn hplace⟩
    show (head.expanded line _ sub (expand sub head.lines)).value.All P
    generalize expand sub head.lines = inner at hinner ⊢
    obtain ⟨value, faults, left⟩ := inner
    cases value with
    | node pending => exact ⟨hinner.1, List.forall_mem_cons.mpr ⟨hempty.1, hinner.2⟩⟩
    | text nodes piped => exact hsingle nodes hinner
    | elseBranch | whenBranch | skip => exact hempty

theorem Head.step_all (hexpand : expand.All P source)
    (hbare : HeadReader.BareHave P source (Head.step source expand)) :
    HeadReader.All P source (Head.step source expand) := by
  intro line lines hplaced
  have htagged := Head.ofTag_all hP htag hexpand hplaced lines
  have hown := hbare line lines hplaced
  unfold Head.step at hown ⊢
  simp only at hown ⊢
  cases hlead : Marker.leading? line.text with
  | none => trivial
  | some result =>
    obtain ⟨marker, length⟩ := result
    rw [tagNameAt, hlead] at htagged
    rw [hlead] at hown
    cases marker with
    | tagName | className | idName => exact htagged
    | mixinCall => exact (Head.Bare.ofMixinCall _ _ _).all hown
    | keyword k => exact (Head.Bare.ofKeyword _ _ _ _).all hown
    | interpolatedTag => exact (Head.Bare.ofInterpolatedTag _).all hown
    | pipe => exact nodesHave_of_inline hP (interpolated_inline _ _)
    | html => exact nodesHave_of_inline hP (List.forall_mem_singleton.mpr trivial)
    | comment | silentComment | filter | code | bufferedCode | unescapedCode =>
      exact Head.Bare.all ⟨rfl, rfl⟩ hown

/-- Heads say only nodes of which the property holds, if it holds of tags and of bare nodes. -/
theorem Head.read_all (hbare : ∀ n, HeadReader.BareHave P source (Head.read source n)) (n : Nat) :
    HeadReader.All P source (Head.read source n) := by
  induction n with
  | zero => exact fun _ _ _ => trivial
  | succ n ih => exact Head.step_all hP htag ih (hbare (n + 1))

end

end PugComponents.Template
