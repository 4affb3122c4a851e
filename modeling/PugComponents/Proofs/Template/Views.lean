import PugComponents.Proofs.Template.KeywordHeads
import PugComponents.Template.Document

/- Trees without their places. Two sources that differ in their white space give
   trees with other spans; what they have in common is seen once the spans are
   taken away. What else may differ is named by a `View`: the strings that tags and
   mixin calls copy from a source over the end of a line, the columns of includes,
   and the widths in faults of indentation. The functions that build trees from
   parts commute with a view. -/
namespace PugComponents.Template

open Text

/-- How a tree is looked at. -/
structure View where
  /-- What is shown for a string that is copied from the source. -/
  copied : String → String
  /-- What is shown for the column of an include. -/
  column : Nat → Nat
  /-- What is shown for a width of indentation. -/
  indent : Nat → Nat
  /-- A span that goes over the end of a line: what is copied within any other is shown as it is. -/
  wraps : Span → Bool
  /-- What stands on one line is shown as it is. -/
  copied_line : ∀ {s : String}, '\n' ∉ s.toList → copied s = s

/-- Everything but the spans is shown as it is. -/
def View.plain : View := ⟨id, id, id, fun _ => false, fun _ => rfl⟩

/-- The view of what is copied within a span. -/
def View.within (v : View) (s : Span) : View :=
  if v.wraps s then v else { v with copied := id, copied_line := fun _ => rfl }

theorem View.plain_within (s : Span) : View.plain.within s = .plain := rfl

/-- A string is shown as it is unless it goes over the end of a line, and so does the span. -/
theorem View.within_copied (v : View) {s : Span} {text : String}
    (h : '\n' ∈ text.toList → v.wraps s = true) : (v.within s).copied text = v.copied text := by
  by_cases hfeed : '\n' ∈ text.toList
  · rw [View.within, if_pos (h hfeed)]
  · rw [(v.within s).copied_line hfeed, v.copied_line hfeed]

variable (v : View)

/-! ## Attributes, nodes and faults -/

def AttributeValue.seen : AttributeValue → AttributeValue
  | .flag => .flag
  | .expression source => .expression (v.copied source)

def Attribute.seen (a : Attribute) : Attribute := ⟨v.copied a.name, a.value.seen v, a.escaped, .empty 0⟩

def Spread.seen (s : Spread) : Spread := ⟨v.copied s.value, .empty 0⟩

/-- What an attribute copies from the source. -/
def Attribute.copied (a : Attribute) : List String :=
  match a.value with
  | .flag => [a.name]
  | .expression source => [a.name, source]

theorem Attribute.seen_congr {v w : View} {a : Attribute}
    (h : ∀ text ∈ a.copied, v.copied text = w.copied text) : a.seen v = a.seen w := by
  obtain ⟨name, value, escaped, span⟩ := a
  cases value with
  | flag =>
    have hname := h name (List.mem_singleton_self _)
    simp [Attribute.seen, AttributeValue.seen, hname]
  | expression source =>
    have hname := h name List.mem_cons_self
    have hsource := h source (List.mem_cons_of_mem _ (List.mem_singleton_self _))
    simp [Attribute.seen, AttributeValue.seen, hname, hsource]

mutual

/-- The node as it is seen. -/
def Node.seen : Node → Node
  | .text value _ => .text value (.empty 0)
  | .code value kind block _ => .code value kind (seenNodes block) (.empty 0)
  | .group nodes _ => .group (seenNodes nodes) (.empty 0)
  | .namedBlock name mode nodes _ => .namedBlock name mode (seenNodes nodes) (.empty 0)
  | .comment value buffer _ => .comment value buffer (.empty 0)
  | .doctype value _ => .doctype value (.empty 0)
  | .caseOf subject branches _ => .caseOf subject (seenBranches branches) (.empty 0)
  | .conditional test consequent alternates _ =>
    .conditional test (seenNodes consequent) (seenAlternates alternates) (.empty 0)
  | .each collection item key body _ => .each collection item key (seenNodes body) (.empty 0)
  | .whileLoop test body _ => .whileLoop test (seenNodes body) (.empty 0)
  | .mixinDefinition name arguments body _ =>
    .mixinDefinition name arguments (seenNodes body) (.empty 0)
  | .mixinCall name arguments attributes spreads block s =>
    .mixinCall name (arguments.map (v.within s).copied) (attributes.map (Attribute.seen (v.within s)))
      (spreads.map (Spread.seen (v.within s))) (seenNodes block) (.empty 0)
  | .mixinBlock _ => .mixinBlock (.empty 0)
  | .tag name attributes spreads children selfClosing s =>
    .tag name (attributes.map (Attribute.seen (v.within s))) (spreads.map (Spread.seen (v.within s)))
      (seenNodes children) selfClosing (.empty 0)
  | .interpolatedTag expression _ => .interpolatedTag expression (.empty 0)
  | .includeFile file column _ => .includeFile file (v.column column) (.empty 0)
  | .rawInclude file _ => .rawInclude file (.empty 0)
  | .extendsFile file _ => .extendsFile file (.empty 0)
  | .filter name body _ => .filter name body (.empty 0)

def Branch.seen : Branch → Branch
  | .bare test _ => .bare test (.empty 0)
  | .block test nodes _ => .block test (seenNodes nodes) (.empty 0)

def Alternate.seen : Alternate → Alternate
  | .orElse nodes _ => .orElse (seenNodes nodes) (.empty 0)
  | .orIf test nodes _ => .orIf test (seenNodes nodes) (.empty 0)

def seenNodes : List Node → List Node
  | [] => []
  | node :: nodes => node.seen :: seenNodes nodes

def seenBranches : List Branch → List Branch
  | [] => []
  | branch :: branches => branch.seen :: seenBranches branches

def seenAlternates : List Alternate → List Alternate
  | [] => []
  | branch :: branches => branch.seen :: seenAlternates branches

end

@[simp] theorem seenNodes_eq_map (nodes : List Node) : seenNodes v nodes = nodes.map (Node.seen v) := by
  induction nodes with
  | nil => rfl
  | cons node nodes ih => rw [seenNodes, ih, List.map_cons]

@[simp] theorem seenBranches_eq_map (branches : List Branch) :
    seenBranches v branches = branches.map (Branch.seen v) := by
  induction branches with
  | nil => rfl
  | cons branch branches ih => rw [seenBranches, ih, List.map_cons]

@[simp] theorem seenAlternates_eq_map (branches : List Alternate) :
    seenAlternates v branches = branches.map (Alternate.seen v) := by
  induction branches with
  | nil => rfl
  | cons branch branches ih => rw [seenAlternates, ih, List.map_cons]

/-- The cause as it is seen. Two causes carry widths or a copied string. -/
def Cause.seen : Cause → Cause
  | .inconsistentIndentation expected found =>
    .inconsistentIndentation (v.indent expected) (v.indent found)
  | .syntaxProblem (.noAttributeValue name) => .syntaxProblem (.noAttributeValue (v.copied name))
  | cause => cause

theorem Cause.seen_of_isOfWords {cause : Cause} (h : cause.isOfWords = true) : cause.seen v = cause := by
  cases cause with
  | inconsistentIndentation => cases h
  | syntaxProblem problem =>
    cases problem with
    | noAttributeValue => cases h
    | _ => rfl
  | _ => rfl

def Fault.seen (f : Fault) : Fault := ⟨f.cause.seen v, .empty 0⟩

/-- The second list, seen plainly, is what is seen of the first. -/
def Alike {α : Type} (see : View → α → α) (xs xs' : List α) : Prop :=
  xs'.map (see .plain) = xs.map (see v)

variable {v} {α : Type}

theorem Alike.nil (see : View → α → α) : Alike v see [] [] := rfl

theorem Alike.cons {see : View → α → α} {x x' : α} {xs xs' : List α} (hx : see .plain x' = see v x)
    (hxs : Alike v see xs xs') : Alike v see (x :: xs) (x' :: xs') :=
  List.cons_eq_cons.mpr ⟨hx, hxs⟩

theorem Alike.append {see : View → α → α} {xs xs' ys ys' : List α} (hxs : Alike v see xs xs')
    (hys : Alike v see ys ys') : Alike v see (xs ++ ys) (xs' ++ ys') := by
  rw [Alike, List.map_append, List.map_append, hxs, hys]

variable (v)

/-- Seen alike with the faults found on the way. -/
structure BothAlike {α : Type} (see : View → α → α) (found found' : List α × List Fault) : Prop where
  values : Alike v see found.1 found'.1
  faults : Alike v Fault.seen found.2 found'.2

/-! ## Building trees -/

@[simp] theorem Node.kind_seen (node : Node) : (node.seen v).kind = node.kind := by
  cases node <;> rfl

@[simp] theorem Node.addChildren_seen (nodes : List Node) (node : Node) :
    (node.seen v).addChildren (nodes.map (Node.seen v)) = (node.addChildren nodes).seen v := by
  cases node <;> simp [Node.addChildren, Node.seen]

@[simp] theorem Node.addRaw_seen (raw : String) (node : Node) :
    (node.seen v).addRaw raw = (node.addRaw raw).seen v := by
  cases node <;> simp [Node.addRaw, Node.seen]

@[simp] theorem Node.addBranches_seen (branches : List Branch) (node : Node) :
    (node.seen v).addBranches (branches.map (Branch.seen v)) = (node.addBranches branches).seen v := by
  cases node <;> simp [Node.addBranches, Node.seen]

@[simp] theorem nestIn_seen (hosts : List Node) (node : Node) :
    nestIn (hosts.map (Node.seen v)) (node.seen v) = (nestIn hosts node).seen v := by
  induction hosts with
  | nil => rfl
  | cons host hosts ih =>
    simp only [nestIn, List.map_cons, List.foldr_cons] at ih ⊢
    rw [ih, ← Node.addChildren_seen, List.map_singleton]

theorem Branch.ofBlock_seen (test : Option String) (s : Span) (block : Option (List Node)) :
    (Branch.ofBlock test s block).seen v =
      Branch.ofBlock test (.empty 0) (block.map (·.map (Node.seen v))) := by
  cases block <;> simp [Branch.ofBlock, Branch.seen]

theorem Alternate.ofTest_seen (test : Option String) (nodes : List Node) (s : Span) :
    (Alternate.ofTest test nodes s).seen v =
      Alternate.ofTest test (nodes.map (Node.seen v)) (.empty 0) := by
  cases test <;> simp [Alternate.ofTest, Alternate.seen]

/-! ## The parts of a tag's head -/

def TagPart.seen : TagPart → TagPart
  | .className name _ => .className name (.empty 0)
  | .attribute a => .attribute (a.seen v)

@[simp] theorem classNames_seen (parts : List TagPart) :
    classNames (parts.map (TagPart.seen v)) = classNames parts := by
  unfold classNames
  rw [List.filterMap_map]
  congr 1
  funext part
  cases part <;> rfl

@[simp] theorem plainAttributes_seen (parts : List TagPart) :
    plainAttributes (parts.map (TagPart.seen v)) = (plainAttributes parts).map (Attribute.seen v) := by
  unfold plainAttributes
  rw [List.filterMap_map, List.map_filterMap]
  congr 1
  funext part
  cases part <;> rfl

/-- A text in quotes that stands on one line is shown as it is. -/
theorem View.copied_quoted {text : String} (h : '\n' ∉ text.toList) :
    v.copied ("'" ++ text ++ "'") = "'" ++ text ++ "'" := by
  apply v.copied_line
  simp [h]

theorem feed_notMem_joinWith {parts : List String} (h : ∀ part ∈ parts, '\n' ∉ part.toList) :
    '\n' ∉ (joinWith " " parts).toList := by
  induction parts with
  | nil => simp [joinWith]
  | cons part parts ih =>
    obtain ⟨hpart, hparts⟩ := List.forall_mem_cons.mp h
    cases parts with
    | nil => simpa [joinWith] using hpart
    | cons next parts => simpa [joinWith, hpart] using ih hparts

theorem tagAttributes_seen {classes : List String} (h : ∀ name ∈ classes, '\n' ∉ name.toList)
    (parts : List TagPart) :
    (tagAttributes classes parts).map (Attribute.seen v) =
      tagAttributes classes (parts.map (TagPart.seen v)) := by
  induction parts with
  | nil => rfl
  | cons part parts ih =>
    rcases part with ⟨name, s⟩ | a
    · have hname : v.copied "class" = "class" := v.copied_line (by decide)
      have hvalue := v.copied_quoted (feed_notMem_joinWith h)
      simp [TagPart.seen, tagAttributes, Attribute.seen, AttributeValue.seen, hname, hvalue]
    · simp [TagPart.seen, tagAttributes, ih]

/-! ## Blocks from their entries -/

def Sibling.seen : Sibling → Sibling
  | .nodes list => .nodes (list.map (Node.seen v))
  | .alternate branch _ => .alternate (branch.seen v) (.empty 0)

def BlockEntry.seen (e : BlockEntry) : BlockEntry := ⟨e.faults.map (Fault.seen v), e.sibling.seen v⟩

theorem endsInElse_seen (alternates : List Alternate) :
    endsInElse (alternates.map (Alternate.seen v)) = endsInElse alternates := by
  unfold endsInElse
  rw [List.getLast?_map]
  cases alternates.getLast? with
  | none => rfl
  | some branch => cases branch <;> rfl

/-- Nodes with the faults found in them, as they are seen. -/
def seenBoth (found : List Node × List Fault) : List Node × List Fault :=
  (found.1.map (Node.seen v), found.2.map (Fault.seen v))

theorem attach_seen (branch : Alternate) (s : Span) (done : List Node) :
    seenBoth v (attach branch s done) =
      attach (branch.seen v) (.empty 0) (done.map (Node.seen v)) := by
  cases done with
  | nil => rfl
  | cons node done =>
    cases node with
    | conditional test consequent alternates span =>
      simp only [List.map_cons, Node.seen, attach, seenAlternates_eq_map, endsInElse_seen]
      split <;> simp [seenBoth, Node.seen, Fault.seen, Cause.seen]
    | each => rfl
    | _ => rfl

theorem assemble_seen (done : List Node) (entries : List BlockEntry) :
    seenBoth v (assemble done entries) =
      assemble (done.map (Node.seen v)) (entries.map (BlockEntry.seen v)) := by
  induction entries generalizing done with
  | nil => simp [assemble, seenBoth]
  | cons entry entries ih =>
    obtain ⟨faults, sibling⟩ := entry
    cases sibling with
    | nodes list =>
      have happend : (list.map (Node.seen v)).reverse ++ done.map (Node.seen v) =
          (list.reverse ++ done).map (Node.seen v) := by simp
      simp only [List.map_cons, BlockEntry.seen, Sibling.seen, assemble, happend, ← ih]
      simp [seenBoth]
    | alternate branch s =>
      simp only [List.map_cons, BlockEntry.seen, Sibling.seen, assemble, ← attach_seen v branch s]
      simp only [seenBoth, ← ih]
      simp

/-- Entries that are seen alike make blocks that are. -/
theorem assemble_alike {entries entries' : List BlockEntry} (h : Alike v BlockEntry.seen entries entries') :
    BothAlike v Node.seen (assemble [] entries) (assemble [] entries') := by
  have hassemble : seenBoth .plain (assemble [] entries') = seenBoth v (assemble [] entries) := by
    rw [assemble_seen, assemble_seen, h]
    rfl
  exact ⟨congrArg Prod.fst hassemble, congrArg Prod.snd hassemble⟩

/-! ## Text with interpolations -/

theorem pieces_alike (n start start' : Nat) (cs : List Char) :
    BothAlike v Node.seen (pieces n start cs) (pieces n start' cs) := by
  have htext : ∀ (value : List Char) (start stop start' stop' : Nat),
      Alike v Node.seen (textNode value start stop) (textNode value start' stop') := by
    intro value start stop start' stop'
    unfold textNode
    split <;> rfl
  induction n generalizing start start' cs with
  | zero => exact ⟨.nil _, .nil _⟩
  | succ n ih =>
    simp only [pieces]
    cases (literal cs).rest with
    | nil => exact ⟨htext _ _ _ _ _, .nil _⟩
    | cons sign braced =>
      simp only
      cases group? braced with
      | none => exact ⟨htext _ _ _ _ _, rfl⟩
      | some pair =>
        obtain ⟨inner, rest⟩ := pair
        have hmore := ih (start + (literal cs).bytes + byteLength inner + 3)
          (start' + (literal cs).bytes + byteLength inner + 3) rest
        exact ⟨(htext _ _ _ _ _).append (hmore.values.cons rfl), hmore.faults⟩

/-- A text says the same wherever it stands. -/
theorem interpolated_alike (text : List Char) (start start' : Nat) :
    BothAlike v Node.seen (interpolated text start) (interpolated text start') := by
  have hpieces := pieces_alike v (text.length + 1) start start' text
  unfold interpolated
  generalize pieces (text.length + 1) start text = found at hpieces ⊢
  generalize pieces (text.length + 1) start' text = found' at hpieces ⊢
  rcases found with ⟨_ | ⟨node, nodes⟩, faults⟩ <;> rcases found' with ⟨_ | ⟨node', nodes'⟩, faults'⟩
  · exact ⟨rfl, hpieces.faults⟩
  · cases hpieces.values
  · cases hpieces.values
  · exact hpieces

/-! ## Heads that stand on one line -/

def Pending.seen (p : Pending) : Pending := ⟨p.hosts.map (Node.seen v), p.node.seen v, p.body⟩

namespace Head

/-- The head as it is seen. -/
def seen : Head → Head
  | .node pending => .node (pending.seen v)
  | .elseBranch test _ => .elseBranch test (.empty 0)
  | .whenBranch keyword _ => .whenBranch keyword (.empty 0)
  | .text nodes piped => .text (nodes.map (Node.seen v)) piped
  | .skip => .skip

/-- The second head is seen like the first one. -/
inductive Alike : Head → Head → Prop
  | node {pending pending' : Pending} (h : pending'.seen .plain = pending.seen v) :
    Alike (.node pending) (.node pending')
  | elseBranch (test : Option String) (s s' : Span) : Alike (.elseBranch test s) (.elseBranch test s')
  | whenBranch (keyword : Keyword) (s s' : Span) : Alike (.whenBranch keyword s) (.whenBranch keyword s')
  | text {nodes nodes' : List Node} (h : Template.Alike v Node.seen nodes nodes') (piped : Bool) :
    Alike (.text nodes piped) (.text nodes' piped)
  | skip : Alike .skip .skip

variable {v} in
/-- Heads of different kinds are not seen alike. -/
theorem alike_of_seen {head head' : Head} (h : head'.seen .plain = head.seen v) : Alike v head head' := by
  cases head with
  | node pending =>
    cases head' with
    | node pending' => exact .node (Head.node.inj h)
    | _ => cases h
  | elseBranch test s =>
    cases head' with
    | elseBranch test' s' =>
      obtain ⟨rfl, -⟩ := Head.elseBranch.inj h
      exact .elseBranch test' s s'
    | _ => cases h
  | whenBranch keyword s =>
    cases head' with
    | whenBranch keyword' s' =>
      obtain ⟨rfl, -⟩ := Head.whenBranch.inj h
      exact .whenBranch keyword' s s'
    | _ => cases h
  | text nodes piped =>
    cases head' with
    | text nodes' piped' =>
      obtain ⟨hnodes, rfl⟩ := Head.text.inj h
      exact .text hnodes piped'
    | _ => cases h
  | skip =>
    cases head' with
    | skip => exact .skip
    | _ => cases h

/-- A head and the faults on its line, as they are seen. -/
def seenResult (r : Result) : Result := (r.1.seen v, r.2.map (Fault.seen v))

theorem ofInterpolatedTag_seen {line line' : Line} (h : line'.text = line.text) :
    seenResult .plain (ofInterpolatedTag line') = seenResult v (ofInterpolatedTag line) := by
  unfold ofInterpolatedTag
  rw [h]
  cases group? (line.text.drop 1) with
  | none => rfl
  | some result =>
    simp only
    split <;> rfl

end Head

end PugComponents.Template
