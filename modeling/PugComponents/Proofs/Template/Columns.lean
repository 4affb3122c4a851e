import PugComponents.Proofs.Template.NodeProperties
import PugComponents.Proofs.Template.References
import PugComponents.Proofs.Text.Positions

/- Columns of includes. An include keeps the column that it is written in, the only
   thing in a tree that depends on the text before a line. A head is read alike in any
   two sources that hold its line at the same offset, but for the columns of its
   includes, which are those of their places (`Head.read_relabel`). So every include of a
   document stands in the column of its span (`column_of_mem_parse`). -/
namespace PugComponents.Template

open Text

/-! ## Other columns in a tree -/

section

variable (f : Span → Nat)

mutual

/-- The node with other columns for the includes; `f` gives the column of a span. -/
def Node.withColumns : Node → Node
  | .text value s => .text value s
  | .code value kind block s => .code value kind (withColumnsOf block) s
  | .group nodes s => .group (withColumnsOf nodes) s
  | .namedBlock name mode nodes s => .namedBlock name mode (withColumnsOf nodes) s
  | .comment value buffer s => .comment value buffer s
  | .doctype value s => .doctype value s
  | .caseOf subject branches s => .caseOf subject (withColumnsOfBranches branches) s
  | .conditional test consequent alternates s =>
    .conditional test (withColumnsOf consequent) (withColumnsOfAlternates alternates) s
  | .each collection item key body s => .each collection item key (withColumnsOf body) s
  | .whileLoop test body s => .whileLoop test (withColumnsOf body) s
  | .mixinDefinition name arguments body s => .mixinDefinition name arguments (withColumnsOf body) s
  | .mixinCall name arguments attributes spreads block s =>
    .mixinCall name arguments attributes spreads (withColumnsOf block) s
  | .mixinBlock s => .mixinBlock s
  | .tag name attributes spreads children selfClosing s =>
    .tag name attributes spreads (withColumnsOf children) selfClosing s
  | .interpolatedTag expression s => .interpolatedTag expression s
  | .includeFile file _ s => .includeFile file (f s) s
  | .rawInclude file s => .rawInclude file s
  | .extendsFile file s => .extendsFile file s
  | .filter name body s => .filter name body s

def Branch.withColumns : Branch → Branch
  | .bare test s => .bare test s
  | .block test nodes s => .block test (withColumnsOf nodes) s

def Alternate.withColumns : Alternate → Alternate
  | .orElse nodes s => .orElse (withColumnsOf nodes) s
  | .orIf test nodes s => .orIf test (withColumnsOf nodes) s

def withColumnsOf : List Node → List Node
  | [] => []
  | node :: nodes => node.withColumns :: withColumnsOf nodes

def withColumnsOfBranches : List Branch → List Branch
  | [] => []
  | branch :: branches => branch.withColumns :: withColumnsOfBranches branches

def withColumnsOfAlternates : List Alternate → List Alternate
  | [] => []
  | branch :: branches => branch.withColumns :: withColumnsOfAlternates branches

end

@[simp] theorem withColumnsOf_eq_map (nodes : List Node) :
    withColumnsOf f nodes = nodes.map (Node.withColumns f) := by
  induction nodes with
  | nil => rfl
  | cons node nodes ih => rw [withColumnsOf, ih, List.map_cons]

@[simp] theorem withColumnsOfBranches_eq_map (branches : List Branch) :
    withColumnsOfBranches f branches = branches.map (Branch.withColumns f) := by
  induction branches with
  | nil => rfl
  | cons branch branches ih => rw [withColumnsOfBranches, ih, List.map_cons]

@[simp] theorem withColumnsOfAlternates_eq_map (branches : List Alternate) :
    withColumnsOfAlternates f branches = branches.map (Alternate.withColumns f) := by
  induction branches with
  | nil => rfl
  | cons branch branches ih => rw [withColumnsOfAlternates, ih, List.map_cons]

theorem Node.addChildren_withColumns (new : List Node) (node : Node) :
    (node.addChildren new).withColumns f =
      (node.withColumns f).addChildren (new.map (Node.withColumns f)) := by
  cases node <;> simp [Node.addChildren, Node.withColumns]

theorem nestIn_withColumns (hosts : List Node) (node : Node) :
    (nestIn hosts node).withColumns f =
      nestIn (hosts.map (Node.withColumns f)) (node.withColumns f) := by
  induction hosts with
  | nil => rfl
  | cons host hosts ih =>
    simp only [nestIn, List.map_cons, List.foldr_cons] at ih ⊢
    rw [Node.addChildren_withColumns, List.map_singleton, ih]

/-- Text holds no includes. -/
theorem withColumns_of_inline {nodes : List Node} (h : ∀ node ∈ nodes, node.Inline) :
    nodes.map (Node.withColumns f) = nodes := by
  refine (List.map_congr_left fun node hnode => ?_).trans (List.map_id _)
  have hnode := h node hnode
  cases node with
  | text => rfl
  | code =>
    rw [Node.withColumns, show _ = [] from hnode, withColumnsOf]
    rfl
  | _ => exact hnode.elim

/-! ## Heads -/

def Pending.withColumns (p : Pending) : Pending :=
  ⟨p.hosts.map (Node.withColumns f), p.node.withColumns f, p.body⟩

def Head.withColumns : Head → Head
  | .node pending => .node (pending.withColumns f)
  | .elseBranch test s => .elseBranch test s
  | .whenBranch keyword s => .whenBranch keyword s
  | .text nodes piped => .text (nodes.map (Node.withColumns f)) piped
  | .skip => .skip

def Reading.withColumns (r : Reading Head) : Reading Head := { r with value := r.value.withColumns f }

end

/-- The line with another number and another width of indentation, which no head depends on. -/
def Line.relabel (number indent : Nat) (line : Line) : Line :=
  { line with number := number, indent := indent }

def Head.Tail.relabel (number indent : Nat) : Head.Tail → Head.Tail
  | .children nodes => .children nodes
  | .expansion sub => .expansion (sub.relabel number indent)

/-- The column of a span. -/
def columnIn (source : List Char) (s : Span) : Nat := columnAt source s.start

namespace Head

def withColumnsResult (f : Span → Nat) (r : Result) : Result := (r.1.withColumns f, r.2)

variable (f : Span → Nat)

theorem ofInterpolatedTag_withColumns (line : Line) :
    withColumnsResult f (ofInterpolatedTag line) = ofInterpolatedTag line := by
  unfold ofInterpolatedTag
  split <;> rfl

/-- What follows a keyword is read without regard to the source, but for the column of an include. -/
theorem ofKeyword_relabel (source source' : List Char) (number indent : Nat) (line : Line)
    (keyword : Keyword) (rest : Place) :
    ofKeyword source (line.relabel number indent) keyword rest =
      withColumnsResult (columnIn source) (ofKeyword source' line keyword rest) := by
  obtain ⟨f, hf, heq⟩ := ofKeyword_worded keyword rest.text
  rw [heq source (line.relabel number indent) rest.offset, heq source' line rest.offset]
  cases hf <;> rfl

theorem ofMixinCall_relabel (number indent : Nat) (line : Line) (length : Nat) (lines : List Line) :
    ofMixinCall (line.relabel number indent) length lines =
      (ofMixinCall line length lines).withColumns f := by
  rw [show ofMixinCall (line.relabel number indent) length lines = ofMixinCall line length lines from rfl,
    ofMixinCall_eq]
  simp only
  split
  · split <;> rfl
  · rfl

theorem tagTail_relabel (number indent : Nat) (line : Line) (selfClosing : Bool) (p : Place) :
    tagTail (line.relabel number indent) selfClosing p =
      ((tagTail line selfClosing p).1.relabel number indent, (tagTail line selfClosing p).2) := by
  unfold tagTail
  simp only
  split
  · rfl
  · split
    · rfl
    · split <;> rfl
    · rfl
    · rfl
    · split <;> rfl
    · split <;> rfl
    · rfl

theorem tag_relabel (head : TagHead) (number indent : Nat) (line : Line) (name : List Char)
    (nodes : List Node) :
    head.tag (line.relabel number indent) name (nodes.map (Node.withColumns f)) =
      (head.tag line name nodes).withColumns f := by
  simp only [TagHead.tag, Node.withColumns, withColumnsOf_eq_map]
  rfl

theorem expanded_relabel (head : TagHead) (number indent : Nat) (line : Line) (name : List Char)
    (sub : Line) (inner : Reading Head) :
    head.expanded (line.relabel number indent) name (sub.relabel number indent) (inner.withColumns f) =
      (head.expanded line name sub inner).withColumns f := by
  obtain ⟨value, faults, lines⟩ := inner
  cases value with
  | node pending => rfl
  | text nodes piped =>
    simp only [TagHead.expanded, Reading.withColumns, Head.withColumns, tag_relabel]
    rfl
  | elseBranch | whenBranch | skip => rfl

theorem ofTag_relabel {expand expand' : HeadReader} {number indent : Nat}
    (hexpand : ∀ sub lines, expand' (sub.relabel number indent) lines = (expand sub lines).withColumns f)
    (line : Line) (name : List Char) (lines : List Line) :
    ofTag expand' (line.relabel number indent) name lines =
      (ofTag expand line name lines).withColumns f := by
  rw [ofTag_eq, ofTag_eq]
  simp only [show (line.relabel number indent).afterName name = line.afterName name from rfl,
    tagTail_relabel, TagHead.followed]
  generalize htail : tagTail line _ _ = tail
  obtain ⟨tail, faults⟩ := tail
  cases tail with
  | children nodes =>
    have hnodes := withColumns_of_inline f (tagTail_inline (congrArg Prod.fst htail))
    simp only [Tail.relabel]
    rw [← hnodes, tag_relabel, hnodes]
    rfl
  | expansion sub =>
    -- The rest of the line is a line of its own, with the same number and width.
    simp only [Tail.relabel, hexpand]
    exact expanded_relabel _ _ _ _ _ _ _ _

theorem step_relabel (source source' : List Char) {expand expand' : HeadReader} {number indent : Nat}
    (hexpand : ∀ sub lines, expand' (sub.relabel number indent) lines =
      (expand sub lines).withColumns (columnIn source))
    (line : Line) (lines : List Line) :
    step source expand' (line.relabel number indent) lines =
      (step source' expand line lines).withColumns (columnIn source) := by
  let oneLine (r : Result) : Reading Head := ⟨r.1, r.2, lines⟩
  unfold step
  simp only [show (line.relabel number indent).text = line.text from rfl]
  cases Marker.leading? line.text with
  | none => rfl
  | some found =>
    obtain ⟨marker, length⟩ := found
    cases marker with
    | tagName | className | idName => exact ofTag_relabel _ hexpand _ _ _
    | mixinCall => exact ofMixinCall_relabel _ _ _ _ _ _
    | keyword k =>
      exact congrArg oneLine (ofKeyword_relabel source source' number indent line k _)
    | interpolatedTag => exact congrArg oneLine (ofInterpolatedTag_withColumns _ line).symm
    | pipe =>
      simp only [Reading.withColumns, Head.withColumns, withColumns_of_inline _ (interpolated_inline _ _)]
      rfl
    | html | comment | silentComment | code | bufferedCode | unescapedCode | filter => rfl

/-- A line says the same in any source that holds it at the same offset, but for the columns of its
includes, which are those in the source. -/
theorem read_relabel (source source' : List Char) (n number indent : Nat) (line : Line)
    (lines : List Line) :
    read source n (line.relabel number indent) lines =
      (read source' n line lines).withColumns (columnIn source) := by
  induction n generalizing line lines with
  | zero => rfl
  | succ n ih => exact step_relabel source source' ih line lines

end Head

variable {f : Span → Nat}

/-! ## Includes -/

/-- An include stands in the column that `f` gives. -/
def Node.InColumn (f : Span → Nat) : Node → Prop
  | .includeFile _ column s => column = f s
  | _ => True

/-- What is put into a node does not move it. -/
theorem Node.InColumn.lasting : Node.Lasting (Node.InColumn f) where
  inline := by
    intro node h
    cases node with
    | includeFile => exact h.elim
    | _ => trivial
  addChildren := by
    intro node new h
    cases node <;> exact h
  addRaw := by
    intro node raw h
    cases node <;> exact h
  addBranches := by
    intro node new h
    cases node <;> exact h
  attach _ h := h

theorem Node.inColumn_of_eq {node : Node} (h : node.withColumns f = node) : node.InColumn f := by
  rw [← h]
  cases node <;> trivial

/-- Every include of a document, at any depth, stands in the column of its span. -/
theorem column_of_mem_parse {source : String} {file : FileReference} {column : Nat} {s : Span}
    (h : .node (.includeFile file column s) ∈ partsOf (Document.parse source).1.nodes) :
    column = columnAt source.toList s.start := by
  have hbare : ∀ n, HeadReader.BareHave (Node.InColumn (columnIn source.toList)) source.toList
      (Head.read source.toList n) := by
    intro n line lines _ pending hvalue _
    -- A line relabelled with its own number and width is the same line, read in the same source.
    have hcolumns : (Head.read source.toList n line lines).value = Head.withColumns _ _ :=
      congrArg Reading.value
        (Head.read_relabel source.toList source.toList n line.number line.indent line lines)
    rw [hvalue] at hcolumns
    exact Node.inColumn_of_eq (congrArg Pending.node (Head.node.inj hcolumns)).symm
  have hread := Head.read_all Node.InColumn.lasting (fun _ _ _ => trivial) hbare
    (source.toList.length + 1)
  exact parse_all Node.InColumn.lasting source hread _ h

end PugComponents.Template
