import PugComponents.Proofs.Template.Extents

/- No line is lost. In a template without faults every line that is not blank
   shows in the tree: a part of the tree covers it, or a node keeps its text, or
   it belongs to a comment among the branches of a `case` (`Accounted`). A line
   may be used up by the head of a node, by a block, by the branches of a `case`
   or as text; each reader accounts for the lines it uses and stops before the
   first line that is not indented enough (`Takes`). -/
namespace PugComponents.Template

open Text

/-! ## Lines that are accounted for -/

/-- The lines of a source that are not blank. -/
abbrev writtenLines (source : List Char) : List Line := written (Line.ofSource source)

/-- The marker of the line starts a comment. -/
def Line.isComment (line : Line) : Bool :=
  match Marker.leading? line.text with
  | some (.comment, _) | some (.silentComment, _) => true
  | _ => false

namespace Line

/-- The line starts inside the head of a tag or a mixin call that starts before it. -/
def Continues (parts : List Part) (line : Line) : Prop :=
  ∃ node, .node node ∈ parts ∧ (node.kind = "Tag" ∨ node.kind = "Mixin") ∧
    node.span.start < line.start ∧ line.start ≤ node.span.stop

/-- The node is written on the line `first`, or on lines that continue it. -/
structure Opens (source : List Char) (parts : List Part) (first : Line) (node : Node) : Prop where
  mem : first ∈ writtenLines source
  start : first.start ≤ node.span.start
  continued : ∀ line ∈ writtenLines source, first.start < line.start →
    line.start ≤ node.span.stop → line.Continues parts

/-- The line, and every line between it and the node, is indented more than the line `first` that
the node is written on. -/
structure InBody (source : List Char) (line first : Line) (node : Node) : Prop where
  after : node.span.stop < line.start
  deeper : ∀ between ∈ writtenLines source, node.span.stop < between.start →
    between.start ≤ line.start → first.indent < between.indent

/-- The line, and every line between it and the line `outer`, is indented more than `outer`. -/
structure NestedIn (source : List Char) (line outer : Line) : Prop where
  after : outer.start < line.start
  deeper : ∀ between ∈ writtenLines source, outer.start < between.start →
    between.start ≤ line.start → outer.indent < between.indent

/-- The line is a comment that stands directly in the body of a node that is written on `first`:
the lines between the two are not indented less than the comment. -/
structure CommentIn (source : List Char) (parts : List Part) (comment first : Line) (node : Node) :
    Prop where
  isComment : comment.isComment = true
  after : node.span.stop < comment.start
  deeper : first.indent < comment.indent
  direct : ∀ between ∈ writtenLines source, node.span.stop < between.start →
    between.start < comment.start → comment.indent ≤ between.indent ∨ between.Continues parts

end Line

/-- The node keeps the text of a line under it: a comment, a filter or a bare hyphen as it stands, a
tag that ends in a dot as text with interpolations. -/
def Node.Keeps (source : List Char) (line : Line) : Node → Prop
  | .comment value _ _ => line.text <:+: value.toList
  | .filter _ body _ => line.text <:+: body.toList
  | .code value .run [] s => s.IsBareHyphen source ∧ line.text <:+: value.toList
  | .tag _ _ _ children _ s => s.EndsInDot source ∧
    ∃ raw start, line.text <:+: raw ∧ children = (interpolated raw start).1
  | _ => False

/-- The line is not lost. -/
inductive Accounted (source : List Char) (parts : List Part) (line : Line) : Prop
  /-- A part of the tree covers some of it. -/
  | spanned {part : Part} (mem : part ∈ parts) (start : part.span.start ≤ line.stop)
      (stop : line.start ≤ part.span.stop)
  /-- A node keeps its text. -/
  | kept {first : Line} {node : Node} (mem : .node node ∈ parts)
      (opens : first.Opens source parts node) (body : line.InBody source first node)
      (keeps : node.Keeps source line)
  /-- It is a comment among the branches of a `case`, or stands under one. -/
  | ignored {first comment : Line} {node : Node} (mem : .node node ∈ parts) (kind : node.kind = "Case")
      (opens : first.Opens source parts node) (written : comment ∈ writtenLines source)
      (inCase : comment.CommentIn source parts first node)
      (nested : line = comment ∨ line.NestedIn source comment)

section Grows

variable {source : List Char} {a b : List Part} {line first : Line} {node : Node}

theorem Line.Continues.grow (h : line.Continues a) (hgrows : Grows a b) : line.Continues b := by
  obtain ⟨node, hnode, hkind, hspan⟩ := h
  have hplain : node.kind ≠ "Conditional" := by
    rcases hkind with hkind | hkind <;> simp [hkind]
  exact ⟨node, hgrows.nodes node hnode hplain, hkind, hspan⟩

theorem Line.Opens.grow (h : first.Opens source a node) (hgrows : Grows a b) :
    first.Opens source b node where
  mem := h.mem
  start := h.start
  continued := fun line hline hafter hstop => (h.continued line hline hafter hstop).grow hgrows

theorem Node.Keeps.kind_ne (h : node.Keeps source line) : node.kind ≠ "Conditional" := by
  cases node with
  | conditional => exact h.elim
  | _ => simp [Node.kind]

/-- A line that is accounted for stays so in a larger tree. -/
theorem Accounted.grow (h : Accounted source a line) (hgrows : Grows a b) : Accounted source b line := by
  cases h with
  | spanned mem start stop =>
    obtain ⟨part, hpart, hspan⟩ := hgrows.spans _ mem
    exact .spanned hpart (hspan ▸ start) (hspan ▸ stop)
  | kept mem opens body keeps =>
    exact .kept (hgrows.nodes _ mem keeps.kind_ne) (opens.grow hgrows) body keeps
  | ignored mem kind opens written inCase nested =>
    refine .ignored (hgrows.nodes _ mem (by simp [kind])) kind (opens.grow hgrows) written ?_ nested
    refine ⟨inCase.isComment, inCase.after, inCase.deeper, ?_⟩
    intro between hbetween hafter hbefore
    exact (inCase.direct between hbetween hafter hbefore).imp_right fun h => h.grow hgrows

theorem Line.Continues.accounted (h : line.Continues a) : Accounted source a line := by
  obtain ⟨node, hnode, -, hstart, hstop⟩ := h
  have hline : line.start ≤ line.stop := Nat.le_add_right _ _
  exact .spanned hnode (Nat.le_trans (Nat.le_of_lt hstart) hline) hstop

end Grows

/-! ## What a reader takes -/

/-- A reader of the lines under a parent: it uses lines from the front, of which `Ok` holds and which
are under the parent or continue another line, and stops before a line that is not under it. -/
structure Takes (Ok : Line → Prop) (parent : Option Nat) (lines : List Line) (parts : List Part)
    (rest : List Line) : Prop where
  suffix : rest <:+ lines
  used : ∀ line ∈ written lines, line ∈ rest ∨
    Ok line ∧ (line.isUnder parent = true ∨ line.Continues parts)
  stops : ∀ line ∈ (written rest).head?, line.isUnder parent = false

theorem mem_written {lines : List Line} {line : Line} :
    line ∈ written lines ↔ line ∈ lines ∧ line.isBlank = false := by
  simp [written, List.mem_filter]

theorem isUnder_trans {outer inner : Line} {parent : Option Nat} (houter : outer.isUnder parent = true)
    (hinner : inner.isUnder (some outer.indent) = true) : inner.isUnder parent = true := by
  cases parent with
  | none => rfl
  | some indent =>
    simp only [Line.isUnder, decide_eq_true_eq] at houter hinner ⊢
    omega

variable {indent : Nat}

namespace Takes

variable {Ok Ok' : Line → Prop} {parent : Option Nat} {lines rest : List Line} {a b : List Part}

theorem mono (h : Takes Ok parent lines a rest) (hok : ∀ line, Ok line → Ok' line)
    (hgrows : Grows a b) : Takes Ok' parent lines b rest where
  suffix := h.suffix
  used := by
    intro line hline
    rcases h.used line hline with hrest | ⟨hline, hunder⟩
    · exact .inl hrest
    · exact .inr ⟨hok line hline, hunder.imp_right fun h => h.grow hgrows⟩
  stops := h.stops

/-- No line is under the parent. -/
theorem none (h : nested? parent lines = Option.none) (parts : List Part) :
    Takes Ok parent lines parts (skipBlank lines) where
  suffix := skipBlank_suffix lines
  used := by
    intro line hline
    rw [← written_skipBlank] at hline
    exact .inl (mem_written.mp hline).1
  stops := by
    rw [written_skipBlank]
    exact not_isUnder_of_nested? h

/-- The first line with the lines under it, and then the others under the same parent. -/
theorem cons {line : Line} {after mid : List Line} (hnest : nested? parent lines = some (line, after))
    (hline : Ok line) (hbody : Takes Ok (some line.indent) after a mid)
    (hmore : Takes Ok parent mid b rest) : Takes Ok parent lines (a ++ b) rest where
  suffix := hmore.suffix.trans (hbody.suffix.trans
    ((List.suffix_cons line after).trans (nested?_suffix hnest)))
  used := by
    obtain ⟨hskip, hunder⟩ := nested?_eq_some hnest
    rw [(skipBlank_eq_cons hskip).2]
    intro other hother
    rcases List.mem_cons.mp hother with rfl | hother
    · exact .inr ⟨hline, .inl hunder⟩
    · have hwritten := (mem_written.mp hother).2
      rcases hbody.used other hother with hmid | ⟨hok, hdeep⟩
      · rcases hmore.used other (mem_written.mpr ⟨hmid, hwritten⟩) with hrest | ⟨hok, hdeep⟩
        · exact .inl hrest
        · exact .inr ⟨hok, hdeep.imp_right fun h => h.grow (.of_subset (List.subset_append_right a b))⟩
      · refine .inr ⟨hok, ?_⟩
        rcases hdeep with hdeep | hcontinues
        · exact .inl (isUnder_trans hunder hdeep)
        · exact .inr (hcontinues.grow (.of_subset (List.subset_append_left a b)))
  stops := hmore.stops

/-- Lines that are blank or indented more are used up, and the next line is not. -/
theorem children {body : List Line} (hlines : lines = body ++ rest)
    (hbody : ∀ line ∈ body, line.isChild indent = true)
    (hok : ∀ line ∈ body, line.isBlank = false → Ok line)
    (hstops : ∀ line ∈ (written rest).head?, line.isUnder (some indent) = false) (parts : List Part) :
    Takes Ok (some indent) lines parts rest where
  suffix := ⟨body, hlines.symm⟩
  used := by
    intro line hline
    obtain ⟨hmem, hwritten⟩ := mem_written.mp hline
    rw [hlines] at hmem
    rcases List.mem_append.mp hmem with hmem | hmem
    · have hchild := hbody line hmem
      rw [Line.isChild, hwritten, Bool.false_or] at hchild
      exact .inr ⟨hok line hmem hwritten, .inl hchild⟩
    · exact .inl hmem
  stops := hstops

end Takes

theorem skipChildren_stops (indent : Nat) (lines : List Line) :
    ∀ line ∈ (written (skipChildren indent lines)).head?, line.isUnder (some indent) = false := by
  intro line hline
  cases hskip : skipChildren indent lines with
  | nil =>
    rw [hskip] at hline
    cases hline
  | cons first rest =>
    have hfirst := List.head?_dropWhile_not (Line.isChild indent) lines
    rw [← skipChildren_eq, hskip] at hfirst
    have hfirst : first.isBlank = false ∧ decide (indent < first.indent) = false := by
      simpa [Line.isChild] using hfirst
    rw [hskip, written_cons_of_written hfirst.1] at hline
    cases hline
    exact hfirst.2

/-! ## Raw text -/

theorem infix_joinWith {separator s : String} {list : List String} (h : s ∈ list) :
    s.toList <:+: (joinWith separator list).toList := by
  induction list with
  | nil => cases h
  | cons first list ih =>
    cases list with
    | nil =>
      obtain rfl := List.mem_singleton.mp h
      exact List.infix_refl _
    | cons second list =>
      rw [joinWith, String.toList_append, String.toList_append]
      · rcases List.mem_cons.mp h with rfl | h
        · rw [List.append_assoc]
          exact (List.prefix_append _ _).isInfix
        · exact (ih h).trans (List.suffix_append _ _).isInfix
      · exact fun hnil => List.cons_ne_nil _ _ hnil

theorem rawLines_split (indent : Nat) (lines : List Line) :
    ∃ blanks, (∀ line ∈ blanks, line.isBlank = true) ∧
      lines = rawLines indent lines ++ (blanks ++ skipChildren indent lines) := by
  let body := lines.takeWhile (Line.isChild indent)
  refine ⟨(body.reverse.takeWhile Line.isBlank).reverse, ?_, ?_⟩
  · intro line hline
    exact List.all_eq_true.mp List.all_takeWhile line (List.mem_reverse.mp hline)
  · have hbody : rawLines indent lines ++ (body.reverse.takeWhile Line.isBlank).reverse = body := by
      rw [rawLines_eq, ← List.reverse_append, List.takeWhile_append_dropWhile, List.reverse_reverse]
    rw [← List.append_assoc, hbody]
    exact List.takeWhile_append_dropWhile.symm

theorem takeRaw_lines (indent : Nat) (lines : List Line) :
    lines = rawLines indent lines ++ (takeRaw indent lines).lines ∧
      written (takeRaw indent lines).lines = written (skipChildren indent lines) := by
  obtain ⟨blanks, hblanks, hlines⟩ := rawLines_split indent lines
  have hrest : (takeRaw indent lines).lines = blanks ++ skipChildren indent lines := by
    have hdrop := congrArg (List.drop (rawLines indent lines).length) hlines
    rwa [List.drop_left] at hdrop
  refine ⟨by rw [hrest]; exact hlines, ?_⟩
  rw [hrest, written, List.filter_append]
  have hnone : blanks.filter (!Line.isBlank ·) = [] := by
    refine List.filter_eq_nil_iff.mpr fun line hline => ?_
    simp [hblanks line hline]
  rw [hnone]
  rfl

theorem isChild_of_mem_rawLines {lines : List Line} {line : Line} (h : line ∈ rawLines indent lines) :
    line.isChild indent = true := by
  rw [rawLines_eq, List.mem_reverse] at h
  have hbody := List.mem_reverse.mp ((List.dropWhile_suffix _).subset h)
  exact List.all_eq_true.mp List.all_takeWhile line hbody

theorem rawLine_of_written {line : Line} (h : line.isBlank = false) (common : Nat) :
    (rawLine common line).toList = List.replicate (line.indent - common) ' ' ++ line.text := by
  simp [rawLine, h]

theorem takeRaw_value_of_written {lines : List Line} (h : written (rawLines indent lines) ≠ []) :
    ∃ first common, (rawLines indent lines).head? = some first ∧
      commonIndent? (rawLines indent lines) = some common ∧
      (takeRaw indent lines).value =
        some (joinWith "\n" ((rawLines indent lines).map (rawLine common)), first.start) := by
  unfold takeRaw
  cases hbody : rawLines indent lines with
  | nil => exact absurd (by rw [hbody]; rfl) h
  | cons first rest =>
    cases hcommon : commonIndent? (first :: rest) with
    | none =>
      rw [commonIndent?, List.min?_eq_none_iff, List.map_eq_nil_iff, ← hbody] at hcommon
      exact absurd hcommon h
    | some common => exact ⟨first, common, rfl, rfl, by simp only [hcommon]⟩

/-- Raw text keeps every line that it is taken from. -/
theorem takeRaw_value {lines : List Line} {line : Line} (h : line ∈ rawLines indent lines)
    (hwritten : line.isBlank = false) :
    ∃ raw start, (takeRaw indent lines).value = some (raw, start) ∧ line.text <:+: raw.toList := by
  have hmem : line ∈ written (rawLines indent lines) := mem_written.mpr ⟨h, hwritten⟩
  obtain ⟨first, common, -, -, hvalue⟩ := takeRaw_value_of_written (List.ne_nil_of_mem hmem)
  refine ⟨_, first.start, hvalue, ?_⟩
  have htext : line.text <:+: (rawLine common line).toList := by
    rw [rawLine_of_written hwritten]
    exact (List.suffix_append _ _).isInfix
  exact htext.trans (infix_joinWith (List.mem_map_of_mem h))

theorem infix_appendLine (value raw : String) : raw.toList <:+: (appendLine value raw).toList := by
  unfold appendLine
  split
  · exact List.infix_refl _
  · rw [String.toList_append]
    exact (List.suffix_append _ _).isInfix

/-! ## Lines and offsets -/

theorem Line.start_le_stop (line : Line) : line.start ≤ line.stop := Nat.le_add_right _ _

theorem start_lt_of_append {source : List Char} {front rest : List Line}
    (h : front ++ rest <:+ Line.ofSource source) {first second : Line} (hfirst : first ∈ front)
    (hsecond : second ∈ rest) : first.start < second.start := by
  have hpairs := (Line.pairwise_ofSource source).sublist h.sublist
  have hlt := (List.pairwise_append.mp hpairs).2.2 first hfirst second hsecond
  have hle := first.start_le_stop
  omega

theorem start_lt_of_mem_after {source : List Char} {first line : Line} {after : List Line}
    (h : first :: after <:+ Line.ofSource source) (hline : line ∈ after) : first.start < line.start :=
  start_lt_of_append (show [first] ++ after <:+ _ from h) (List.mem_singleton_self first) hline

/-- The lines that start after a line are those after it. -/
theorem mem_after {source : List Char} {first : Line} {after : List Line}
    (h : first :: after <:+ Line.ofSource source) {line : Line} (hline : line ∈ Line.ofSource source)
    (hlt : first.start < line.start) : line ∈ after := by
  obtain ⟨before, hbefore⟩ := h
  rw [← hbefore] at hline
  rcases List.mem_append.mp hline with hline | hline
  · have hsuffix : before ++ first :: after <:+ Line.ofSource source := ⟨[], hbefore⟩
    have := start_lt_of_append hsuffix hline List.mem_cons_self
    omega
  · rcases List.mem_cons.mp hline with rfl | hline
    · omega
    · exact hline

/-- Among lines of which the first ones are indented more, a line before one of those is too. -/
theorem deeper_of_children {source : List Char} {body rest : List Line}
    (h : body ++ rest <:+ Line.ofSource source) (hbody : ∀ line ∈ body, line.isChild indent = true)
    {line between : Line} (hline : line ∈ body) (hbetween : between ∈ body ++ rest)
    (hwritten : between.isBlank = false) (hle : between.start ≤ line.start) :
    indent < between.indent := by
  rcases List.mem_append.mp hbetween with hmem | hmem
  · have hchild := hbody between hmem
    rw [Line.isChild, hwritten, Bool.false_or] at hchild
    exact of_decide_eq_true hchild
  · have := start_lt_of_append h hline hmem
    omega

/-! ## Comments among branches -/

/-- The comment stands among lines that are read as branches under a parent, and no line before it
is indented less. -/
structure CommentAmong (parent : Nat) (lines : List Line) (parts : List Part) (comment : Line) :
    Prop where
  mem : comment ∈ written lines
  isComment : comment.isComment = true
  deeper : parent < comment.indent
  first : ∀ first ∈ (written lines).head?, comment.indent ≤ first.indent
  direct : ∀ other ∈ written lines, other.start < comment.start →
    comment.indent ≤ other.indent ∨ other.Continues parts

/-- The line is accounted for, or belongs to a comment among the branches. -/
def AccountedAmong (source : List Char) (parent : Nat) (lines : List Line) (parts : List Part)
    (line : Line) : Prop :=
  Accounted source parts line ∨
    ∃ comment, CommentAmong parent lines parts comment ∧ (line = comment ∨ line.NestedIn source comment)

/-- Fewer than `k` lines read as a block are accounted for by its nodes. -/
def BlocksTake (source : List Char) (k : Nat) (block : BlockReader) : Prop :=
  ∀ indent lines, lines.length < k → lines <:+ Line.ofSource source →
    (block indent lines).faults = [] →
    Takes (Accounted source (partsOf (block indent lines).value)) (some indent) lines
      (partsOf (block indent lines).value) (block indent lines).lines

/-- Fewer than `k` lines read as branches are accounted for by them. -/
def BranchesTake (source : List Char) (k : Nat) (branches : Nat → List Line → Reading (List Branch)) :
    Prop :=
  ∀ parent lines, lines.length < k → lines <:+ Line.ofSource source →
    (branches parent lines).faults = [] →
    Takes (AccountedAmong source parent lines (branchParts (branches parent lines).value)) (some parent)
      lines (branchParts (branches parent lines).value) (branches parent lines).lines

/-! ## Closing a node -/

/-- The nodes that are written on the line `first`, from `sub` on. Of the lines after it their heads
leave `lines`. -/
structure Heading (source : List Char) (first sub : Line) (after : List Line) (pending : Pending)
    (lines : List Line) : Prop where
  suffix : first :: after <:+ Line.ofSource source
  written : first.isBlank = false
  start : first.start ≤ sub.start
  covers : pending.Covers source sub after lines
  left : lines <:+ after

/-- The innermost node with the lines under it. -/
structure Pending.Closes (pending : Pending) (closed : Node) : Prop where
  span : closed.span = pending.node.span
  kind : closed.kind = pending.node.kind

/-- What the closed node gives with the tags around it. -/
abbrev Pending.partsWith (pending : Pending) (closed : Node) : List Part :=
  partsOf [nestIn pending.hosts closed]

namespace Heading

variable {source : List Char} {first sub : Line} {after lines : List Line} {pending : Pending}
  {closed : Node}

theorem lines_suffix (h : Heading source first sub after pending lines) :
    lines <:+ Line.ofSource source :=
  h.left.trans ((List.suffix_cons first after).trans h.suffix)

/-- The lines behind the innermost node are those that its head has left. -/
theorem mem_lines (h : Heading source first sub after pending lines) {line : Line}
    (hline : line ∈ Line.ofSource source) (hlt : pending.node.span.stop < line.start) : line ∈ lines := by
  have hfirst := h.start
  have hstart := h.covers.start
  have hordered := h.covers.ordered
  have hafter := mem_after h.suffix hline (by omega)
  rcases h.covers.used line hafter with hmem | ⟨hle, -⟩
  · exact hmem
  · omega

theorem mem_parts (h : Heading source first sub after pending lines) (closed : Node) :
    .node closed ∈ pending.partsWith closed :=
  partsOf_subset_nestIn h.covers.hosts closed (mem_partsOf_self closed)

/-- Every node on the line is a part of what the line gives, once it is closed. -/
theorem exists_part (h : Heading source first sub after pending lines) (hclosed : pending.Closes closed)
    {node : Node} (hnode : node ∈ pending.hosts ++ [pending.node]) :
    ∃ part, .node part ∈ pending.partsWith closed ∧ part.kind = node.kind ∧ part.span = node.span := by
  rcases List.mem_append.mp hnode with hhost | hself
  · obtain ⟨tag, htag, hkind, hspan⟩ := exists_host_nestIn h.covers.hosts closed hhost
    exact ⟨tag, htag, hkind.trans (h.covers.hosts node hhost).symm, hspan⟩
  · obtain rfl := List.mem_singleton.mp hself
    exact ⟨closed, h.mem_parts closed, hclosed.kind, hclosed.span⟩

/-- A line after the first is left, or a head on the first line runs over it. -/
theorem continues (h : Heading source first sub after pending lines) (hclosed : pending.Closes closed)
    {other : Line} (hother : other ∈ after) :
    other ∈ lines ∨ other.Continues (pending.partsWith closed) := by
  rcases h.covers.used other hother with hmem | ⟨-, node, hnode, hkind, hlt, hle⟩
  · exact .inl hmem
  · obtain ⟨part, hpart, hpartKind, hpartSpan⟩ := h.exists_part hclosed hnode
    refine .inr ⟨part, hpart, ?_, ?_, ?_⟩
    · rwa [hpartKind]
    · rwa [hpartSpan]
    · rwa [hpartSpan]

theorem opens (h : Heading source first sub after pending lines) (hclosed : pending.Closes closed) :
    first.Opens source (pending.partsWith closed) closed where
  mem := mem_written.mpr ⟨h.suffix.subset List.mem_cons_self, h.written⟩
  start := by
    rw [hclosed.span]
    exact Nat.le_trans h.start h.covers.start
  continued := by
    intro line hline hafter hstop
    have hmem := mem_after h.suffix (mem_written.mp hline).1 hafter
    rcases h.continues hclosed hmem with hleft | hcontinues
    · have hbehind := h.covers.left line hleft
      rw [hclosed.span] at hstop
      omega
    · exact hcontinues

/-- What accounts for the lines that are left accounts for those that the heads use, too. -/
theorem takes_after (h : Heading source first sub after pending lines) (hclosed : pending.Closes closed)
    {parent : Option Nat} {rest : List Line}
    (htakes : Takes (Accounted source (pending.partsWith closed)) parent lines
      (pending.partsWith closed) rest) :
    Takes (Accounted source (pending.partsWith closed)) parent after (pending.partsWith closed) rest where
  suffix := htakes.suffix.trans h.left
  used := by
    intro line hline
    obtain ⟨hmem, hwritten⟩ := mem_written.mp hline
    rcases h.continues hclosed hmem with hleft | hcontinues
    · exact htakes.used line (mem_written.mpr ⟨hleft, hwritten⟩)
    · exact .inr ⟨hcontinues.accounted, .inr hcontinues⟩
  stops := htakes.stops

/-- The lines that a node takes as text are accounted for, if it keeps them. -/
theorem takes_raw (h : Heading source first sub after pending lines) (hclosed : pending.Closes closed)
    (hkeeps : ∀ line ∈ rawLines first.indent lines, line.isBlank = false → closed.Keeps source line) :
    Takes (Accounted source (pending.partsWith closed)) (some first.indent) lines
      (pending.partsWith closed) (takeRaw first.indent lines).lines := by
  obtain ⟨hlines, hrest⟩ := takeRaw_lines first.indent lines
  have hsource := h.lines_suffix
  rw [hlines] at hsource
  apply Takes.children hlines
  · intro line hline
    exact isChild_of_mem_rawLines hline
  · intro line hline hwritten
    apply Accounted.kept (h.mem_parts closed) (h.opens hclosed) _ (hkeeps line hline hwritten)
    refine ⟨?_, ?_⟩
    · rw [hclosed.span]
      exact h.covers.left line (hlines ▸ List.mem_append_left _ hline)
    · -- A line between the node and this one is among the lines that the node takes.
      intro between hbetween hafter hle
      obtain ⟨hmem, hbetweenWritten⟩ := mem_written.mp hbetween
      rw [hclosed.span] at hafter
      have hleft := h.mem_lines hmem hafter
      rw [hlines] at hleft
      exact deeper_of_children hsource (fun line hline => isChild_of_mem_rawLines hline) hline hleft
        hbetweenWritten hle
  · rw [hrest]
    exact skipChildren_stops first.indent lines

/-- A comment among the branches of a `case` stands directly in it. -/
theorem accounted_of_among (h : Heading source first sub after pending lines)
    (hclosed : pending.Closes closed) (hcase : closed.kind = "Case") {parts : List Part}
    (hparts : parts ⊆ pending.partsWith closed) {line : Line}
    (hline : AccountedAmong source first.indent lines parts line) :
    Accounted source (pending.partsWith closed) line := by
  rcases hline with hline | ⟨comment, hcomment, hnested⟩
  · exact hline.grow (.of_subset hparts)
  · obtain ⟨hmem, hwritten⟩ := mem_written.mp hcomment.mem
    apply Accounted.ignored (h.mem_parts closed) hcase (h.opens hclosed)
      (mem_written.mpr ⟨h.lines_suffix.subset hmem, hwritten⟩) _ hnested
    refine ⟨hcomment.isComment, ?_, hcomment.deeper, ?_⟩
    · rw [hclosed.span]
      exact h.covers.left comment hmem
    · intro between hbetween hafter hbefore
      obtain ⟨hbetweenMem, hbetweenWritten⟩ := mem_written.mp hbetween
      rw [hclosed.span] at hafter
      have hleft := h.mem_lines hbetweenMem hafter
      have hdirect := hcomment.direct between (mem_written.mpr ⟨hleft, hbetweenWritten⟩) hbefore
      exact hdirect.imp_right fun h => h.grow (.of_subset hparts)

end Heading

theorem addRaw_span (raw : String) (node : Node) : (node.addRaw raw).span = node.span := by
  cases node <;> rfl

theorem addRaw_kind (raw : String) (node : Node) : (node.addRaw raw).kind = node.kind := by
  cases node <;> rfl

/-- A node that takes raw text is given every line of it. -/
theorem closeBody_raw (block : BlockReader) (node : Node) (indent : Nat) (lines : List Line) :
    ∃ closed, closeBody block node .raw indent lines = ⟨closed, [], (takeRaw indent lines).lines⟩ ∧
      closed.span = node.span ∧ closed.kind = node.kind ∧
      ∀ line ∈ rawLines indent lines, line.isBlank = false →
        ∃ raw, closed = node.addRaw raw ∧ line.text <:+: raw.toList := by
  simp only [closeBody]
  split
  · rename_i hnone
    refine ⟨node, rfl, rfl, rfl, ?_⟩
    intro line hline hwritten
    obtain ⟨raw, start, hsome, -⟩ := takeRaw_value hline hwritten
    rw [hnone] at hsome
    cases hsome
  · rename_i raw start hsome
    refine ⟨node.addRaw raw, rfl, addRaw_span raw node, addRaw_kind raw node, ?_⟩
    intro line hline hwritten
    obtain ⟨raw', start', hsome', hinfix⟩ := takeRaw_value hline hwritten
    rw [hsome] at hsome'
    cases hsome'
    exact ⟨raw, rfl, hinfix⟩

/-- A text block is given every line of its text. -/
theorem closeBody_textBlock (block : BlockReader) (node : Node) (indent : Nat) (lines : List Line) :
    ∃ closed faults, closeBody block node .textBlock indent lines =
        ⟨closed, faults, (takeRaw indent lines).lines⟩ ∧
      closed.span = node.span ∧ closed.kind = node.kind ∧
      ∀ line ∈ rawLines indent lines, line.isBlank = false →
        ∃ raw start, closed = node.addChildren (interpolated raw start).1 ∧ line.text <:+: raw := by
  simp only [closeBody]
  split
  · rename_i hnone
    refine ⟨node, [], rfl, rfl, rfl, ?_⟩
    intro line hline hwritten
    obtain ⟨raw, start, hsome, -⟩ := takeRaw_value hline hwritten
    rw [hnone] at hsome
    cases hsome
  · rename_i raw start hsome
    refine ⟨_, _, rfl, addChildren_span _ node, addChildren_kind _ node, ?_⟩
    intro line hline hwritten
    obtain ⟨raw', start', hsome', hinfix⟩ := takeRaw_value hline hwritten
    rw [hsome] at hsome'
    cases hsome'
    exact ⟨raw.toList, start, rfl, hinfix⟩

/-- Where no line may stand, none is taken. -/
theorem rejectChildren_takes {Ok : Line → Prop} {kind : String} {lines : List Line}
    (h : (rejectChildren indent kind lines).faults = []) (parts : List Part) :
    Takes Ok (some indent) lines parts (rejectChildren indent kind lines).lines := by
  unfold rejectChildren at h ⊢
  split at h
  · rename_i hnest
    exact Takes.none hnest parts
  · cases h

namespace Heading

variable {source : List Char} {first sub : Line} {after lines : List Line} {pending : Pending} {k : Nat}
  {branches : Nat → List Line → Reading (List Branch)} {block : BlockReader}

/-- The closed node accounts for the lines that are left by the heads. -/
def ClosedBy (source : List Char) (first : Line) (lines : List Line) (pending : Pending)
    (r : Reading Node) : Prop :=
  ∃ closed, pending.Closes closed ∧ r.value = nestIn pending.hosts closed ∧
    Takes (Accounted source (pending.partsWith closed)) (some first.indent) lines
      (pending.partsWith closed) r.lines

/-- A node that keeps raw text accounts for the lines that it is taken from. -/
theorem closeWith_raw (h : Heading source first sub after pending lines) (hbody : pending.body = .raw)
    (hkeeps : ∀ (raw : String) (line : Line), line.text <:+: raw.toList →
      (pending.node.addRaw raw).Keeps source line) :
    ClosedBy source first lines pending (closeWith branches block pending first.indent lines) := by
  obtain ⟨closed, hclose, hspan, hkind, hkept⟩ := closeBody_raw block pending.node first.indent lines
  rw [closeWith_body (by simp [hbody]), hbody, hclose]
  refine ⟨closed, ⟨hspan, hkind⟩, rfl, h.takes_raw ⟨hspan, hkind⟩ ?_⟩
  intro line hline hwritten
  obtain ⟨raw, rfl, hinfix⟩ := hkept line hline hwritten
  exact hkeeps raw line hinfix

/-- A node that is closed without faults accounts for the lines under it. -/
theorem closeWith_takes (h : Heading source first sub after pending lines)
    (hblock : BlocksTake source k block) (hbranches : BranchesTake source k branches)
    (hk : lines.length < k) (hfaults : (closeWith branches block pending first.indent lines).faults = []) :
    ClosedBy source first lines pending (closeWith branches block pending first.indent lines) := by
  have hfits := h.covers.fits
  have hhosts := h.covers.hosts
  obtain ⟨hosts, node, body⟩ := pending
  cases hfits with
  | nodes hholds =>
    have htakes := hblock first.indent lines hk h.lines_suffix hfaults
    let closed := node.addChildren (block first.indent lines).value
    have hparts : partsOf (block first.indent lines).value ⊆ partsOf [nestIn hosts closed] :=
      List.Subset.trans (partsOf_subset_addChildren hholds _)
        (List.Subset.trans (inner_subset_partsOf _) (partsOf_subset_nestIn hhosts closed))
    exact ⟨closed, ⟨addChildren_span _ _, addChildren_kind _ _⟩, rfl,
      htakes.mono (fun line h => h.grow (.of_subset hparts)) (.of_subset hparts)⟩
  | leaf => exact ⟨node, ⟨rfl, rfl⟩, rfl, rejectChildren_takes hfaults _⟩
  | branches subject s =>
    have htakes := hbranches first.indent lines hk h.lines_suffix hfaults
    let closed := Node.caseOf subject (branches first.indent lines).value s
    have hclosed : Pending.Closes ⟨hosts, .caseOf subject [] s, .branches⟩ closed := ⟨rfl, rfl⟩
    have hparts : branchParts (branches first.indent lines).value ⊆ partsOf [nestIn hosts closed] :=
      List.Subset.trans (inner_subset_partsOf closed) (partsOf_subset_nestIn hhosts closed)
    refine ⟨closed, hclosed, rfl, htakes.mono ?_ (.of_subset hparts)⟩
    intro line hline
    exact h.accounted_of_among hclosed rfl hparts hline
  | @textBlock name attributes spreads selfClosing s hdot =>
    obtain ⟨closed, faults, hclose, hspan, hkind, hkept⟩ :=
      closeBody_textBlock block (.tag name attributes spreads [] selfClosing s) first.indent lines
    rw [closeWith_body (by simp)]
    dsimp only
    rw [hclose]
    refine ⟨closed, ⟨hspan, hkind⟩, rfl, h.takes_raw ⟨hspan, hkind⟩ ?_⟩
    intro line hline hwritten
    obtain ⟨raw, start, rfl, hinfix⟩ := hkept line hline hwritten
    exact ⟨hdot, raw, start, hinfix, rfl⟩
  | comment value buffer s | filter name value s =>
    apply h.closeWith_raw rfl
    exact fun raw line hinfix => hinfix.trans (infix_appendLine value raw)
  | code hhyphen =>
    apply h.closeWith_raw rfl
    exact fun raw line hinfix => ⟨hhyphen, hinfix.trans (infix_appendLine "" raw)⟩

/-- The nodes of a line account for it and for all lines that they take, once they are closed. -/
theorem takes (h : Heading source first sub after pending lines) (hblock : BlocksTake source k block)
    (hbranches : BranchesTake source k branches) (hk : lines.length < k) {r : Reading Node}
    (hr : closeWith branches block pending first.indent lines = r) (hfaults : r.faults = []) :
    Takes (Accounted source (partsOf [r.value])) (some first.indent) after (partsOf [r.value]) r.lines ∧
      ∃ part ∈ partsOf [r.value], part.span.start = sub.start ∧ sub.start ≤ part.span.stop := by
  subst hr
  obtain ⟨closed, hclosed, hvalue, htakes⟩ := h.closeWith_takes hblock hbranches hk hfaults
  rw [hvalue]
  refine ⟨h.takes_after hclosed htakes, ?_⟩
  obtain ⟨node, hnode, hstart, hstop⟩ := h.covers.first
  obtain ⟨part, hpart, -, hspan⟩ := h.exists_part hclosed hnode
  refine ⟨.node part, hpart, ?_, ?_⟩
  · rw [Part.span, hspan, hstart]
  · rwa [Part.span, hspan]

end Heading

end PugComponents.Template
