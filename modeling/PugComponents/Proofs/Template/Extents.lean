import PugComponents.Proofs.Template.KeywordHeads
import PugComponents.Proofs.Template.Markers
import PugComponents.Proofs.Template.Parts

/- How far the head of a line reaches. The nodes of a head without faults cover
   the line it stands on and every line that it uses up, and the lines that are
   left start behind its innermost node (`Head.read_covers`). What kind of lines
   may stand under that node fits the node: text goes to nodes that keep it, nodes
   to nodes that hold them (`Fits`). -/
namespace PugComponents.Template

open Text

/-! ## White space and markers -/

variable {cs : List Char}

theorem all_of_dropWhile_eq_nil {f : Char → Bool} (h : cs.dropWhile f = []) : cs.all f = true := by
  have hsplit := List.takeWhile_append_dropWhile (p := f) (l := cs)
  rw [h, List.append_nil] at hsplit
  rw [← hsplit]
  exact List.all_takeWhile

theorem isBlank_of_trim (h : trim cs = []) : isBlank cs = true := by
  have hend : (trimStart cs).reverse.all isWhiteSpace = true :=
    all_of_dropWhile_eq_nil (List.reverse_eq_nil_iff.mp h)
  rw [List.all_reverse] at hend
  rw [isBlank, ← List.takeWhile_append_dropWhile (p := isWhiteSpace) (l := cs), List.all_append,
    List.all_takeWhile]
  exact hend

/-- A line of code starts with a hyphen. -/
theorem eq_cons_of_leading?_code {text : List Char} {length : Nat}
    (h : Marker.leading? text = some (.code, length)) : length = 1 ∧ ∃ rest, text = '-' :: rest := by
  obtain ⟨front, hsign, ⟨rest, rfl⟩, rfl⟩ := signAt_of_leading? h (by simp) (by simp)
  cases hsign
  exact ⟨rfl, rest, rfl⟩

/-! ## What a span holds -/

/-- The text that the source has between the ends of a span. -/
def Span.Holds (source : List Char) (s : Span) (text : List Char) : Prop :=
  ∃ before after, source = before ++ text ++ after ∧ s.start = byteLength before ∧
    s.stop = byteLength before + byteLength text

/-- The span of a hyphen that no statement follows. -/
def Span.IsBareHyphen (source : List Char) (s : Span) : Prop :=
  ∃ blank, isBlank blank = true ∧ s.Holds source ('-' :: blank)

/-- The span ends in a dot that nothing follows. -/
def Span.EndsInDot (source : List Char) (s : Span) : Prop :=
  ∃ front blank, isBlank blank = true ∧ s.Holds source (front ++ '.' :: blank)

theorem Line.Placed.span_holds {source : List Char} {line : Line} (h : line.Placed source) :
    line.span.Holds source line.text := by
  obtain ⟨before, hsource, hstart⟩ := h.place
  obtain ⟨after, hafter⟩ := lineContent_isPrefix line.onward
  refine ⟨before, after, ?_, hstart, ?_⟩
  · rw [hsource, h.content, List.append_assoc, hafter]
  · rw [Line.span, Line.stop, hstart]

/-- The node can take the lines that its body says. -/
inductive Fits (source : List Char) : Node → Body → Prop
  | nodes {node : Node} (h : node.holdsNodes = true) : Fits source node .nodes
  | textBlock {name : String} {attributes : List Attribute} {spreads : List Spread}
      {selfClosing : Bool} {s : Span} (h : s.EndsInDot source) :
      Fits source (.tag name attributes spreads [] selfClosing s) .textBlock
  | comment (value : String) (buffer : Bool) (s : Span) : Fits source (.comment value buffer s) .raw
  | filter (name body : String) (s : Span) : Fits source (.filter name body s) .raw
  | code {s : Span} (h : s.IsBareHyphen source) : Fits source (.code "" .run [] s) .raw
  | branches (subject : String) (s : Span) : Fits source (.caseOf subject [] s) .branches
  | leaf (node : Node) : Fits source node .leaf

/-! ## What a head covers -/

/-- The place where a line starts. -/
abbrev Line.front (line : Line) : Place := ⟨line.start, line.onward⟩

/-- The nodes on a line cover the line and the lines that their heads use up. -/
structure Pending.Covers (source : List Char) (line : Line) (lines : List Line) (pending : Pending)
    (rest : List Line) : Prop where
  hosts : ∀ host ∈ pending.hosts, host.kind = "Tag"
  fits : Fits source pending.node pending.body
  first : ∃ node ∈ pending.hosts ++ [pending.node],
    node.span.start = line.start ∧ line.start ≤ node.span.stop
  start : line.start ≤ pending.node.span.start
  ordered : pending.node.span.start ≤ pending.node.span.stop
  used : ∀ other ∈ lines, other ∈ rest ∨ other.start ≤ pending.node.span.stop ∧
    ∃ node ∈ pending.hosts ++ [pending.node], (node.kind = "Tag" ∨ node.kind = "Mixin") ∧
      node.span.start < other.start ∧ other.start ≤ node.span.stop
  left : ∀ other ∈ rest, pending.node.span.stop < other.start

/-- What a head says covers its line and the lines that it uses up. -/
def Head.Covers (source : List Char) (line : Line) (lines : List Line) (r : Reading Head) : Prop :=
  match r.value with
  | .node pending => pending.Covers source line lines r.lines
  | .elseBranch _ s => s = line.span ∧ r.lines = lines
  | .text nodes _ => (∃ node ∈ nodes, line.start ≤ node.span.stop ∧ node.span.start ≤ line.stop) ∧
    r.lines = lines
  | .whenBranch .. => True
  | .skip => False

section

variable {source : List Char} {line : Line} {lines : List Line} {node : Node} {body : Body}

theorem Pending.covers_line (hcontent : line.text = lineContent line.onward)
    (hafter : line.front.LinesAfter lines) (hspan : node.span = line.span)
    (hfits : Fits source node body) : Pending.Covers source line lines ⟨[], node, body⟩ lines where
  hosts := fun _ hhost => absurd hhost List.not_mem_nil
  fits := hfits
  first := by
    refine ⟨node, List.mem_singleton_self node, ?_⟩
    rw [hspan]
    exact ⟨rfl, Nat.le_add_right _ _⟩
  start := by
    show line.start ≤ node.span.start
    rw [hspan]
    exact Nat.le_refl _
  ordered := by
    show node.span.start ≤ node.span.stop
    rw [hspan]
    exact Nat.le_add_right _ _
  used := fun _ hother => .inl hother
  left := by
    intro other hother
    have hlt := hafter.lineStop_lt other hother
    rw [Place.lineStop, Place.line, ← hcontent] at hlt
    show node.span.stop < other.start
    rw [hspan]
    exact hlt

/-- A node whose head ends at the place `q` covers the lines that its head uses up. -/
structure Node.Passes (line : Line) (lines : List Line) (node : Node) (q : Place) (rest : List Line) :
    Prop where
  offset : line.start ≤ q.offset
  start : node.span.start = line.start
  stop : node.span.stop = q.lineStop
  used : ∀ other ∈ lines, other ∈ rest ∨
    other.start ≤ q.offset ∧ node.span.start < other.start ∧ other.start ≤ node.span.stop
  left : ∀ other ∈ rest, node.span.stop < other.start

variable {q : Place} {rest : List Line}

theorem Node.passes (hreach : line.front.Reaches lines q rest)
    (hafter : line.front.LinesAfter lines) (hspan : node.span = Span.between line.start q.lineStop) :
    node.Passes line lines q rest := by
  have hoffset : line.start ≤ q.offset := hreach.offset_le
  have hstop := q.offset_le_lineStop
  have hend : node.span.stop = q.lineStop := by
    rw [hspan]
    exact Nat.max_eq_right (Nat.le_trans hoffset hstop)
  have hstart : node.span.start = line.start := by
    rw [hspan]
    rfl
  refine ⟨hoffset, hstart, hend, ?_, ?_⟩
  · intro other hother
    have hline : line.start ≤ line.front.lineStop := line.front.offset_le_lineStop
    have hlt := hafter.lineStop_lt other hother
    rcases hreach.used other hother with hrest | hpassed
    · exact .inl hrest
    · exact .inr ⟨hpassed, by omega, by omega⟩
  · intro other hother
    rw [hend]
    exact (hreach.follow hafter).lineStop_lt other hother

theorem Node.Passes.covers (h : node.Passes line lines q rest)
    (hkind : node.kind = "Tag" ∨ node.kind = "Mixin") (hfits : Fits source node body) :
    Pending.Covers source line lines ⟨[], node, body⟩ rest := by
  have hstart := h.start
  have hstop := h.stop
  have hoffset := h.offset
  have hend := q.offset_le_lineStop
  refine ⟨fun _ hhost => absurd hhost List.not_mem_nil, hfits, ?_, ?_, ?_, ?_, h.left⟩
  · exact ⟨node, List.mem_singleton_self node, hstart, by omega⟩
  · exact Nat.le_of_eq hstart.symm
  · show node.span.start ≤ node.span.stop
    omega
  · intro other hother
    rcases h.used other hother with hrest | ⟨-, hlt, hle⟩
    · exact .inl hrest
    · exact .inr ⟨hle, node, List.mem_singleton_self node, hkind, hlt, hle⟩

/-- The tag before a colon covers what its own head passes, and the head after the colon the rest. -/
theorem Pending.Covers.host {tag : Node} {more : List Line} {sub : Line} {pending : Pending}
    (h : pending.Covers source sub rest more) (htag : tag.Passes line lines q rest)
    (hkind : tag.kind = "Tag") (hsub : q.offset ≤ sub.start) :
    Pending.Covers source line lines { pending with hosts := tag :: pending.hosts } more := by
  have hstart := htag.start
  have hstop := htag.stop
  have hoffset := htag.offset
  have hend := q.offset_le_lineStop
  have hnode := h.start
  have hordered := h.ordered
  refine ⟨?_, h.fits, ?_, ?_, hordered, ?_, h.left⟩
  · intro host hhost
    rcases List.mem_cons.mp hhost with rfl | hhost
    · exact hkind
    · exact h.hosts host hhost
  · exact ⟨tag, List.mem_cons_self, hstart, by omega⟩
  · show line.start ≤ pending.node.span.start
    omega
  · intro other hother
    rcases htag.used other hother with hrest | ⟨hpassed, hlt, hle⟩
    · rcases h.used other hrest with hmore | ⟨hle, node, hmem, hcovers⟩
      · exact .inl hmore
      · exact .inr ⟨hle, node, List.mem_cons_of_mem tag hmem, hcovers⟩
    · refine .inr ⟨?_, tag, List.mem_cons_self, .inl hkind, hlt, hle⟩
      show other.start ≤ pending.node.span.stop
      omega

/-! ## Tags and mixin calls -/

variable {name : List Char}

theorem reaches_afterName (hname : name <+: lineContent line.onward) (lines : List Line) :
    line.front.Reaches lines (line.afterName name) lines :=
  Place.Reaches.skip (p := line.front) hname lines

theorem endsInDot_of_dotBefore (hplaced : line.Placed source) (hline : q.line = [])
    (hdot : line.front.DotBefore q) : (Span.between line.start q.lineStop).EndsInDot source := by
  obtain ⟨before, hsource, hstart⟩ := hplaced.place
  obtain ⟨front, blank, hblank, htext, hoffset⟩ := hdot
  refine ⟨front, blank, hblank, before, q.text, ?_, hstart, ?_⟩
  · rw [hsource, List.append_assoc before, ← htext]
  · have hstop : q.lineStop = line.start + byteLength (front ++ '.' :: blank) := by
      rw [Place.lineStop, hline]
      exact hoffset
    rw [hstop, ← hstart]
    exact Nat.max_eq_right (Nat.le_add_right _ _)

/-- The body of a tag fits it; a tag with a text block has no other children. -/
theorem TagHead.fits {n : Nat} (hplaced : line.Placed source)
    (hname : name <+: lineContent line.onward) {head : TagHead}
    (hhead : head = tagHead n (line.afterName name) lines) {children : List Node}
    (hchildren : head.ending = .textBlock → children = []) :
    Fits source (head.tag line name children) head.body := by
  unfold TagHead.body
  split
  · exact .nodes rfl
  · rename_i hending
    rw [hchildren hending]
    refine .textBlock ?_
    rw [hhead] at hending ⊢
    obtain ⟨hline, hdot⟩ := tagHead_textBlock hending
    exact endsInDot_of_dotBefore hplaced hline ((reaches_afterName hname lines).dotBefore hdot)
  · exact .leaf _

theorem TagHead.expanded_covers {head : TagHead} {sub : Line} {inner : Reading Head}
    (hpasses : ∀ children, (head.tag line name children).Passes line lines head.place head.lines)
    (hfits : ∀ children, Fits source (head.tag line name children) head.body)
    (hsub : head.place.offset ≤ sub.start)
    (hinner : inner.faults = [] → Head.Covers source sub head.lines inner)
    (hfaults : (head.expanded line name sub inner).faults = []) :
    Head.Covers source line lines (head.expanded line name sub inner) := by
  obtain ⟨value, faults, rest⟩ := inner
  cases value with
  | node pending =>
    have hpending : pending.Covers source sub head.lines rest := hinner (List.append_eq_nil_iff.mp hfaults).2
    exact hpending.host (hpasses []) rfl hsub
  | text nodes piped =>
    obtain ⟨-, rfl⟩ := hinner (List.append_eq_nil_iff.mp hfaults).2
    exact (hpasses nodes).covers (.inl rfl) (hfits nodes)
  | elseBranch | whenBranch | skip => simp [expanded] at hfaults

/-- The tag is complete, or the head after its colon reads what is left. -/
theorem Head.ofTag_covers {expand : HeadReader} (hplaced : line.Placed source)
    (hafter : line.front.LinesAfter lines) (hname : name <+: lineContent line.onward)
    (hexpand : ∀ sub rest, sub.Placed source → sub.front.LinesAfter rest →
      sub.onward.length < line.onward.length → (expand sub rest).faults = [] →
      Head.Covers source sub rest (expand sub rest))
    (hfaults : (Head.ofTag expand line name lines).faults = []) :
    Head.Covers source line lines (Head.ofTag expand line name lines) := by
  rw [Head.ofTag_eq] at hfaults ⊢
  simp only at hfaults ⊢
  generalize hhead : tagHead ((line.afterName name).text.length + 1) (line.afterName name) lines = head
    at hfaults ⊢
  have hreach : line.front.Reaches lines head.place head.lines := by
    rw [← hhead]
    exact (reaches_afterName hname lines).trans (Place.Reaches.tagHead _ _ _)
  have hpasses : ∀ children, (head.tag line name children).Passes line lines head.place head.lines :=
    fun children => Node.passes hreach hafter rfl
  -- The dot of a text block ends its line, so that nothing is left for the tail.
  have hblock : head.ending = .textBlock →
      Head.tagTail line (head.ending = .selfClosing) head.place = (.children [], []) := by
    intro hending
    have hline := (tagHead_textBlock (hhead ▸ hending)).1
    rw [hhead] at hline
    rw [hending]
    exact tagTail_of_line_nil line hline
  have hexpansion : ∀ sub,
      (Head.tagTail line (head.ending = .selfClosing) head.place).1 = .expansion sub →
      head.place.Reaches head.lines sub.front head.lines ∧ sub.text = lineContent sub.onward ∧
        sub.onward.length < head.place.text.length :=
    fun sub h => tagTail_expansion h head.lines
  generalize Head.tagTail line (head.ending = .selfClosing) head.place = tail at *
  obtain ⟨tail, faults⟩ := tail
  cases tail with
  | children nodes =>
    refine (hpasses nodes).covers (.inl rfl) (TagHead.fits hplaced hname hhead.symm ?_)
    intro hending
    have htail := hblock hending
    cases htail
    rfl
  | expansion sub =>
    have hplain : head.ending = .textBlock → False := by
      intro hending
      have htail := hblock hending
      cases htail
    obtain ⟨hsub, htext, hless⟩ := hexpansion sub rfl
    have hshorter := hreach.length_le
    have hinner := hexpand sub head.lines ⟨htext, (hreach.trans hsub).placeIn hplaced.place⟩
      (hsub.follow (hreach.follow hafter)) (Nat.lt_of_lt_of_le hless hshorter)
    exact TagHead.expanded_covers hpasses
      (fun children => TagHead.fits hplaced hname hhead.symm fun hending => (hplain hending).elim)
      hsub.offset_le hinner hfaults

/-- A mixin call covers its arguments and the groups after them. -/
theorem Head.ofMixinCall_covers {length : Nat} (hcontent : line.text = lineContent line.onward)
    (hafter : line.front.LinesAfter lines)
    (hfaults : (Head.ofMixinCall line length lines).faults = []) :
    Head.Covers source line lines (Head.ofMixinCall line length lines) := by
  have hname : line.text.take length <+: lineContent line.onward := by
    rw [← hcontent]
    exact List.take_prefix _ _
  have hstart := reaches_afterName hname lines
  have hcall : ∀ {name : String} {arguments : Option String} {p : Place} {rest : List Line},
      line.front.Reaches lines p rest →
      Head.Covers source line lines (Head.callFrom line name arguments p rest) := by
    intro name arguments p rest hreach
    have hgroups := hreach.trans (Place.Reaches.attributeGroups (p.text.length + 1) p rest)
    exact (Node.passes hgroups hafter rfl).covers (.inr rfl) (.nodes rfl)
  rw [Head.ofMixinCall_eq] at hfaults ⊢
  simp only at hfaults ⊢
  split
  · rename_i hopen
    rw [if_pos hopen] at hfaults
    split
    · rename_i hnone
      rw [hnone] at hfaults
      cases hfaults
    · rename_i hgroup
      exact hcall (hstart.trans (Place.Reaches.parenthesised hgroup))
  · exact hcall hstart

/-! ## Heads on one line -/

/-- Without faults, the head gives one thing, and that has the span `s`. -/
def Head.OnSpan (source : List Char) (s : Span) (r : Head.Result) : Prop :=
  r.2 = [] → match r.1 with
    | .node pending =>
      pending.hosts = [] ∧ pending.node.span = s ∧ Fits source pending.node pending.body
    | .elseBranch _ t => t = s
    | .whenBranch .. => True
    | _ => False

namespace Head.OnSpan

variable {s : Span}

theorem fail (cause : Cause) (place : Span) : Head.OnSpan source s (Head.fail cause place) :=
  fun h => by cases h

theorem single (hspan : node.span = s) (hfits : Fits source node body) (faults : List Fault) :
    Head.OnSpan source s (Head.single node body, faults) :=
  fun _ => ⟨rfl, hspan, hfits⟩

theorem ofKeyword (text : List Char) (line : Line) (keyword : Keyword) (rest : Place) :
    Head.OnSpan source line.span (Head.ofKeyword text line keyword rest) := by
  obtain ⟨f, hf, heq⟩ := Head.ofKeyword_worded keyword rest.text
  rw [heq text line rest.offset]
  cases hf with
  | fault | openArguments => exact fail _ _
  | elseBranch => exact fun _ => rfl
  | whenBranch => exact fun _ => trivial
  | conditional | each | whileLoop | mixinDefinition | namedBlock => exact single rfl (.nodes rfl) []
  | caseOf => exact single rfl (.branches _ _) []
  | doctype | filter | includeFile | rawInclude | extendsFile | mixinBlock =>
    exact single rfl (.leaf _) []

theorem ofInterpolatedTag (line : Line) :
    Head.OnSpan source line.span (Head.ofInterpolatedTag line) := by
  unfold Head.ofInterpolatedTag
  split
  · exact fail _ _
  · exact single rfl (.leaf _) _

theorem covers {r : Head.Result} (h : Head.OnSpan source line.span r)
    (hcontent : line.text = lineContent line.onward) (hafter : line.front.LinesAfter lines)
    (hfaults : r.2 = []) : Head.Covers source line lines ⟨r.1, r.2, lines⟩ := by
  have hr := h hfaults
  obtain ⟨value, faults⟩ := r
  cases value with
  | node pending =>
    obtain ⟨hosts, node, body⟩ := pending
    obtain ⟨hhosts, hspan, hfits⟩ := hr
    cases hhosts
    exact Pending.covers_line hcontent hafter hspan hfits
  | elseBranch => exact ⟨hr, rfl⟩
  | whenBranch => trivial
  | text => exact hr.elim
  | skip => exact hr.elim

end Head.OnSpan

/-! ## Text -/

theorem literal_bytes_of_value (h : (literal cs).value = []) : (literal cs).bytes = 0 := by
  revert h
  unfold literal
  split <;> simp

/-- The first node of a text starts where the text does. -/
theorem interpolated_start (text : List Char) (start : Nat) :
    ∃ node ∈ (interpolated text start).1, node.span.start = start ∧ start ≤ node.span.stop := by
  have htext : ∀ (value : List Char) (stop : Nat), value ≠ [] →
      ∃ node ∈ textNode value start stop, node.span.start = start ∧ start ≤ node.span.stop := by
    intro value stop hvalue
    rw [textNode, if_neg (by simpa using hvalue)]
    exact ⟨_, List.mem_singleton_self _, rfl, Span.between_le _ _⟩
  have hpieces : (pieces (text.length + 1) start text).1 = [] ∨
      ∃ node ∈ (pieces (text.length + 1) start text).1,
        node.span.start = start ∧ start ≤ node.span.stop := by
    simp only [pieces]
    split
    · by_cases hvalue : (literal text).value = []
      · exact .inl (by simp [textNode, hvalue])
      · exact .inr (htext _ _ hvalue)
    · rename_i sign braced hrest
      split
      · exact .inr (htext _ _ (by simp [hrest]))
      · by_cases hvalue : (literal text).value = []
        · -- The code stands at the very start.
          refine .inr ⟨_, List.mem_append_right _ List.mem_cons_self, ?_⟩
          rw [literal_bytes_of_value hvalue]
          exact ⟨rfl, Span.between_le _ _⟩
        · obtain ⟨node, hnode, hspan⟩ := htext _ (start + (literal text).bytes) hvalue
          exact .inr ⟨node, List.mem_append_left _ hnode, hspan⟩
  unfold interpolated
  split
  · exact ⟨_, List.mem_singleton_self _, rfl, Nat.le_refl _⟩
  · rename_i hnil
    rcases hpieces with hempty | hnode
    · exact (hnil _ (Prod.ext hempty rfl)).elim
    · exact hnode

/-- The text after the bar of a line starts on the line. -/
theorem Place.skip_within {p : Place} {front : List Char} (h : front <+: p.text) :
    p.offset ≤ (p.skip front).offset ∧ (p.skip front).stop = p.stop := by
  obtain ⟨rest, hrest⟩ := h
  refine ⟨Nat.le_add_right _ _, ?_⟩
  rw [Place.stop, Place.skip, Place.stop, ← hrest, List.drop_left, byteLength_append, Nat.add_assoc]

/-! ## Every head -/

/-- A head without faults covers its line, if the head after a colon does. -/
theorem Head.step_covers {expand : HeadReader} (hplaced : line.Placed source)
    (hafter : line.front.LinesAfter lines)
    (hexpand : ∀ sub rest, sub.Placed source → sub.front.LinesAfter rest →
      sub.onward.length < line.onward.length → (expand sub rest).faults = [] →
      Head.Covers source sub rest (expand sub rest))
    (hfaults : (Head.step source expand line lines).faults = []) :
    Head.Covers source line lines (Head.step source expand line lines) := by
  have hcontent := hplaced.content
  have hfront : ∀ length, line.text.take length <+: lineContent line.onward := by
    intro length
    rw [← hcontent]
    exact List.take_prefix _ _
  unfold Head.step at hfaults ⊢
  simp only at hfaults ⊢
  cases hlead : Marker.leading? line.text with
  | none =>
    rw [hlead] at hfaults
    cases hfaults
  | some result =>
    obtain ⟨marker, length⟩ := result
    rw [hlead] at hfaults
    cases marker with
    | tagName => exact Head.ofTag_covers hplaced hafter (hfront length) hexpand hfaults
    | className | idName => exact Head.ofTag_covers hplaced hafter List.nil_prefix hexpand hfaults
    | mixinCall => exact Head.ofMixinCall_covers hcontent hafter hfaults
    | keyword k => exact (Head.OnSpan.ofKeyword source line k _).covers hcontent hafter hfaults
    | interpolatedTag => exact (Head.OnSpan.ofInterpolatedTag line).covers hcontent hafter hfaults
    | comment | silentComment => exact Pending.covers_line hcontent hafter rfl (.comment _ _ _)
    | filter => exact Pending.covers_line hcontent hafter rfl (.filter _ _ _)
    | bufferedCode | unescapedCode => exact Pending.covers_line hcontent hafter rfl (.leaf _)
    | html =>
      refine ⟨⟨_, List.mem_singleton_self _, ?_, ?_⟩, rfl⟩
      · exact Nat.le_add_right _ _
      · exact Nat.le_add_right _ _
    | code =>
      refine Pending.covers_line hcontent hafter rfl ?_
      split
      · rename_i hempty
        obtain ⟨rfl, rest, htext⟩ := eq_cons_of_leading?_code hlead
        have htrim : trim rest = [] := by
          simpa [Place.skip, htext] using hempty
        have hspan := hplaced.span_holds
        rw [beq_iff_eq.mp hempty]
        exact .code ⟨rest, isBlank_of_trim htrim, htext ▸ hspan⟩
      · exact .nodes rfl
    | pipe =>
      have hrest := Place.skip_within (p := ⟨line.start, line.text⟩) (List.take_prefix length line.text)
      have htext : ∀ text : Place, line.start ≤ text.offset → text.stop = line.stop →
          ∃ node ∈ (interpolated text.text text.offset).1,
            line.start ≤ node.span.stop ∧ node.span.start ≤ line.stop := by
        intro text hstart hstop
        obtain ⟨node, hnode, hfirst, hordered⟩ := interpolated_start text.text text.offset
        have hoffset : text.offset ≤ text.stop := Nat.le_add_right _ _
        exact ⟨node, hnode, by omega, by omega⟩
      refine ⟨htext _ ?_ ?_, rfl⟩
      all_goals split
      · rename_i hblank
        have hskip := Place.skip_within (isPrefix_of_startsWith hblank)
        exact Nat.le_trans hrest.1 hskip.1
      · exact hrest.1
      · rename_i hblank
        exact (Place.skip_within (isPrefix_of_startsWith hblank)).2.trans hrest.2
      · exact hrest.2

/-- A head without faults covers its line and the lines that it uses up. -/
theorem Head.read_covers {n : Nat} (hplaced : line.Placed source) (hafter : line.front.LinesAfter lines)
    (hn : line.onward.length < n) (hfaults : (Head.read source n line lines).faults = []) :
    Head.Covers source line lines (Head.read source n line lines) := by
  induction n generalizing line lines with
  | zero => omega
  | succ n ih =>
    refine Head.step_covers hplaced hafter ?_ hfaults
    intro sub rest hsub hrest hless hfaults
    exact ih hsub hrest (by omega) hfaults

end

end PugComponents.Template
