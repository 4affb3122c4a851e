import PugComponents.Proofs.Template.Runs

/- The spans of the head of a line. What a line says is a run of items: the tags
   before a colon, the node behind it, and the text on the line. Whatever the faults
   on the line are, the node can take the lines that its body says, and the lines
   that are left start behind it (`Head.read_located`). -/
namespace PugComponents.Template

open Text

/-- The node can take the lines that its body says. -/
inductive Fitting (source : List Char) : Node → Body → Prop
  | nodes {node : Node} (h : node.IsOpen source) : Fitting source node .nodes
  | textBlock {name : String} {attributes : List Attribute} {spreads : List Spread}
      {selfClosing : Bool} {s : Span} (h : opensTextBlock source s = true)
      (hstop : s.stop = (headAt source s).place.lineStop) :
      Fitting source (.tag name attributes spreads [] selfClosing s) .textBlock
  | raw {node : Node} (h : node.IsUnrendered) : Fitting source node .raw
  | branches (subject : String) (branches : List Branch) (s : Span) :
      Fitting source (.caseOf subject branches s) .branches
  | leaf (node : Node) : Fitting source node .leaf

variable {node : Node}

theorem Fitting.isOpen {source : List Char} (h : Fitting source node .nodes) :
    node.IsOpen source := by
  cases h with
  | nodes hopen => exact hopen

theorem Fitting.isUnrendered {source : List Char} (h : Fitting source node .raw) :
    node.IsUnrendered := by
  cases h with
  | raw hunrendered => exact hunrendered

/-- The nodes on a line are a run of items, and the lines that are left start behind the last. -/
structure Pending.Located (source : List Char) (line : Line) (lines : List Line) (pending : Pending)
    (faults : List Fault) (rest : List Line) : Prop where
  run : Run source (line :: lines) rest (itemsOf source (pending.hosts ++ [pending.node])) faults
  hosts : ∀ host ∈ pending.hosts, host.IsHost source
  fits : Fitting source pending.node pending.body
  start : line.start ≤ pending.node.span.start
  heads : ∀ first, HeadsAt source first line.start → HeadsAt source first pending.node.span.start
  ordered : pending.node.span.start ≤ pending.node.span.stop
  used : ∀ other ∈ lines, other ∈ rest ∨ other.start ≤ pending.node.span.stop
  left : ∀ other ∈ rest, pending.node.span.stop < other.start

/-- What a head says stands on its line, and on the lines that it uses up. -/
def Head.Located (source : List Char) (line : Line) (lines : List Line) (r : Reading Head) : Prop :=
  match r.value with
  | .node pending => pending.Located source line lines r.faults r.lines
  | .text nodes _ => r.lines = lines ∧ PiecesIn source line.start line.stop nodes r.faults
  | .elseBranch _ s | .whenBranch _ s =>
    s = line.span ∧ r.lines = lines ∧ ∀ f ∈ r.faults, f.span.Sound source
  | .skip => r.lines = lines ∧ ∀ f ∈ r.faults, f.span.Sound source

section

variable {source : List Char} {line : Line} {lines : List Line}

/-! ## What follows a tag -/

variable {p : Place}

/-- The span of what is left of a line holds it. -/
theorem Place.In.line_holds (h : p.In source) :
    (Span.between p.offset p.lineStop).Holds source p.line := by
  have hholds := (h.within.take p.line_isPrefix).holds
  have hspan : Span.between p.offset p.lineStop = ⟨p.offset, p.lineStop⟩ := by
    rw [Span.between, Nat.max_eq_right p.offset_le_lineStop]
  rw [hspan]
  exact hholds

/-- Text behind the first character of what is left of a line. -/
theorem inline_piecesIn {c : Char} {content : List Char} (hp : p.In source)
    (hline : p.line = c :: content) (hc : c.utf8Size = 1) :
    PiecesIn source p.offset p.lineStop (interpolated content (p.offset + 1)).1
      (interpolated content (p.offset + 1)).2 := by
  have hskip : (⟨p.offset, p.line⟩ : Place).skip [c] = ⟨p.offset + 1, content⟩ := by
    simp [Place.skip, hline, byteLength, hc]
  have hwithin : (⟨p.offset + 1, content⟩ : Place).Within source := by
    rw [← hskip]
    exact (hp.within.take p.line_isPrefix).skip ⟨content, hline.symm⟩
  have hstop : p.lineStop = p.offset + 1 + byteLength content := by
    rw [Place.lineStop, hline, byteLength, hc, Nat.add_assoc]
  exact ((interpolated_cut content (p.offset + 1)).piecesIn hwithin).mono (Nat.le_succ _)
    (Nat.le_of_eq hstop.symm)

variable {faults : List Fault}

/-- What follows the head of a tag stands in what is left of its line. -/
theorem tagTail_children {selfClosing : Bool} {nodes : List Node} (hp : p.In source)
    (h : Head.tagTail line selfClosing p = (.children nodes, faults)) :
    PiecesIn source p.offset p.lineStop nodes faults := by
  have hrest : (Span.between p.offset p.lineStop).Sound source := hp.line_holds.sound
  have hcode : ∀ {value : String} {kind : CodeKind}, Writes kind value p.line →
      PiecesIn source p.offset p.lineStop
        [.code value kind [] (Span.between p.offset p.lineStop)] [] := by
    intro value kind hwrites
    exact .single (.code _ hwrites) hp.line_holds (Nat.le_refl _)
      (Nat.le_of_eq (Span.between_stop p.offset_le_lineStop))
  unfold Head.tagTail at h
  simp only at h
  split at h
  · cases h
    exact .ofFault hrest
  · split at h
    · cases h
      exact .nil
    · split at h
      · cases h
        exact .ofFault hrest
      · cases h
    · rename_i expression hline
      cases h
      exact hcode (hline ▸ .bangEquals expression)
    · rename_i expression hline
      cases h
      exact hcode (hline ▸ .equals expression)
    · rename_i content hline
      split at h
      · cases h
        exact .nil
      · cases h
        exact inline_piecesIn hp hline rfl
    · rename_i content hline
      split at h
      · cases h
        exact .nil
      · cases h
        exact inline_piecesIn hp hline rfl
    · cases h
      exact .ofFault hrest

/-! ## Tags -/

theorem Line.Placed.stop_lt (h : line.Placed source) (hafter : line.front.LinesAfter lines) :
    ∀ other ∈ lines, line.stop < other.start := by
  intro other hother
  have hlt := hafter.lineStop_lt other hother
  rwa [Place.lineStop, Place.line, ← h.content] at hlt

theorem Line.Placed.start_lt (h : line.Placed source) (hafter : line.front.LinesAfter lines) :
    ∀ other ∈ lines, line.start < other.start :=
  fun other hother => Nat.lt_of_le_of_lt (Nat.le_add_right _ _) (h.stop_lt hafter other hother)

/-- The item of a tag with this head. -/
def TagHead.item (head : TagHead) (line : Line) : Item :=
  ⟨Span.between line.start head.place.lineStop, tagAttributes (classNames head.parts) head.parts,
    head.spreads, none, []⟩

/-- The head of a tag is read on a line. -/
structure TagHead.Stands (source : List Char) (line : Line) (lines : List Line) (head : TagHead) :
    Prop where
  reach : line.front.Reaches lines head.place head.lines
  located : (head.item line).Located source
  calm : (∀ f ∈ head.faults, f.Aligned source) →
    (head.item line).Chained source ∧ ∀ f ∈ head.faults, f.span.Sound source
  place : (headAt source (head.item line).span).place = head.place
  opens : opensTextBlock source (head.item line).span = decide (head.ending = .textBlock)

theorem tagHead_stands (hplaced : line.Placed source) {name : List Char}
    (hname : tagNameAt line.text = name) (lines : List Line) :
    (tagHead ((line.afterName name).text.length + 1) (line.afterName name) lines).Stands source line
      lines := by
  subst hname
  have hfront : line.front.In source := hplaced.place
  have hprefix : tagNameAt line.text <+: lineContent line.onward := by
    rw [← hplaced.content]
    exact tagNameAt_isPrefix _
  have hstart := reaches_afterName hprefix lines
  have hopens := fun s hs => opensTextBlock_eq (s := s) hplaced hs lines
  have hplace := fun s hs => congrArg TagHead.place (headAt_eq (s := s) hplaced hs lines)
  have hread := Place.Reaches.tagHead ((line.afterName (tagNameAt line.text)).text.length + 1)
    (line.afterName (tagNameAt line.text)) lines
  have hparts := tagHead_parts ((line.afterName (tagNameAt line.text)).text.length + 1) lines
    (hstart.placeIn hfront)
  generalize tagHead ((line.afterName (tagNameAt line.text)).text.length + 1)
    (line.afterName (tagNameAt line.text)) lines = head at hopens hplace hread hparts ⊢
  have hreach := hstart.trans hread
  have hle : line.start ≤ head.place.lineStop :=
    Nat.le_trans hreach.offset_le head.place.offset_le_lineStop
  have hinside : Parts source line.start (head.item line).span.stop (head.parts.map TagPart.span)
      (head.spreads.map Spread.span) head.faults := by
    refine hparts.mono hstart.offset_le ?_
    exact Nat.le_trans head.place.offset_le_lineStop (Nat.le_of_eq (Span.between_stop hle).symm)
  refine ⟨hreach, ⟨?_, fun _ _ h => (nomatch h), .inl rfl⟩, ?_, hplace _ rfl, hopens _ rfl⟩
  · exact Span.sound_between hfront.boundary (hreach.placeIn hfront).lineStop hle
  · intro haligned
    obtain ⟨hchain, hfaults⟩ := hinside.attributes haligned
    exact ⟨⟨hchain.sublist (tagAttributes_spans _ _), hinside.spreads⟩, hfaults⟩

variable {rest : List Line}

namespace TagHead.Stands

variable {head : TagHead} {name : List Char}

/-- A tag that opens no text block has its own item before those of its children. -/
theorem items_of_plain (h : head.Stands source line lines) (hplain : head.ending ≠ .textBlock)
    (children : List Node) :
    itemsOf source [head.tag line name children] = head.item line :: itemsOf source children := by
  have hopens : opensTextBlock source (Span.between line.start head.place.lineStop) = false :=
    h.opens.trans (decide_eq_false hplain)
  simp [itemsOf_singleton, TagHead.tag, Node.own, Node.itemsBelow, hopens, TagHead.item]

theorem items_of_block (h : head.Stands source line lines) (hblock : head.ending = .textBlock) :
    itemsOf source [head.tag line name []] = [head.item line] := by
  have hopens : opensTextBlock source (Span.between line.start head.place.lineStop) = true :=
    h.opens.trans (decide_eq_true hblock)
  simp [itemsOf_singleton, TagHead.tag, Node.own, Node.itemsBelow, hopens, TagHead.item]

theorem isHost (h : head.Stands source line lines) (hplain : head.ending ≠ .textBlock) :
    (head.tag line name []).IsHost source :=
  ⟨rfl, h.opens.trans (decide_eq_false hplain)⟩

/-- The body of a tag fits it; a tag with a text block has no other children. -/
theorem fits (h : head.Stands source line lines) {children : List Node}
    (hchildren : head.ending = .textBlock → children = []) :
    Fitting source (head.tag line name children) head.body := by
  have hopens := h.opens
  unfold TagHead.body
  split
  · rename_i hending
    rw [hending] at hopens
    exact .nodes hopens
  · rename_i hending
    rw [hending] at hopens
    rw [hchildren hending]
    refine .textBlock hopens ?_
    show (head.item line).span.stop = (headAt source (head.item line).span).place.lineStop
    rw [h.place]
    exact Span.between_stop (Nat.le_trans h.reach.offset_le head.place.offset_le_lineStop)
  · exact .leaf _

/-- The tag comes before the items that are read behind it. -/
theorem run (h : head.Stands source line lines) (hplaced : line.Placed source)
    (hafter : line.front.LinesAfter lines) (hrest : rest <:+ lines) {items : List Item}
    (hrun : Run source (line :: lines) rest items faults) :
    Run source (line :: lines) rest (head.item line :: items) (head.faults ++ faults) := by
  have hlt := hplaced.start_lt hafter
  exact hrun.cons rfl h.located (fun other hother => Nat.le_of_lt (hlt other hother))
    (fun other hother => hlt other (hrest.subset hother)) h.calm

/-- A tag that stands alone on its line. -/
theorem pending (h : head.Stands source line lines) (hplaced : line.Placed source)
    (hafter : line.front.LinesAfter lines) {children : List Node}
    (hchildren : head.ending = .textBlock → children = [])
    (hrun : Run source (line :: lines) head.lines (itemsOf source children) faults)
    (hsuffix : head.lines <:+ lines) :
    Pending.Located source line lines ⟨[], head.tag line name children, head.body⟩
      (head.faults ++ faults) head.lines := by
  have hpasses : (head.tag line name children).Passes line lines head.place head.lines :=
    Node.passes h.reach hafter rfl
  refine ⟨?_, fun _ hhost => (nomatch hhost), h.fits hchildren, Nat.le_refl _, fun _ => id,
    Span.between_le _ _, ?_, hpasses.left⟩
  · have hitems : itemsOf source [head.tag line name children] =
        head.item line :: itemsOf source children := by
      by_cases hblock : head.ending = .textBlock
      · rw [hchildren hblock, h.items_of_block hblock]
        rfl
      · exact h.items_of_plain hblock children
    rw [List.nil_append, hitems]
    exact h.run hplaced hafter hsuffix hrun
  · intro other hother
    rcases hpasses.used other hother with hleft | ⟨-, -, hle⟩
    · exact .inl hleft
    · exact .inr hle

/-- A tag before a colon, and the node behind it. -/
theorem host (h : head.Stands source line lines) (hplaced : line.Placed source)
    (hafter : line.front.LinesAfter lines) (hplain : head.ending ≠ .textBlock) {sub : Line}
    {pending : Pending} (hinner : pending.Located source sub head.lines faults rest)
    (hcolon : head.place.ColonBefore sub.start) (hlines : head.lines <:+ lines)
    (hrest : rest <:+ head.lines) :
    Pending.Located source line lines
      { pending with hosts := head.tag line name [] :: pending.hosts } (head.faults ++ faults) rest := by
  have hpasses : (head.tag line name []).Passes line lines head.place head.lines :=
    Node.passes h.reach hafter rfl
  have hsub := hcolon.offset_le
  have hstart : line.start ≤ sub.start := Nat.le_trans h.reach.offset_le hsub
  have hheads (first : Line) (hline : HeadsAt source first line.start) :
      HeadsAt source first sub.start :=
    .colon (s := (head.item line).span) hline (h.place ▸ hcolon)
  refine ⟨?_, ?_, hinner.fits, Nat.le_trans hstart hinner.start,
    fun first hline => hinner.heads first (hheads first hline), hinner.ordered, ?_, hinner.left⟩
  · have hitems : itemsOf source (head.tag line name [] :: pending.hosts ++ [pending.node]) =
        head.item line :: itemsOf source (pending.hosts ++ [pending.node]) := by
      rw [List.cons_append, ← List.singleton_append, itemsOf_append, h.items_of_plain hplain]
      rfl
    show Run source (line :: lines) rest
      (itemsOf source (head.tag line name [] :: pending.hosts ++ [pending.node])) (head.faults ++ faults)
    rw [hitems]
    refine h.run hplaced hafter (hrest.trans hlines) (hinner.run.widen ?_ (List.suffix_refl _))
    intro other hother
    rcases List.mem_cons.mp hother with rfl | hother
    · exact ⟨line, List.mem_cons_self, hstart⟩
    · exact ⟨other, List.mem_cons_of_mem line (hlines.subset hother), Nat.le_refl _⟩
  · intro host hhost
    rcases List.mem_cons.mp hhost with rfl | hhost
    · exact h.isHost hplain
    · exact hinner.hosts host hhost
  · intro other hother
    rcases hpasses.used other hother with hleft | ⟨hpassed, -, -⟩
    · exact hinner.used other hleft
    · have hnode := hinner.start
      have hstop := hinner.ordered
      refine .inr ?_
      show other.start ≤ pending.node.span.stop
      omega

/-- A tag with what the head after its colon says. -/
theorem expanded (h : head.Stands source line lines) (hplaced : line.Placed source)
    (hafter : line.front.LinesAfter lines) (hplain : head.ending ≠ .textBlock) {sub : Line}
    (hsub : sub.Placed source) (hsubAfter : sub.front.LinesAfter head.lines)
    (hcolon : head.place.ColonBefore sub.start) (hlines : head.lines <:+ lines) {inner : Reading Head}
    (hinner : Head.Located source sub head.lines inner) (hrest : inner.lines <:+ head.lines) :
    Head.Located source line lines (head.expanded line name sub inner) := by
  have hnoBlock : ∀ {P : Prop}, head.ending = .textBlock → P := fun hblock => absurd hblock hplain
  -- Behind the colon stands nothing that can be used: the tag is empty, and there is one more fault.
  have hnone : ∀ {faults : List Fault}, (∀ f ∈ faults, f.span.Sound source) →
      Pending.Located source line lines ⟨[], head.tag line name [], head.body⟩
        (head.faults ++ faults ++ [⟨.syntaxProblem .noExpansion, sub.span⟩]) head.lines := by
    intro faults hfaults
    rw [List.append_assoc]
    refine h.pending hplaced hafter hnoBlock (.ofFaults ?_) hlines
    refine List.forall_mem_append.mpr ⟨hfaults, ?_⟩
    simpa using hsub.sound
  obtain ⟨value, faults, rest⟩ := inner
  cases value with
  | node pending => exact h.host hplaced hafter hplain hinner hcolon hlines hrest
  | text nodes piped =>
    obtain ⟨rfl, hpieces⟩ := hinner
    refine h.pending hplaced hafter hnoBlock (hpieces.run ?_ (hsub.stop_lt hsubAfter)) hlines
    exact Nat.le_trans h.reach.offset_le hcolon.offset_le
  | elseBranch test s | whenBranch keyword s =>
    obtain ⟨-, rfl, hfaults⟩ := hinner
    exact hnone hfaults
  | skip =>
    obtain ⟨rfl, hfaults⟩ := hinner
    exact hnone hfaults

end TagHead.Stands

theorem Head.ofTag_located {expand : HeadReader} (hplaced : line.Placed source)
    (hafter : line.front.LinesAfter lines) {name : List Char} (hname : tagNameAt line.text = name)
    (hconsumes : expand.Consumes)
    (hexpand : ∀ sub rest, sub.Placed source → sub.front.LinesAfter rest →
      Head.Located source sub rest (expand sub rest)) :
    Head.Located source line lines (Head.ofTag expand line name lines) := by
  rw [Head.ofTag_eq]
  simp only
  have hstands := tagHead_stands hplaced hname lines
  have hlines := tagHead_suffix ((line.afterName name).text.length + 1) (line.afterName name) lines
  -- The dot of a text block ends its line, so that nothing is left for the tail.
  have hblock : ∀ {head : TagHead},
      head = tagHead ((line.afterName name).text.length + 1) (line.afterName name) lines →
      head.ending = .textBlock → head.place.line = [] := by
    rintro head rfl hending
    exact (tagHead_textBlock hending).1
  generalize hhead : tagHead ((line.afterName name).text.length + 1) (line.afterName name) lines = head
    at hstands hlines ⊢
  have hplace : head.place.In source := hstands.reach.placeIn hplaced.place
  have htail : head.ending = .textBlock →
      Head.tagTail line (head.ending = .selfClosing) head.place = (.children [], []) := by
    intro hending
    rw [hending]
    exact tagTail_of_line_nil line (hblock hhead.symm hending)
  generalize hresult : Head.tagTail line (head.ending = .selfClosing) head.place = tail at htail ⊢
  obtain ⟨tail, faults⟩ := tail
  cases tail with
  | children nodes =>
    refine hstands.pending hplaced hafter ?_ ?_ hlines
    · intro hending
      cases htail hending
      rfl
    · refine (tagTail_children hplace hresult).run hstands.reach.offset_le ?_
      exact (hstands.reach.follow hafter).lineStop_lt
  | expansion sub =>
    have hplain : head.ending ≠ .textBlock := by
      intro hending
      cases htail hending
    obtain ⟨hsub, htext, -⟩ := tagTail_expansion (congrArg Prod.fst hresult) head.lines
    have hsubPlaced : sub.Placed source := ⟨htext, hsub.placeIn hplace⟩
    have hsubAfter := hsub.follow (hstands.reach.follow hafter)
    have hcolon := tagTail_colon (congrArg Prod.fst hresult)
    exact hstands.expanded hplaced hafter hplain hsubPlaced hsubAfter hcolon hlines
      (hexpand sub head.lines hsubPlaced hsubAfter) (hconsumes sub head.lines)

/-! ## Mixin calls -/

theorem Head.callFrom_located (hplaced : line.Placed source) (hafter : line.front.LinesAfter lines)
    (hreach : line.front.Reaches lines p rest) (hrest : rest <:+ lines) (name : String)
    (arguments : Option String) :
    Head.Located source line lines (Head.callFrom line name arguments p rest) := by
  have hfront : line.front.In source := hplaced.place
  have hgroups := Place.Reaches.attributeGroups (p.text.length + 1) p rest
  have hparts := attributeGroups_parts (p.text.length + 1) rest (hreach.placeIn hfront)
  have hlines := (attributeGroups_suffix (p.text.length + 1) p rest).trans hrest
  unfold Head.callFrom
  generalize attributeGroups (p.text.length + 1) p rest = groups at hgroups hparts hlines ⊢
  have hwhole := hreach.trans hgroups
  have hplace := hwhole.placeIn hfront
  have hle : line.start ≤ groups.place.lineStop :=
    Nat.le_trans hwhole.offset_le groups.place.offset_le_lineStop
  have hstop := Span.between_stop hle
  have hlt := hplaced.start_lt hafter
  -- What is left of the line is at most one more fault.
  have hfaults : ∀ f ∈ (if (trim groups.place.line).isEmpty then []
      else [⟨.invalidMixin (.afterCall (String.ofList (trim groups.place.line))),
        Span.between groups.place.offset groups.place.lineStop⟩] : List Fault),
      f.span.Sound source := by
    split
    · exact fun _ h => (nomatch h)
    · simpa using hplace.line_holds.sound
  let item : Item :=
    ⟨Span.between line.start groups.place.lineStop, groups.attributes, groups.spreads, none, []⟩
  have hitem : item.Located source :=
    ⟨Span.sound_between hfront.boundary hplace.lineStop hle, fun _ _ h => (nomatch h), .inl rfl⟩
  have hpasses : (Node.mixinCall name arguments groups.attributes groups.spreads []
      (Span.between line.start groups.place.lineStop)).Passes line lines groups.place groups.lines :=
    Node.passes hwhole hafter rfl
  refine ⟨?_, fun _ h => (nomatch h), .nodes trivial, Nat.le_refl _, fun _ => id,
    Span.between_le _ _, ?_, hpasses.left⟩
  · refine Run.single rfl hitem (fun other hother => Nat.le_of_lt (hlt other hother))
      (fun other hother => hlt other (hlines.subset hother)) ?_
    intro haligned
    have hinside := hparts.mono hreach.offset_le
      (Nat.le_trans groups.place.offset_le_lineStop (Nat.le_of_eq hstop.symm))
    obtain ⟨hchain, hsound⟩ := hinside.attributes (List.forall_mem_append.mp haligned).1
    exact ⟨⟨hchain, hinside.spreads⟩, List.forall_mem_append.mpr ⟨hsound, hfaults⟩⟩
  · intro other hother
    rcases hpasses.used other hother with hleft | ⟨-, -, hused⟩
    · exact .inl hleft
    · exact .inr hused

theorem Head.ofMixinCall_located {length : Nat} (hplaced : line.Placed source)
    (hafter : line.front.LinesAfter lines) :
    Head.Located source line lines (Head.ofMixinCall line length lines) := by
  have hname : line.text.take length <+: lineContent line.onward := by
    rw [← hplaced.content]
    exact List.take_prefix _ _
  have hstart := reaches_afterName hname lines
  rw [Head.ofMixinCall_eq]
  simp only
  split
  · split
    · refine ⟨rfl, ?_⟩
      simpa using unclosedGroup_sound (hstart.placeIn hplaced.place)
    · rename_i hgroup
      exact Head.callFrom_located hplaced hafter (hstart.trans (.parenthesised hgroup))
        (parenthesised?_suffix hgroup) _ _
  · exact Head.callFrom_located hplaced hafter hstart (List.suffix_refl lines) _ _

/-! ## Heads on one line -/

/-- The head has faults at sound spans, and what it says is one plain item at the span `s`. -/
def Head.Plain (source : List Char) (s : Span) (r : Head.Result) : Prop :=
  (∀ f ∈ r.2, f.span.Sound source) ∧ match r.1 with
    | .node pending => pending.hosts = [] ∧ pending.node.span = s ∧
      itemsOf source [pending.node] = [.plain s] ∧ Fitting source pending.node pending.body
    | .elseBranch _ t | .whenBranch _ t => t = s
    | .text .. => False
    | .skip => True

namespace Head.Plain

variable {s : Span}

theorem fail (cause : Cause) {place : Span} (h : place.Sound source) :
    Head.Plain source s (Head.fail cause place) :=
  ⟨by simpa [Head.fail] using h, trivial⟩

theorem single {body : Body} (hspan : node.span = s) (hitems : itemsOf source [node] = [.plain s])
    (hfits : Fitting source node body) : Head.Plain source s (Head.fine (Head.single node body)) :=
  ⟨fun _ h => (nomatch h), rfl, hspan, hitems, hfits⟩

theorem comment (value : String) (buffer : Bool) :
    Head.Plain source s (Head.fine (Head.single (.comment value buffer s) .raw)) :=
  single rfl rfl (.raw trivial)

theorem ofFilter (name rest : List Char) : Head.Plain source s (Head.ofFilter name rest s) :=
  single rfl rfl (.raw trivial)

/-- An argument list that is not closed reaches to the end of the line. -/
theorem arguments_sound (hs : s.Sound source) {rest : Place} (hrest : rest.Within source)
    (hstop : rest.stop = s.stop) : (rest.arguments s.stop).Sound source := by
  have hspace := List.takeWhile_prefix (l := rest.text) isWhiteSpace
  have hname := List.takeWhile_prefix (l := (rest.skipWhile isWhiteSpace).text) Head.isMixinNamePart
  refine Span.sound_between ((hrest.skip hspace).skip hname).offset hs.stop ?_
  rw [← hstop, ← (Place.skip_within hspace).2]
  exact skip_offset_le hname

theorem ofKeyword (hs : line.span.Sound source) (keyword : Keyword) {rest : Place}
    (hrest : rest.Within source) (hstop : rest.stop = line.stop) :
    Head.Plain source line.span (Head.ofKeyword source line keyword rest) := by
  obtain ⟨f, hf, heq⟩ := Head.ofKeyword_worded keyword rest.text
  rw [heq source line rest.offset]
  cases hf with
  | fault => exact fail _ hs
  | openArguments => exact fail _ (arguments_sound hs hrest hstop)
  | elseBranch | whenBranch => exact ⟨List.forall_mem_nil _, rfl⟩
  | conditional => exact single rfl rfl (.nodes rfl)
  | each | whileLoop | mixinDefinition | namedBlock => exact single rfl rfl (.nodes trivial)
  | caseOf => exact single rfl rfl (.branches _ _ _)
  | doctype | filter | includeFile | rawInclude | extendsFile | mixinBlock =>
    exact single rfl rfl (.leaf _)

/-- What follows an interpolated tag is at the end of its line. -/
theorem ofInterpolatedTag (hplaced : line.Placed source) :
    Head.Plain source line.span (Head.ofInterpolatedTag line) := by
  unfold Head.ofInterpolatedTag
  split
  · exact fail _ hplaced.sound
  · rename_i inner after hgroup
    refine ⟨?_, rfl, rfl, rfl, .leaf _⟩
    obtain ⟨opener, closer, -, htext⟩ := group?_eq_some hgroup
    have hsuffix : after <:+ line.text := by
      refine (List.IsSuffix.trans ?_ (List.drop_suffix 1 line.text))
      rw [htext]
      exact ⟨opener :: (inner ++ [closer]), by simp⟩
    obtain ⟨front, hfront⟩ := hsuffix
    have hoffset : line.stop - byteLength after = line.start + byteLength front := by
      rw [Line.stop, ← hfront, byteLength_append]
      omega
    have hbehind := hplaced.within.skip (show front <+: line.text from ⟨after, hfront⟩)
    have hle : line.start + byteLength front ≤ line.stop := by
      rw [Line.stop, ← hfront, byteLength_append]
      omega
    split
    · exact List.forall_mem_nil _
    · intro f hf
      rw [List.mem_singleton.mp hf]
      show (Span.between (line.stop - byteLength after) line.stop).Sound source
      rw [hoffset]
      exact Span.sound_between hbehind.offset hplaced.within.stop hle

/-- What is said on one line stands on it. -/
theorem located {r : Head.Result} (h : Head.Plain source line.span r) (hplaced : line.Placed source)
    (hafter : line.front.LinesAfter lines) : Head.Located source line lines ⟨r.1, r.2, lines⟩ := by
  obtain ⟨value, faults⟩ := r
  obtain ⟨hfaults, hvalue⟩ := h
  have hlt := hplaced.start_lt hafter
  cases value with
  | node pending =>
    obtain ⟨hosts, node, body⟩ := pending
    obtain ⟨hhosts, hspan, hitems, hfits⟩ := hvalue
    cases hhosts
    refine ⟨?_, fun _ h => (nomatch h), hfits, ?_, ?_, ?_, fun _ h => .inl h, ?_⟩
    · rw [List.nil_append, hitems]
      refine Run.single rfl (Item.located_plain hplaced.sound)
        (fun other hother => Nat.le_of_lt (hlt other hother)) hlt ?_
      exact fun _ => ⟨Item.chained_plain _ _, hfaults⟩
    · exact Nat.le_of_eq (congrArg Span.start hspan).symm
    · intro first hfirst
      show HeadsAt source first node.span.start
      rw [hspan]
      exact hfirst
    · show node.span.start ≤ node.span.stop
      rw [hspan]
      exact hplaced.sound.ordered
    · show ∀ other ∈ lines, node.span.stop < other.start
      rw [hspan]
      exact hplaced.stop_lt hafter
  | elseBranch test t | whenBranch keyword t => exact ⟨hvalue, rfl, hfaults⟩
  | text nodes piped => exact hvalue.elim
  | skip => exact ⟨rfl, hfaults⟩

end Head.Plain

/-! ## Every head -/

/-- A rendered script stands behind the sign that its line starts with. -/
theorem eq_append_of_leading?_rendered {text : List Char} {marker : Marker} {sign : String}
    {length : Nat} (h : Marker.leading? text = some (marker, length))
    (hsign : marker = .bufferedCode ∧ sign = "=" ∨ marker = .unescapedCode ∧ sign = "!=") :
    text = sign.toList ++ text.drop length := by
  have hmarker : (∀ k, marker ≠ .keyword k) ∧ marker ≠ .tagName := by
    rcases hsign with ⟨rfl, -⟩ | ⟨rfl, -⟩ <;> simp
  obtain ⟨front, hfront, ⟨rest, rfl⟩, rfl⟩ := signAt_of_leading? h hmarker.1 hmarker.2
  rcases hsign with ⟨rfl, rfl⟩ | ⟨rfl, rfl⟩ <;> cases hfront <;> rfl

/-- A line that renders a script is one item. -/
theorem Head.code_located (hplaced : line.Placed source) (hafter : line.front.LinesAfter lines)
    {kind : CodeKind} {value : String} (h : Writes kind value line.text) :
    Head.Located source line lines
      ⟨Head.single (.code value kind [] line.span) .leaf, [], lines⟩ := by
  have hlt := hplaced.start_lt hafter
  have hpiece : (Node.code value kind [] line.span).IsWritten line.text := .code _ h
  obtain ⟨hbelow, hspan, hlocated, hchained⟩ := hpiece.item hplaced.span_holds
  refine ⟨?_, fun _ h => (nomatch h), .leaf _, Nat.le_refl _, fun _ => id, hplaced.sound.ordered,
    fun _ h => .inl h, hplaced.stop_lt hafter⟩
  show Run source (line :: lines) lines (itemsOf source [.code value kind [] line.span]) []
  rw [itemsOf_singleton, hbelow]
  refine Run.single (congrArg Span.start hspan) hlocated
    (fun other hother => Nat.le_of_lt (hlt other hother)) hlt ?_
  exact fun _ => ⟨hchained, fun _ h => (nomatch h)⟩

/-- The text after a bar stands on its line. -/
theorem piped_piecesIn (hplaced : line.Placed source) {front : List Char} (hfront : front <+: line.text) :
    PiecesIn source line.start line.stop
      (interpolated ((⟨line.start, line.text⟩ : Place).skip front).text
        ((⟨line.start, line.text⟩ : Place).skip front).offset).1
      (interpolated ((⟨line.start, line.text⟩ : Place).skip front).text
        ((⟨line.start, line.text⟩ : Place).skip front).offset).2 := by
  have hwithin := hplaced.within.skip hfront
  have hskip := Place.skip_within (p := ⟨line.start, line.text⟩) hfront
  exact ((interpolated_cut _ _).piecesIn hwithin).mono hskip.1 (Nat.le_of_eq hskip.2)

/-- What a line says is located, if what stands behind a colon of it is. -/
theorem Head.step_located {expand : HeadReader} (hplaced : line.Placed source)
    (hafter : line.front.LinesAfter lines) (hconsumes : expand.Consumes)
    (hexpand : ∀ sub rest, sub.Placed source → sub.front.LinesAfter rest →
      Head.Located source sub rest (expand sub rest)) :
    Head.Located source line lines (Head.step source expand line lines) := by
  have hs := hplaced.sound
  unfold Head.step
  simp only
  cases hlead : Marker.leading? line.text with
  | none => exact (Head.Plain.fail _ hs).located hplaced hafter
  | some result =>
    obtain ⟨marker, length⟩ := result
    have hfront := List.take_prefix length line.text
    have hrest := hplaced.within.skip hfront
    have hstop := (Place.skip_within (p := ⟨line.start, line.text⟩) hfront).2
    have hbehind : line.text.drop (line.text.take length).length = line.text.drop length := by
      calc line.text.drop (line.text.take length).length
          = (line.text.take length ++ line.text.drop length).drop (line.text.take length).length := by
            rw [List.take_append_drop]
        _ = line.text.drop length := List.drop_left
    cases marker with
    | tagName | className | idName =>
      refine Head.ofTag_located hplaced hafter ?_ hconsumes hexpand
      rw [tagNameAt, hlead]
    | mixinCall => exact Head.ofMixinCall_located hplaced hafter
    | keyword k => exact (Head.Plain.ofKeyword hs k hrest hstop).located hplaced hafter
    | interpolatedTag => exact (Head.Plain.ofInterpolatedTag hplaced).located hplaced hafter
    | comment => exact (Head.Plain.comment _ true).located hplaced hafter
    | silentComment => exact (Head.Plain.comment _ false).located hplaced hafter
    | filter => exact (Head.Plain.ofFilter _ _).located hplaced hafter
    | code =>
      refine (Head.Plain.single rfl rfl ?_).located hplaced hafter
      split
      · exact .raw rfl
      · exact .nodes trivial
    | bufferedCode =>
      have htext := eq_append_of_leading?_rendered hlead (.inl ⟨rfl, rfl⟩)
      refine Head.code_located hplaced hafter ?_
      simp only [Place.skip, hbehind]
      generalize line.text.drop length = expression at htext
      rw [htext]
      exact .equals expression
    | unescapedCode =>
      have htext := eq_append_of_leading?_rendered hlead (.inr ⟨rfl, rfl⟩)
      refine Head.code_located hplaced hafter ?_
      simp only [Place.skip, hbehind]
      generalize line.text.drop length = expression at htext
      rw [htext]
      exact .bangEquals expression
    | html => exact ⟨rfl, .single (.text _ _) hplaced.span_holds (Nat.le_refl _) (Nat.le_refl _)⟩
    | pipe =>
      refine ⟨rfl, ?_⟩
      simp only
      split
      · rename_i hblank
        have hwhole := Place.append_isPrefix (p := ⟨line.start, line.text⟩) hfront (isPrefix_of_startsWith hblank)
        rw [Place.skip_skip]
        exact piped_piecesIn hplaced hwhole
      · exact piped_piecesIn hplaced hfront

/-- What the head of a line says is located. -/
theorem Head.read_located (n : Nat) (hplaced : line.Placed source) (hafter : line.front.LinesAfter lines) :
    Head.Located source line lines (Head.read source n line lines) := by
  induction n generalizing line lines with
  | zero => exact ⟨rfl, fun _ h => (nomatch h)⟩
  | succ n ih =>
    exact Head.step_located hplaced hafter (Head.read_consumes source n) fun _ _ hsub hrest => ih hsub hrest

end

end PugComponents.Template
