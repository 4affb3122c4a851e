import PugComponents.Proofs.Template.Copies
import PugComponents.Proofs.Template.Items
import PugComponents.Proofs.Template.RespacedLines

/- Heads of lines in a respaced source. The head of a line says what it says in the
   source, and the lines that it leaves are the same lines (`read_respaced`). What a
   tag or a mixin call copies from the source is respaced if its span goes over the
   end of a line, and else it is the same. -/
namespace PugComponents.Template

open Text

variable {r : Respacing}

/-! ## Spans over line ends -/

/-- The text of a span. -/
def Span.text (source : List Char) (s : Span) : List Char :=
  takeBytes (s.stop - s.start) (fromByte s.start source)

variable {s : Span}

theorem Span.Holds.text_eq {source text : List Char} (h : s.Holds source text) :
    s.text source = text := by
  obtain ⟨before, after, rfl, hstart, hstop⟩ := h
  rw [Span.text, hstop, hstart, Nat.add_sub_cancel_left, List.append_assoc, fromByte_append,
    takeBytes_append]

/-- The span goes over the end of a line. -/
def Span.wraps (source : List Char) (s : Span) : Bool := (s.text source).contains '\n'

variable {p : Place} {rest : List Line}

/-- The span up to the end of a line is one of several lines if a line feed stands before that
line. -/
theorem Place.FeedsTo.wraps {source : List Char} {q : Place} {lines : List Line} (h : p.FeedsTo q)
    (hp : p.In source) (hreach : p.Reaches lines q rest) :
    (Span.between p.offset q.lineStop).wraps source = true := by
  obtain ⟨before, hsource, hoffset⟩ := hp
  obtain ⟨passed, htext, hq⟩ := hreach.text
  obtain ⟨front, hfront, hmem⟩ := h
  obtain rfl : front = passed := List.append_cancel_right (hfront.symm.trans htext)
  obtain ⟨after, hafter⟩ := q.line_isPrefix
  have hle : p.offset ≤ q.lineStop := Nat.le_trans hreach.offset_le q.offset_le_lineStop
  have hholds : (Span.between p.offset q.lineStop).Holds source (front ++ q.line) := by
    refine ⟨before, after, ?_, hoffset, ?_⟩
    · rw [hsource, htext, ← hafter, List.append_assoc, List.append_assoc]
    · rw [Span.between_stop hle, Place.lineStop, hq, hoffset, byteLength_append, Nat.add_assoc]
  rw [Span.wraps, hholds.text_eq, List.contains_iff_mem]
  exact List.mem_append_left _ hmem

/-- How a tree is looked at when it is compared with that of the respaced source. -/
def View.respaced (r : Respacing) (source : List Char) : View :=
  { View.copying r with wraps := Span.wraps source }

/-- Faults do not depend on spans. -/
theorem Alike.respaced {source : List Char} {faults faults' : List Fault}
    (h : Alike (.copying r) Fault.seen faults faults') :
    Alike (.respaced r source) Fault.seen faults faults' := h

/-- What is seen alike within a span. -/
theorem Alike.within {source : List Char} {α : Type} {see : View → α → α} {xs xs' : List α}
    (h : Alike (.copying r) see xs xs')
    (hs : ∀ x ∈ xs, see ((View.respaced r source).within s) x = see (.copying r) x) :
    Alike ((View.respaced r source).within s) see xs xs' := by
  rw [Alike, h]
  exact (List.map_congr_left hs).symm

theorem copied_within {source : List Char} {text : String}
    (h : '\n' ∈ text.toList → s.wraps source = true) :
    ((View.respaced r source).within s).copied text = (View.copying r).copied text :=
  (View.respaced r source).within_copied h

theorem Attribute.seen_within {source : List Char} {a : Attribute}
    (h : ∀ text ∈ a.copied, '\n' ∈ text.toList → s.wraps source = true) :
    a.seen ((View.respaced r source).within s) = a.seen (.copying r) :=
  Attribute.seen_congr fun text htext => copied_within (h text htext)

theorem Spread.seen_within {source : List Char} {spread : Spread}
    (h : '\n' ∈ spread.value.toList → s.wraps source = true) :
    spread.seen ((View.respaced r source).within s) = spread.seen (.copying r) :=
  congrArg (Spread.mk · _) (copied_within h)

/-! ## Two readings -/

/-- A line of the source with the lines after it, and the same line of the respaced source. -/
structure Abreast (r : Respacing) (source : List Char) (line line' : Line) (lines lines' : List Line) :
    Prop where
  alike : line.Respaced r line'
  placed : line.Placed source
  placed' : line'.Placed (r.whole source)
  follow : line.front.LinesAfter lines
  follow' : line'.front.LinesAfter lines'

/-- The heads are seen alike, with their faults, and leave the same lines. -/
structure HeadAlike (r : Respacing) (source : List Char) (found found' : Reading Head) : Prop where
  value : found.value.Alike (.respaced r source) found'.value
  faults : Alike (.respaced r source) Fault.seen found.faults found'.faults
  left : List.Forall₂ (Line.Respaced r) found.lines found'.lines

variable {source : List Char} {line line' : Line} {lines lines' : List Line}

theorem Abreast.left (h : Abreast r source line line' lines lines') :
    List.Forall₂ (Line.Respaced r) lines lines' :=
  h.alike.place.lines h.follow h.follow'

/-- The column of a line grows by the width. -/
theorem Abreast.column (h : Abreast r source line line' lines lines') :
    columnAt (r.whole source) line'.start = columnAt source line.start + r.width := by
  obtain ⟨before, hsource, hstart⟩ := h.placed.place
  obtain ⟨before', hwhole, hstart'⟩ := h.placed'.place
  have honward : line'.onward = r.text line.onward := h.alike.place.text
  rw [honward, hsource] at hwhole
  rw [hstart, hstart', hsource]
  exact Respacing.column_whole before line.onward hwhole

/-- A head that stands on one line leaves the lines after it. -/
theorem HeadAlike.ofResult (h : Abreast r source line line' lines lines') {found found' : Head.Result}
    (hfound : Head.seenResult .plain found' = Head.seenResult (.respaced r source) found) :
    HeadAlike r source ⟨found.1, found.2, lines⟩ ⟨found'.1, found'.2, lines'⟩ := by
  obtain ⟨hvalue, hfaults⟩ := Prod.mk.inj hfound
  exact ⟨Head.alike_of_seen hvalue, hfaults, h.left⟩

theorem ofKeyword_respaced (h : Abreast r source line line' lines lines') (keyword : Keyword)
    {rest rest' : Place} (hrest : rest'.text = rest.text) :
    Head.seenResult .plain (Head.ofKeyword (r.whole source) line' keyword rest') =
      Head.seenResult (.respaced r source) (Head.ofKeyword source line keyword rest) := by
  obtain ⟨offset, text⟩ := rest
  obtain ⟨offset', text'⟩ := rest'
  obtain rfl : text' = text := hrest
  obtain ⟨f, hf, heq⟩ := Head.ofKeyword_worded keyword text'
  rw [heq, heq, h.column]
  cases hf with
  | fault cause hcause =>
    simp only [Head.seenResult, Head.fail, List.map_cons, List.map_nil, Fault.seen,
      Cause.seen_of_isOfWords _ hcause]
    rfl
  | _ => rfl

/-! ## Tags and mixin calls -/

/-- What follows the head of a tag in the source and in the respaced source. -/
inductive Head.Tail.Respaced (r : Respacing) (source : List Char) : Head.Tail → Head.Tail → Prop
  | children {nodes nodes' : List Node} (h : Template.Alike (.respaced r source) Node.seen nodes nodes') :
    Respaced r source (.children nodes) (.children nodes')
  | expansion {sub sub' : Line} (h : sub.Respaced r sub') :
    Respaced r source (.expansion sub) (.expansion sub')

theorem tagTail_respaced (source : List Char) (hline : line.Respaced r line') {p' : Place}
    (h : p.Respaced r p') (selfClosing : Bool) :
    (Head.tagTail line selfClosing p).1.Respaced r source (Head.tagTail line' selfClosing p').1 ∧
      Alike (.respaced r source) Fault.seen (Head.tagTail line selfClosing p).2
        (Head.tagTail line' selfClosing p').2 := by
  have hinline : ∀ text, BothAlike (.respaced r source) Node.seen (interpolated text (p.offset + 1))
      (interpolated text (p'.offset + 1)) := fun text => interpolated_alike _ _ _ _
  unfold Head.tagTail
  simp only [h.line]
  split
  · exact ⟨.children (.nil _), rfl⟩
  · split
    · exact ⟨.children (.nil _), rfl⟩
    · rename_i after hafter
      split
      · exact ⟨.children (.nil _), rfl⟩
      · exact ⟨.expansion ⟨hline.indent, rfl, h.passLine (gap_isPrefix hafter)⟩, rfl⟩
    · exact ⟨.children rfl, rfl⟩
    · exact ⟨.children rfl, rfl⟩
    · split
      · exact ⟨.children (.nil _), rfl⟩
      · exact ⟨.children (hinline _).values, (hinline _).faults⟩
    · split
      · exact ⟨.children (.nil _), rfl⟩
      · exact ⟨.children (hinline _).values, (hinline _).faults⟩
    · exact ⟨.children (.nil _), rfl⟩

/-- The span of a tag goes over the end of a line if the tag copies one. -/
def TagHead.Wraps (source : List Char) (line : Line) (head : TagHead) : Prop :=
  ∀ text ∈ head.copied, '\n' ∈ text.toList →
    (Span.between line.start head.place.lineStop).wraps source = true

theorem tag_alike {head head' : TagHead} (h : head.Respaced r head') (hwraps : head.Wraps source line)
    (line' : Line) (name : List Char) {nodes nodes' : List Node}
    (hnodes : Alike (.respaced r source) Node.seen nodes nodes') :
    (head'.tag line' name nodes').seen .plain = (head.tag line name nodes).seen (.respaced r source) := by
  let s := Span.between line.start head.place.lineStop
  have hclasses : classNames head'.parts = classNames head.parts := by
    rw [← classNames_seen .plain, h.parts, classNames_seen]
  have hparts : Alike ((View.respaced r source).within s) TagPart.seen head.parts head'.parts := by
    apply h.parts.within
    rintro (_ | a) hpart
    · rfl
    · have hseen : a.seen ((View.respaced r source).within s) = a.seen (.copying r) :=
        Attribute.seen_within fun text htext =>
          hwraps text (List.mem_append_left _ (List.mem_flatMap.mpr ⟨_, hpart, htext⟩))
      exact congrArg TagPart.attribute hseen
  have hspreads : Alike ((View.respaced r source).within s) Spread.seen head.spreads head'.spreads := by
    apply h.spreads.within
    intro spread hspread
    exact Spread.seen_within (hwraps _ (List.mem_append_right _ (List.mem_map_of_mem hspread)))
  have hattributes : Alike ((View.respaced r source).within s) Attribute.seen
      (tagAttributes (classNames head.parts) head.parts)
      (tagAttributes (classNames head.parts) head'.parts) := by
    rw [Alike, tagAttributes_seen _ h.classes, tagAttributes_seen _ h.classes, hparts]
  simp only [TagHead.tag, Node.seen, seenNodes_eq_map, hclasses, h.ending, View.plain_within]
  rw [hattributes, hspreads, hnodes]

/-- The heads of lines behind a colon are read alike. -/
def ExpandsAlike (r : Respacing) (source : List Char) (line line' : Line)
    (expand expand' : HeadReader) : Prop :=
  ∀ sub sub' rest rest', Abreast r source sub sub' rest rest' →
    sub.onward.length < line.onward.length → sub'.onward.length < line'.onward.length →
    HeadAlike r source (expand sub rest) (expand' sub' rest')

theorem expanded_alike {head head' : TagHead} (h : head.Respaced r head') (hwraps : head.Wraps source line)
    (line' : Line) (name : List Char) (sub sub' : Line) {inner inner' : Reading Head}
    (hinner : HeadAlike r source inner inner') :
    HeadAlike r source (head.expanded line name sub inner) (head'.expanded line' name sub' inner') := by
  have hempty := tag_alike h hwraps line' name (.nil Node.seen)
  have hbody : head'.body = head.body := by rw [TagHead.body, h.ending, TagHead.body]
  have hsingle : ∀ {nodes nodes' : List Node}, Alike (.respaced r source) Node.seen nodes nodes' →
      (Head.single (head.tag line name nodes) head.body).Alike (.respaced r source)
        (.single (head'.tag line' name nodes') head'.body) := by
    intro nodes nodes' hnodes
    refine .node ?_
    simp only [Pending.seen, tag_alike h hwraps line' name hnodes, hbody]
    rfl
  have hfaults := h.faults.respaced.append hinner.faults
  obtain ⟨value, faults, rest⟩ := inner
  obtain ⟨value', faults', rest'⟩ := inner'
  obtain ⟨hvalue, -, hleft⟩ := hinner
  simp only at hvalue hfaults hleft
  cases hvalue with
  | @node pending pending' hpending =>
    obtain ⟨hhosts, hnode, hkind⟩ := Pending.mk.inj hpending
    refine ⟨.node ?_, hfaults, hleft⟩
    simp only [Pending.seen, List.map_cons, hempty, hhosts, hnode, hkind]
  | text hnodes piped => exact ⟨hsingle hnodes, hfaults, hleft⟩
  | elseBranch | whenBranch | skip => exact ⟨hsingle (.nil _), hfaults.append rfl, hleft⟩

theorem Line.Placed.take_isPrefix (h : line.Placed source) (length : Nat) :
    line.text.take length <+: line.front.line := by
  rw [Place.line, ← h.content]
  exact List.take_prefix _ _

/-- The line behind a colon stands at the place that the tag's head reaches. -/
theorem expansion_placed {text : List Char} (hplaced : line.Placed text)
    (hfollow : line.front.LinesAfter lines) (hreach : line.front.Reaches lines p rest)
    {selfClosing : Bool} {sub : Line} (hsub : (Head.tagTail line selfClosing p).1 = .expansion sub) :
    sub.Placed text ∧ sub.front.LinesAfter rest ∧ sub.onward.length < line.onward.length := by
  obtain ⟨hpass, htext, hless⟩ := tagTail_expansion hsub rest
  have hplace := hreach.trans hpass
  exact ⟨⟨htext, hplace.placeIn hplaced.place⟩, hplace.follow hfollow,
    Nat.lt_of_lt_of_le hless hreach.length_le⟩

theorem ofTag_respaced {expand expand' : HeadReader} (h : Abreast r source line line' lines lines')
    {name : List Char} (hname : name <+: line.front.line)
    (hexpand : ExpandsAlike r source line line' expand expand') :
    HeadAlike r source (Head.ofTag expand line name lines) (Head.ofTag expand' line' name lines') := by
  have hname' : name <+: line'.front.line := h.alike.place.line ▸ hname
  have hstart : (line.afterName name).Respaced r (line'.afterName name) := h.alike.place.passLine hname
  have hhead := tagHead_respaced hstart lines lines' (Nat.lt_succ_self _) (Nat.lt_succ_self _)
  have hreach : line.front.Reaches lines _ _ := (Place.Reaches.skip hname lines).trans
    (Place.Reaches.tagHead ((line.afterName name).text.length + 1) (line.afterName name) lines)
  have hreach' : line'.front.Reaches lines' _ _ := (Place.Reaches.skip hname' lines').trans
    (Place.Reaches.tagHead ((line'.afterName name).text.length + 1) (line'.afterName name) lines')
  have hwraps : TagHead.Wraps source line
      (tagHead ((line.afterName name).text.length + 1) (line.afterName name) lines) := by
    intro text htext hfeed
    have hfeeds := (Place.Reaches.skip hname lines).feedsTo (tagHead_feedsTo htext hfeed)
    exact hfeeds.wraps h.placed.place hreach
  rw [Head.ofTag_eq, Head.ofTag_eq]
  generalize tagHead _ (line.afterName name) lines = head at hhead hreach hwraps ⊢
  generalize tagHead _ (line'.afterName name) lines' = head' at hhead hreach' ⊢
  simp only [hhead.ending]
  have htail := tagTail_respaced source h.alike hhead.place (head.ending = .selfClosing)
  have hsub : ∀ sub, (Head.tagTail line (head.ending = .selfClosing) head.place).1 = .expansion sub → _ :=
    fun _ => expansion_placed h.placed h.follow hreach
  have hsub' : ∀ sub, (Head.tagTail line' (head.ending = .selfClosing) head'.place).1 = .expansion sub → _ :=
    fun _ => expansion_placed h.placed' h.follow' hreach'
  generalize Head.tagTail line (head.ending = .selfClosing) head.place = tail at htail hsub ⊢
  generalize Head.tagTail line' (head.ending = .selfClosing) head'.place = tail' at htail hsub' ⊢
  obtain ⟨tail, faults⟩ := tail
  obtain ⟨tail', faults'⟩ := tail'
  obtain ⟨htail, hfaults⟩ := htail
  simp only at htail hfaults hsub hsub'
  unfold TagHead.followed
  cases htail with
  | children hnodes =>
    refine ⟨.node ?_, hhead.faults.respaced.append hfaults, ?_⟩
    · simp only [Pending.seen, tag_alike hhead hwraps line' name hnodes, TagHead.body, hhead.ending]
      rfl
    · exact hhead.place.lines (hreach.follow h.follow) (hreach'.follow h.follow')
  | @expansion sub sub' hline =>
    obtain ⟨hplaced, hfollow, hless⟩ := hsub sub rfl
    obtain ⟨hplaced', hfollow', hless'⟩ := hsub' sub' rfl
    exact expanded_alike hhead hwraps line' name sub sub'
      (hexpand sub sub' _ _ ⟨hline, hplaced, hplaced', hfollow, hfollow'⟩ hless hless')

theorem callFrom_respaced (h : Abreast r source line line' lines lines') (name : String)
    {arguments arguments' : Option String} {p' : Place} {rest' : List Line} (hp : p.Respaced r p')
    (hreach : line.front.Reaches lines p rest) (hreach' : line'.front.Reaches lines' p' rest')
    (harguments : arguments' = arguments.map (View.copying r).copied)
    (hfeeds : ∀ text ∈ arguments, '\n' ∈ text.toList → line.front.FeedsTo p) :
    HeadAlike r source (Head.callFrom line name arguments p rest)
      (Head.callFrom line' name arguments' p' rest') := by
  have hgroups := attributeGroups_respaced hp rest rest' (Nat.lt_succ_self _) (Nat.lt_succ_self _)
  have hpass := Place.Reaches.attributeGroups (p.text.length + 1) p rest
  have hwhole := hreach.trans hpass
  have hwhole' := hreach'.trans (Place.Reaches.attributeGroups (p'.text.length + 1) p' rest')
  have hcopied : ∀ text ∈ (attributeGroups (p.text.length + 1) p rest).copied, '\n' ∈ text.toList →
      (Span.between line.start
        (attributeGroups (p.text.length + 1) p rest).place.lineStop).wraps source = true := by
    intro text htext hfeed
    have hgroup := hreach.feedsTo (attributeGroups_feedsTo _ rest htext hfeed)
    exact hgroup.wraps h.placed.place hwhole
  unfold Head.callFrom
  generalize attributeGroups (p.text.length + 1) p rest = g at hgroups hpass hwhole hcopied ⊢
  generalize attributeGroups (p'.text.length + 1) p' rest' = g' at hgroups hwhole' ⊢
  have hattributes : Alike ((View.respaced r source).within (Span.between line.start g.place.lineStop))
      Attribute.seen g.attributes g'.attributes := by
    apply hgroups.attributes.within
    intro a ha
    exact Attribute.seen_within fun text htext =>
      hcopied text (List.mem_append_left _ (List.mem_flatMap.mpr ⟨a, ha, htext⟩))
  have hspreads : Alike ((View.respaced r source).within (Span.between line.start g.place.lineStop))
      Spread.seen g.spreads g'.spreads := by
    apply hgroups.spreads.within
    intro spread hspread
    exact Spread.seen_within (hcopied _ (List.mem_append_right _ (List.mem_map_of_mem hspread)))
  have hargs : arguments'.map View.plain.copied =
      arguments.map ((View.respaced r source).within (Span.between line.start g.place.lineStop)).copied := by
    cases arguments with
    | none =>
      rw [harguments]
      rfl
    | some text =>
      have hcopy := copied_within (r := r) fun hfeed =>
        ((hfeeds text rfl hfeed).reaches hpass).wraps h.placed.place hwhole
      rw [harguments, Option.map_some, Option.map_some, Option.map_some, hcopy]
      rfl
  simp only [hgroups.place.line]
  refine ⟨.node ?_, hgroups.faults.respaced.append ?_, ?_⟩
  · simp only [Pending.seen, Node.seen, View.plain_within, hargs]
    rw [hattributes, hspreads]
    rfl
  · split <;> rfl
  · exact hgroups.place.lines (hwhole.follow h.follow) (hwhole'.follow h.follow')

theorem ofMixinCall_respaced (h : Abreast r source line line' lines lines') (length : Nat) :
    HeadAlike r source (Head.ofMixinCall line length lines) (Head.ofMixinCall line' length lines') := by
  have hname := h.placed.take_isPrefix length
  have hname' := h.placed'.take_isPrefix length
  rw [h.alike.text] at hname'
  have hstart : (line.afterName (line.text.take length)).Respaced r
      (line'.afterName (line.text.take length)) := h.alike.place.passLine hname
  have hreach : line.front.Reaches lines (line.afterName (line.text.take length)) lines :=
    Place.Reaches.skip hname lines
  have hreach' : line'.front.Reaches lines' (line'.afterName (line.text.take length)) lines' :=
    Place.Reaches.skip hname' lines'
  rw [Head.ofMixinCall_eq, Head.ofMixinCall_eq, h.alike.text]
  simp only [hstart.line]
  split
  · rcases parenthesised?_respaced hstart lines lines' with ⟨hnone, hnone'⟩ |
      ⟨inner, after, rest, after', rest', hsome, hsome', hafter, -⟩
    · rw [hnone, hnone']
      exact ⟨.skip, rfl, h.left⟩
    · rw [hsome, hsome']
      refine callFrom_respaced h _ hafter (hreach.trans (.parenthesised hsome))
        (hreach'.trans (.parenthesised hsome')) ?_ ?_
      · rw [Respacing.trim_text, Respacing.ofList_text]
        rfl
      · rintro text ⟨⟩ hfeed
        rw [String.toList_ofList] at hfeed
        exact hreach.feedsTo (parenthesised?_feedsTo hsome (trim_subset inner hfeed))
  · exact callFrom_respaced h _ hstart hreach hreach' rfl fun _ htext => (nomatch htext)

/-- The head of a line says the same in the respaced source, if the head after a colon does. -/
theorem step_respaced {expand expand' : HeadReader} (h : Abreast r source line line' lines lines')
    (hexpand : ExpandsAlike r source line line' expand expand') :
    HeadAlike r source (Head.step source expand line lines)
      (Head.step (r.whole source) expand' line' lines') := by
  have hrest : ∀ front, ((⟨line'.start, line.text⟩ : Place).skip front).text =
      ((⟨line.start, line.text⟩ : Place).skip front).text := fun _ => rfl
  unfold Head.step
  simp only [h.alike.text]
  cases Marker.leading? line.text with
  | none => exact .ofResult h rfl
  | some result =>
    obtain ⟨marker, length⟩ := result
    cases marker with
    | tagName => exact ofTag_respaced h (h.placed.take_isPrefix length) hexpand
    | className | idName => exact ofTag_respaced h List.nil_prefix hexpand
    | mixinCall => exact ofMixinCall_respaced h length
    | keyword k => exact .ofResult h (ofKeyword_respaced h k (hrest _))
    | interpolatedTag => exact .ofResult h (Head.ofInterpolatedTag_seen _ h.alike.text)
    | pipe =>
      have htext : ∀ text start start', HeadAlike r source
          ⟨.text (interpolated text start).1 true, (interpolated text start).2, lines⟩
          ⟨.text (interpolated text start').1 true, (interpolated text start').2, lines'⟩ :=
        fun text start start' =>
          have halike := interpolated_alike (.respaced r source) text start start'
          ⟨.text halike.values true, halike.faults, h.left⟩
      simp only [hrest]
      split
      · exact htext _ _ _
      · exact htext _ _ _
    | _ => exact .ofResult h rfl

/-- The head of a line says the same in the respaced source. -/
theorem read_respaced {n k : Nat} (h : Abreast r source line line' lines lines')
    (hn : line.onward.length < n) (hk : line'.onward.length < k) :
    HeadAlike r source (Head.read source n line lines) (Head.read (r.whole source) k line' lines') := by
  induction n generalizing k line line' lines lines' with
  | zero => omega
  | succ n ih =>
    cases k with
    | zero => omega
    | succ k =>
      refine step_respaced h ?_
      intro sub sub' rest rest' hsub hless hless'
      exact ih hsub (by omega) (by omega)

end PugComponents.Template
