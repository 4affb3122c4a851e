import PugComponents.Proofs.Template.KeywordHeads
import PugComponents.Proofs.Template.Places
import PugComponents.Proofs.Template.Shift

/- A source inside a larger one. The larger source puts bytes and lines in front
   of a source and may go on after it on a new line; a `Motion` says how. Read
   inside the larger source, the head of a line says what it says in its own
   source, shifted (`read_move`). Only a parenthesis that is never closed can
   tell the two apart, since it is looked for up to the end; where something
   follows, a fault of that kind is therefore excluded (`Motion.Fair`). -/
namespace PugComponents.Template

open Text

/-- A source, and a larger one that it stands in, `bytes` bytes and `count` lines after the start.
After it the larger source goes on with `tail`, whose lines are `extra`; the first of them is
indented by `floor` at most. -/
structure Motion where
  source : List Char
  whole : List Char
  bytes : Nat
  count : Nat
  tail : List Char
  extra : List Line
  floor : Nat
  /-- Nothing is added to the last line. -/
  seam : tail = [] ∨ ∃ t, tail = '\n' :: t
  extra_start : ∀ line ∈ extra, byteLength source + bytes < line.start
  /-- The lines after the source are no part of a block that is indented more. -/
  extra_indent : ∀ line ∈ (written extra).head?, line.indent ≤ floor
  column_eq : ∀ offset ≤ byteLength source,
    columnAt whole (offset + bytes) = columnAt source offset

namespace Motion

variable (m : Motion)

/-- The place in the larger source. -/
def place (p : Place) : Place := ⟨p.offset + m.bytes, p.text ++ m.tail⟩

/-- The line in the larger source. -/
def line (line : Line) : Line := line.within m.bytes m.count m.tail

/-- The lines in the larger source, with those after the source. -/
def lines (lines : List Line) : List Line := lines.map m.line ++ m.extra

/-- No fault tells that the source ends here. -/
def Fair (faults : List Fault) : Prop :=
  m.tail = [] ∨ ∀ fault ∈ faults, fault.cause ≠ .unclosedDelimiter '('

variable {m}

theorem Fair.mono {faults more : List Fault} (h : m.Fair more) (hsub : faults ⊆ more) :
    m.Fair faults :=
  h.imp_right fun hall fault hfault => hall fault (hsub hfault)

theorem Fair.left {a b : List Fault} (h : m.Fair (a ++ b)) : m.Fair a :=
  h.mono (List.subset_append_left a b)

theorem Fair.right {a b : List Fault} (h : m.Fair (a ++ b)) : m.Fair b :=
  h.mono (List.subset_append_right a b)

@[simp] theorem place_offset (p : Place) : (m.place p).offset = p.offset + m.bytes := rfl

@[simp] theorem line_start (line : Line) : (m.line line).start = line.start + m.bytes := rfl

@[simp] theorem line_text (line : Line) : (m.line line).text = line.text := rfl

@[simp] theorem line_indent (line : Line) : (m.line line).indent = line.indent := rfl

@[simp] theorem line_stop (line : Line) : (m.line line).stop = line.stop + m.bytes :=
  Nat.add_right_comm _ _ _

@[simp] theorem line_span (line : Line) : (m.line line).span = line.span.shift m.bytes := by
  rw [Line.span, line_start, line_stop]
  rfl

theorem lineContent_tail (text : List Char) : lineContent (text ++ m.tail) = lineContent text := by
  rcases m.seam with h | ⟨t, h⟩
  · rw [h, List.append_nil]
  · rw [h, lineContent_append_feed]

@[simp] theorem place_line (p : Place) : (m.place p).line = p.line := lineContent_tail p.text

@[simp] theorem place_lineStop (p : Place) : (m.place p).lineStop = p.lineStop + m.bytes := by
  rw [Place.lineStop, place_line, Place.lineStop, Nat.add_right_comm]
  rfl

/-- What is passed is a part of the source. -/
theorem place_skip {p : Place} {front : List Char} (h : front <+: p.text) :
    (m.place p).skip front = m.place (p.skip front) := by
  have hdrop : (p.text ++ m.tail).drop front.length = p.text.drop front.length ++ m.tail :=
    List.drop_append_of_le_length h.length_le
  simp only [Place.skip, place, hdrop, Nat.add_right_comm _ m.bytes]

theorem place_toLineEnd (p : Place) : (m.place p).toLineEnd = m.place p.toLineEnd := by
  rw [Place.toLineEnd, place_line]
  exact place_skip (lineContent_isPrefix p.text)

end Motion

/-! ## Groups -/

namespace Motion

/-- What groups give in the larger source. -/
def groups (m : Motion) (g : Groups) : Groups :=
  { attributes := g.attributes.map (Attribute.shift m.bytes)
    spreads := g.spreads.map (Spread.shift m.bytes)
    faults := g.faults.map (Fault.shift m.bytes)
    place := m.place g.place
    lines := m.lines g.lines
    closed := g.closed }

variable {m : Motion}

/-- The lines up to an offset in the source are dropped; those after the source stay. -/
theorem dropWhile_lines {close : Nat} (h : close < byteLength m.source) (lines : List Line) :
    (m.lines lines).dropWhile (·.start ≤ close + m.bytes) =
      m.lines (lines.dropWhile (·.start ≤ close)) := by
  have hextra : m.extra.dropWhile (·.start ≤ close + m.bytes) = m.extra := by
    cases hx : m.extra with
    | nil => rfl
    | cons first rest =>
      have := m.extra_start first (by rw [hx]; exact List.mem_cons_self ..)
      rw [List.dropWhile_cons_of_neg (by simp only [decide_eq_true_eq]; omega)]
  induction lines with
  | nil => exact hextra
  | cons line lines ih =>
    simp only [Motion.lines, List.map_cons, List.cons_append, List.dropWhile_cons, line_start,
      Nat.add_le_add_iff_right] at ih ⊢
    split
    · exact ih
    · rfl

theorem parenthesised?_some {p after : Place} {lines rest : List Line} {inner : List Char}
    (hp : p.In m.source) (h : parenthesised? p lines = some (inner, after, rest)) :
    parenthesised? (m.place p) (m.lines lines) = some (inner, m.place after, m.lines rest) := by
  obtain ⟨hgroup, hoffset, hrest⟩ := parenthesised?_eq_some h
  have hafter := ((Place.Reaches.parenthesised h).placeIn hp).stop_eq
  rw [Place.stop] at hafter
  have hclose : p.offset + 1 + byteLength inner < byteLength m.source := by omega
  have hlines := dropWhile_lines hclose lines
  have hgroup' : group? (m.place p).text = some (inner, after.text ++ m.tail) :=
    group?_append hgroup m.tail
  rw [parenthesised?_eq, hgroup', hrest, ← hlines]
  simp only [Option.map_some, Motion.place, Nat.add_right_comm _ m.bytes, hoffset]

theorem unclosedGroup_place (p : Place) :
    unclosedGroup (m.place p) = (unclosedGroup p).shift m.bytes := by
  rw [unclosedGroup, place_lineStop]
  exact congrArg (Fault.mk _) (Span.between_shift m.bytes p.offset p.lineStop)

/-- A group that is not closed in its source is not closed in the larger one, if nothing follows. -/
theorem parenthesised?_none {p : Place} {lines : List Line} (h : parenthesised? p lines = none)
    (hfair : m.Fair [unclosedGroup p]) : parenthesised? (m.place p) (m.lines lines) = none := by
  rcases hfair with htail | hfair
  · rw [parenthesised?_eq, Option.map_eq_none_iff] at h ⊢
    rw [Motion.place, htail, List.append_nil]
    exact h
  · exact absurd rfl (hfair (unclosedGroup p) (List.mem_singleton_self _))

theorem attributeGroup?_move {p : Place} (hp : p.In m.source) (lines : List Line)
    (hfair : ∀ g, attributeGroup? p lines = some g → m.Fair g.faults) :
    attributeGroup? (m.place p) (m.lines lines) = (attributeGroup? p lines).map m.groups := by
  unfold attributeGroup? at hfair ⊢
  rw [place_line]
  split
  · rename_i hopen
    simp only [hopen, if_true] at hfair
    cases hgroup : parenthesised? p lines with
    | none =>
      rw [hgroup] at hfair
      simp only [parenthesised?_none hgroup (hfair _ rfl), place_toLineEnd, unclosedGroup_place]
      rfl
    | some result =>
      obtain ⟨inner, after, rest⟩ := result
      have hlist : attributeList inner ((m.place p).offset + 1) =
          shiftBoth m.bytes (Attribute.shift m.bytes) (attributeList inner (p.offset + 1)) := by
        rw [← attributeList_shift, place_offset, Nat.add_right_comm]
      simp only [parenthesised?_some hp hgroup, hlist]
      rfl
  · rename_i hopen
    rw [if_neg hopen] at hfair
    split
    · rename_i hlead
      simp only [hlead, if_true] at hfair
      have hstart := hp.skip (Place.inText (spreadLead_isPrefix hlead))
      simp only [place_skip (Place.inText (spreadLead_isPrefix hlead))]
      cases hgroup : parenthesised? (p.skip spreadLead) lines with
      | none =>
        rw [hgroup] at hfair
        simp only [parenthesised?_none hgroup (hfair _ rfl), place_toLineEnd, unclosedGroup_place]
        rfl
      | some result =>
        obtain ⟨inner, after, rest⟩ := result
        simp only [parenthesised?_some hstart hgroup, place_offset, Span.between_shift]
        rfl
    · rfl

theorem attributeGroups_move {p : Place} (hp : p.In m.source) (lines : List Line) {n k : Nat}
    (hn : p.text.length < n) (hk : p.text.length < k)
    (hfair : m.Fair (attributeGroups n p lines).faults) :
    attributeGroups k (m.place p) (m.lines lines) = m.groups (attributeGroups n p lines) := by
  induction n generalizing k p lines with
  | zero => omega
  | succ n ih =>
    cases k with
    | zero => omega
    | succ k =>
      rw [attributeGroups] at hfair ⊢
      rw [attributeGroups]
      cases hg : attributeGroup? p lines with
      | none =>
        have hmove := attributeGroup?_move hp lines (fun g h => by rw [hg] at h; cases h)
        rw [hmove, hg]
        rfl
      | some g =>
        have hin := (Place.Reaches.attributeGroup hg).placeIn hp
        have hshorter := attributeGroup?_shorter hg
        rw [hg] at hfair
        cases hclosed : g.closed with
        | true =>
          simp only [hclosed, if_true] at hfair
          have hmove := attributeGroup?_move hp lines
            (fun g' h => by rw [hg] at h; cases h; exact hfair.left)
          have hlt := hshorter hclosed
          have hmore := ih hin g.lines (k := k) (by omega) (by omega) hfair.right
          rw [hmove, hg]
          simp only [Option.map_some, Motion.groups, hclosed, if_true] at hmore ⊢
          rw [hmore]
          simp
        | false =>
          simp only [hclosed, Bool.false_eq_true, if_false] at hfair
          have hmove := attributeGroup?_move hp lines
            (fun g' h => by rw [hg] at h; cases h; exact hfair)
          rw [hmove, hg]
          simp [Motion.groups, hclosed]

/-- The head of a tag in the larger source. -/
def tagHead (m : Motion) (h : TagHead) : TagHead :=
  { parts := h.parts.map (TagPart.shift m.bytes)
    spreads := h.spreads.map (Spread.shift m.bytes)
    ending := h.ending
    faults := h.faults.map (Fault.shift m.bytes)
    place := m.place h.place
    lines := m.lines h.lines }

theorem tagHead_move {p : Place} (hp : p.In m.source) (lines : List Line) {n k : Nat}
    (hn : p.text.length < n) (hk : p.text.length < k)
    (hfair : m.Fair (Template.tagHead n p lines).faults) :
    Template.tagHead k (m.place p) (m.lines lines) = m.tagHead (Template.tagHead n p lines) := by
  fun_induction Template.tagHead n p lines generalizing k with
  | case1 => omega
  | case2 n p lines after hline hname hblank =>
    obtain ⟨k, rfl⟩ := Nat.exists_eq_add_of_lt hk
    rw [Template.tagHead, place_line, hline]
    simp only [hname, hblank, if_true, place_toLineEnd]
    rfl
  | case3 n p lines after hline hname hblank =>
    obtain ⟨k, rfl⟩ := Nat.exists_eq_add_of_lt hk
    rw [Template.tagHead, place_line, hline]
    simp only [hname, hblank]
    rfl
  | case4 n p lines after hline hname next ih =>
    obtain ⟨k, rfl⟩ := Nat.exists_eq_add_of_lt hk
    have hnamed := Place.inText (named_isPrefix hline)
    have hlt : next.text.length < p.text.length := Place.length_skip_lt hnamed
    have hmore := ih (k := p.text.length + k) (hp.skip hnamed) (by omega) (by omega) hfair
    rw [tagHead_class ((place_line p).trans hline) hname, place_skip hnamed, hmore, place_offset,
      place_offset, Span.between_shift]
    rfl
  | case5 n p lines after hline hname =>
    obtain ⟨k, rfl⟩ := Nat.exists_eq_add_of_lt hk
    rw [Template.tagHead, place_line, hline]
    simp only [hname]
    rfl
  | case6 n p lines after hline hname next ih =>
    obtain ⟨k, rfl⟩ := Nat.exists_eq_add_of_lt hk
    have hnamed := Place.inText (named_isPrefix hline)
    have hlt : next.text.length < p.text.length := Place.length_skip_lt hnamed
    have hmore := ih (k := p.text.length + k) (hp.skip hnamed) (by omega) (by omega) hfair
    rw [tagHead_id ((place_line p).trans hline) hname, place_skip hnamed, hmore, place_offset,
      place_offset, Span.between_shift]
    rfl
  | case7 n p lines after hline =>
    obtain ⟨k, rfl⟩ := Nat.exists_eq_add_of_lt hk
    rw [Template.tagHead, place_line, hline]
    simp only [place_skip (Place.inText (sign_isPrefix hline))]
    rfl
  | case8 n p lines hg hdot hhash hslash =>
    obtain ⟨k, rfl⟩ := Nat.exists_eq_add_of_lt hk
    have hmove := attributeGroup?_move hp lines (fun g h => by rw [hg] at h; cases h)
    rw [tagHead_group (by simpa using hdot) (by simpa using hhash) (by simpa using hslash), hmove, hg]
    rfl
  | case9 n p lines g hg more hdot hhash hslash ih =>
    obtain ⟨k, rfl⟩ := Nat.exists_eq_add_of_lt hk
    have hin := (Place.Reaches.attributeGroup hg).placeIn hp
    have hshorter := attributeGroup?_shorter hg
    have hmove := attributeGroup?_move hp lines
      (fun g' h => by rw [hg] at h; cases h; exact hfair.left)
    rw [tagHead_group (by simpa using hdot) (by simpa using hhash) (by simpa using hslash), hmove, hg]
    have hmore : (if g.closed then Template.tagHead (p.text.length + k) (m.place g.place) (m.lines g.lines)
        else .ended .plain (m.place g.place) (m.lines g.lines)) = m.tagHead more := by
      unfold more at hfair ⊢
      cases hclosed : g.closed with
      | true =>
        have hlt := hshorter hclosed
        rw [if_pos hclosed] at hfair
        exact ih hin (by omega) (by omega) hfair.right
      | false => rfl
    show Groups.before (m.groups g) _ = m.tagHead (g.before more)
    rw [show (m.groups g).closed = g.closed from rfl, show (m.groups g).place = m.place g.place from rfl,
      show (m.groups g).lines = m.lines g.lines from rfl, hmore]
    simp [Groups.before, Motion.tagHead, Motion.groups, TagPart.shift]

/-! ## Heads -/

/-- A head, its faults and the lines left, in the larger source. -/
def reading (m : Motion) (r : Reading Head) : Reading Head :=
  ⟨r.value.shift m.bytes, r.faults.map (Fault.shift m.bytes), m.lines r.lines⟩

theorem ofInterpolatedTag_move (line : Line) :
    Head.ofInterpolatedTag (m.line line) =
      Head.shiftResult m.bytes (Head.ofInterpolatedTag line) := by
  unfold Head.ofInterpolatedTag
  simp only [line_span, line_text]
  cases hgroup : group? (line.text.drop 1) with
  | none => rfl
  | some result =>
    obtain ⟨inner, after⟩ := result
    have hle : byteLength after ≤ line.stop := by
      obtain ⟨opener, closer, -, htext⟩ := group?_eq_some hgroup
      have hbytes := congrArg byteLength (List.take_append_drop 1 line.text)
      rw [htext, byteLength_append, byteLength, byteLength_append, byteLength] at hbytes
      rw [Line.stop]
      omega
    simp only [line_stop, Nat.sub_add_comm hle, Span.between_shift]
    split <;> rfl

theorem ofKeyword_move {line : Line} (hplaced : line.Placed m.source) (keyword : Keyword)
    (rest : Place) :
    Head.ofKeyword m.whole (m.line line) keyword (rest.shift m.bytes) =
      Head.shiftResult m.bytes (Head.ofKeyword m.source line keyword rest) := by
  have hcolumn : columnAt m.whole (m.line line).start = columnAt m.source line.start := by
    have := hplaced.total
    exact m.column_eq line.start (by omega)
  obtain ⟨offset, text⟩ := rest
  obtain ⟨f, hf, heq⟩ := Head.ofKeyword_worded keyword text
  rw [Place.shift, heq, heq, hcolumn, line_span]
  have harguments : Place.arguments ⟨offset + m.bytes, text⟩ (m.line line).stop =
      (Place.arguments ⟨offset, text⟩ line.stop).shift m.bytes := by
    simp only [Place.arguments, Place.skipWhile, Place.skip, line_stop, Nat.add_right_comm _ m.bytes,
      Span.between_shift]
  rw [harguments]
  cases hf <;> rfl

/-- What follows the head of a tag, in the larger source. -/
def tagTail (m : Motion) : Head.Tail → Head.Tail
  | .children nodes => .children (nodes.map (Node.shift m.bytes))
  | .expansion sub => .expansion (m.line sub)

theorem tagTail_move (line : Line) (selfClosing : Bool) (p : Place) :
    Head.tagTail (m.line line) selfClosing (m.place p) =
      (m.tagTail (Head.tagTail line selfClosing p).1,
        (Head.tagTail line selfClosing p).2.map (Fault.shift m.bytes)) := by
  unfold Head.tagTail
  simp only [place_line, place_lineStop, place_offset, Span.between_shift, Nat.add_right_comm _ m.bytes 1,
    interpolated_shift]
  split
  · rfl
  · split
    · rfl
    · rename_i after hline
      split
      · rfl
      · rw [place_skip (Place.inText (gap_isPrefix hline))]
        rfl
    · rfl
    · rfl
    · split <;> rfl
    · split <;> rfl
    · rfl

theorem tag_move (head : TagHead) (line : Line) (name : List Char) (nodes : List Node) :
    (m.tagHead head).tag (m.line line) name (nodes.map (Node.shift m.bytes)) =
      (head.tag line name nodes).shift m.bytes := by
  simp only [TagHead.tag, Motion.tagHead, place_lineStop, classNames_shift, tagAttributes_shift,
    Node.shift, shiftNodes_eq_map, ← Span.between_shift]
  rfl

theorem expanded_move (head : TagHead) (line : Line) (name : List Char) (sub : Line)
    (inner : Reading Head) :
    (m.tagHead head).expanded (m.line line) name (m.line sub) (m.reading inner) =
      m.reading (head.expanded line name sub inner) := by
  have htag : ∀ nodes, (m.tagHead head).tag (m.line line) name (nodes.map (Node.shift m.bytes)) =
      (head.tag line name nodes).shift m.bytes := tag_move head line name
  have hempty : (m.tagHead head).tag (m.line line) name [] =
      (head.tag line name []).shift m.bytes := htag []
  have hfaults : (m.tagHead head).faults = head.faults.map (Fault.shift m.bytes) := rfl
  have hbody : (m.tagHead head).body = head.body := rfl
  obtain ⟨value, faults, lines⟩ := inner
  cases value with
  | node pending =>
    simp only [TagHead.expanded, Motion.reading, Head.shift, hempty, hfaults, List.map_append]
    rfl
  | text nodes piped =>
    simp only [TagHead.expanded, Motion.reading, Head.shift, htag, hfaults, hbody, List.map_append]
    rfl
  | elseBranch | whenBranch | skip =>
    simp only [TagHead.expanded, Motion.reading, Head.shift, hempty, hfaults, hbody, line_span,
      List.map_append]
    rfl

/-- Both the head of a tag and what follows it on the line tell their faults. -/
theorem followed_faults (head : TagHead) (line : Line) (name : List Char) (expand : HeadReader)
    (tail : Head.Tail × List Fault) :
    head.faults ⊆ (head.followed line name expand tail).faults ∧
      ∀ sub, tail.1 = .expansion sub →
        (expand sub head.lines).faults ⊆ (head.followed line name expand tail).faults := by
  have hexpanded : ∀ sub inner, head.faults ++ inner.faults ⊆
      (head.expanded line name sub inner).faults := by
    intro sub inner
    unfold TagHead.expanded
    simp only
    split
    · exact List.Subset.refl _
    · exact List.Subset.refl _
    · exact List.subset_append_left _ _
  obtain ⟨tail, faults⟩ := tail
  cases tail with
  | children nodes => exact ⟨List.subset_append_left _ _, fun sub h => by cases h⟩
  | expansion sub =>
    refine ⟨List.Subset.trans (List.subset_append_left _ _) (hexpanded _ _), ?_⟩
    rintro _ ⟨⟩
    exact List.Subset.trans (List.subset_append_right _ _) (hexpanded _ _)

theorem ofTag_move {expand expand' : HeadReader} {line : Line} (hplaced : line.Placed m.source)
    {name : List Char} (hname : name <+: line.onward) (lines : List Line)
    (hexpand : ∀ sub rest, sub.Placed m.source → sub.onward.length < line.onward.length →
      m.Fair (expand sub rest).faults →
      expand' (m.line sub) (m.lines rest) = m.reading (expand sub rest))
    (hfair : m.Fair (Head.ofTag expand line name lines).faults) :
    Head.ofTag expand' (m.line line) name (m.lines lines) =
      m.reading (Head.ofTag expand line name lines) := by
  have hin : (line.afterName name).In m.source :=
    Place.In.skip (p := ⟨line.start, line.onward⟩) hplaced.place hname
  have hstart : (m.line line).afterName name = m.place (line.afterName name) :=
    place_skip (p := ⟨line.start, line.onward⟩) hname
  have hshorter : (line.afterName name).text.length ≤ line.onward.length := Place.length_skip_le _ _
  have hle : (line.afterName name).text.length < (m.place (line.afterName name)).text.length + 1 := by
    simp only [Motion.place, List.length_append]
    omega
  rw [Head.ofTag_eq] at hfair ⊢
  rw [Head.ofTag_eq, hstart]
  have hreach := Place.Reaches.tagHead ((line.afterName name).text.length + 1) (line.afterName name) lines
  have hend := hreach.placeIn hin
  have hendle := hreach.length_le
  have hhead := tagHead_move hin lines (Nat.lt_succ_self _) hle
  generalize Template.tagHead ((line.afterName name).text.length + 1) (line.afterName name) lines =
    head at hfair hend hendle hhead ⊢
  simp only at hfair ⊢
  obtain ⟨hheadFaults, hsubFaults⟩ := followed_faults head line name expand
    (Head.tagTail line (head.ending = .selfClosing) head.place)
  rw [hhead (hfair.mono hheadFaults)]
  have htail := tagTail_move (m := m) line (head.ending = .selfClosing) head.place
  rw [show (m.tagHead head).place = m.place head.place from rfl,
    show (m.tagHead head).ending = head.ending from rfl, htail]
  have hexpansion : ∀ sub,
      (Head.tagTail line (head.ending = .selfClosing) head.place).1 = .expansion sub →
      sub.Placed m.source ∧ sub.onward.length < head.place.text.length :=
    fun sub h =>
      have ⟨hsub, htext, hless⟩ := tagTail_expansion h []
      ⟨⟨htext, hsub.placeIn hend⟩, hless⟩
  generalize Head.tagTail line (head.ending = .selfClosing) head.place = tail at *
  obtain ⟨tail, faults⟩ := tail
  cases tail with
  | children nodes =>
    simp only [TagHead.followed, Motion.tagTail, tag_move, Motion.reading, List.map_append]
    rfl
  | expansion sub =>
    obtain ⟨hsub, hless⟩ := hexpansion sub rfl
    have hinner := hexpand sub head.lines hsub (by omega) (hfair.mono (hsubFaults sub rfl))
    simp only [TagHead.followed, Motion.tagTail, show (m.tagHead head).lines = m.lines head.lines from rfl,
      hinner, expanded_move]

theorem callFrom_move {p : Place} (hp : p.In m.source) (line : Line) (name : String)
    (arguments : Option String) (lines : List Line)
    (hfair : m.Fair (Head.callFrom line name arguments p lines).faults) :
    Head.callFrom (m.line line) name arguments (m.place p) (m.lines lines) =
      m.reading (Head.callFrom line name arguments p lines) := by
  have hle : p.text.length < (m.place p).text.length + 1 := by
    simp only [Motion.place, List.length_append]
    omega
  have hgroups := attributeGroups_move hp lines (Nat.lt_succ_self _) hle hfair.left
  unfold Head.callFrom
  rw [hgroups]
  generalize attributeGroups (p.text.length + 1) p lines = g
  have hjunk : (m.groups g).place = m.place g.place := rfl
  simp only [hjunk, place_line, place_lineStop, place_offset, line_start, Span.between_shift]
  split
  · simp [Motion.reading, Motion.groups, Head.single, Head.shift, Pending.shift, Node.shift]
  · simp [Motion.reading, Motion.groups, Head.single, Head.shift, Pending.shift, Node.shift,
      Fault.shift]

theorem ofMixinCall_move {line : Line} (hplaced : line.Placed m.source) (length : Nat)
    (lines : List Line) (hfair : m.Fair (Head.ofMixinCall line length lines).faults) :
    Head.ofMixinCall (m.line line) length (m.lines lines) =
      m.reading (Head.ofMixinCall line length lines) := by
  have hname : line.text.take length <+: line.onward := by
    rw [hplaced.content]
    exact (List.take_prefix _ _).trans (lineContent_isPrefix _)
  have hin : (line.afterName (line.text.take length)).In m.source :=
    Place.In.skip (p := ⟨line.start, line.onward⟩) hplaced.place hname
  have hstart : (m.line line).afterName (line.text.take length) =
      m.place (line.afterName (line.text.take length)) :=
    place_skip (p := ⟨line.start, line.onward⟩) hname
  rw [Head.ofMixinCall_eq] at hfair ⊢
  rw [Head.ofMixinCall_eq, line_text, hstart]
  simp only [place_line] at hfair ⊢
  split at hfair
  · rename_i hopen
    rw [if_pos hopen, if_pos hopen]
    cases hgroup : parenthesised? (line.afterName (line.text.take length)) lines with
    | none =>
      rw [hgroup] at hfair
      rw [parenthesised?_none hgroup hfair, unclosedGroup_place]
      rfl
    | some result =>
      obtain ⟨inner, after, rest⟩ := result
      rw [hgroup] at hfair
      rw [parenthesised?_some hin hgroup]
      exact callFrom_move ((Place.Reaches.parenthesised hgroup).placeIn hin) line _ _ rest hfair
  · rename_i hopen
    rw [if_neg hopen, if_neg hopen]
    exact callFrom_move hin line _ _ lines hfair

/-- The head of a line says the same in the larger source, if the head after a colon does. -/
theorem step_move {expand expand' : HeadReader} {line : Line} (hplaced : line.Placed m.source)
    (lines : List Line)
    (hexpand : ∀ sub rest, sub.Placed m.source → sub.onward.length < line.onward.length →
      m.Fair (expand sub rest).faults →
      expand' (m.line sub) (m.lines rest) = m.reading (expand sub rest))
    (hfair : m.Fair (Head.step m.source expand line lines).faults) :
    Head.step m.whole expand' (m.line line) (m.lines lines) =
      m.reading (Head.step m.source expand line lines) := by
  have hfront : ∀ length, line.text.take length <+: line.onward := by
    intro length
    rw [hplaced.content]
    exact (List.take_prefix _ _).trans (lineContent_isPrefix _)
  have hrest : ∀ front, (⟨(m.line line).start, line.text⟩ : Place).skip front =
      ((⟨line.start, line.text⟩ : Place).skip front).shift m.bytes :=
    fun front => Place.shift_skip m.bytes ⟨line.start, line.text⟩ front
  unfold Head.step at hfair ⊢
  simp only [line_text, hrest, line_span] at hfair ⊢
  cases hlead : Marker.leading? line.text with
  | none => rfl
  | some result =>
    obtain ⟨marker, length⟩ := result
    rw [hlead] at hfair
    cases marker with
    | tagName => exact ofTag_move hplaced (hfront length) lines hexpand hfair
    | className | idName => exact ofTag_move hplaced List.nil_prefix lines hexpand hfair
    | mixinCall => exact ofMixinCall_move hplaced length lines hfair
    | keyword k =>
      simp only [ofKeyword_move hplaced]
      rfl
    | interpolatedTag =>
      simp only [ofInterpolatedTag_move]
      rfl
    | pipe =>
      simp only [Place.shift_text, Place.shift_skip]
      split
      · simp only [Place.shift_text, Place.shift_offset, interpolated_shift]
        rfl
      · simp only [Place.shift_text, Place.shift_offset, interpolated_shift]
        rfl
    | _ => rfl

/-- The head of a line says the same in the larger source. -/
theorem read_move {n k : Nat} {line : Line} (hplaced : line.Placed m.source) (lines : List Line)
    (hn : line.onward.length < n) (hk : line.onward.length < k)
    (hfair : m.Fair (Head.read m.source n line lines).faults) :
    Head.read m.whole k (m.line line) (m.lines lines) =
      m.reading (Head.read m.source n line lines) := by
  induction n generalizing k line lines with
  | zero => omega
  | succ n ih =>
    cases k with
    | zero => omega
    | succ k =>
      refine step_move hplaced lines ?_ hfair
      intro sub rest hsub hless hfair
      exact ih hsub rest (by omega) (by omega) hfair

end Motion

end PugComponents.Template
