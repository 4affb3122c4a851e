import PugComponents.Proofs.Template.Columns
import PugComponents.Proofs.Template.Expansions
import PugComponents.Proofs.Template.WrittenLines
import PugComponents.Proofs.Template.WrittenTags

/- Branches on one line. A line `when E: T` under a `case` has an expression and a tag. Where
   the expression has none of the operators `?.` and `??` outside brackets, the test of the
   branch is the expression (`InlineBranch.Sound.head_eq`) and its block is the tag, read as in
   a source of its own (`InlineBranch.Sound.block_eq`); so are all such branches that stand one
   behind the other (`InlineBranch.branchesUnder_inline`). Otherwise the colon is taken for the
   second half of a conditional expression and becomes a part of the test
   (`InlineBranch.Sound.head_awaiting`). -/
namespace PugComponents.Template

open Text

/-! ## Nodes without lines under them -/

theorem Node.addChildren_nil (node : Node) : node.addChildren [] = node := by
  cases node <;> simp [Node.addChildren]

theorem Node.addBranches_nil (node : Node) : node.addBranches [] = node := by
  cases node <;> simp [Node.addBranches]

variable {lines : List Line} {indent : Nat}

theorem nested?_of_flat (h : ∀ line ∈ (written lines).head?, line.indent ≤ indent) :
    nested? (some indent) lines = none := by
  unfold nested?
  cases hskip : skipBlank lines with
  | nil => rfl
  | cons line after =>
    have hline := h line (by rw [(skipBlank_eq_cons hskip).2]; rfl)
    simp only [Line.isUnder, decide_eq_true_eq, Nat.not_lt.mpr hline, if_false]

theorem takeRaw_of_flat (h : ∀ line ∈ (written lines).head?, line.indent ≤ indent) :
    takeRaw indent lines = ⟨none, [], lines⟩ := by
  have hblank : ∀ line ∈ (lines.takeWhile (Line.isChild indent)).reverse, line.isBlank = true :=
    fun line hline => Motion.takeWhile_of_flat h line (List.mem_reverse.mp hline)
  have hraw : rawLines indent lines = [] := by
    rw [rawLines_eq, ← List.append_nil (lines.takeWhile (Line.isChild indent)).reverse,
      List.dropWhile_append_of_pos hblank]
    rfl
  rw [takeRaw, hraw]
  rfl

section

variable {head : HeadReader}

/-- A node with no lines under it is finished as it is. -/
theorem closeUnder_flat (hsub : head.Consumes)
    (h : ∀ line ∈ (written lines).head?, line.indent ≤ indent) (pending : Pending) :
    ∃ rest, closeUnder head pending indent lines = ⟨nestIn pending.hosts pending.node, [], rest⟩ ∧
      skipBlank rest = skipBlank lines := by
  have hnested := nested?_of_flat h
  obtain ⟨hosts, node, body⟩ := pending
  cases body with
  | nodes =>
    refine ⟨skipBlank lines, ?_, skipBlank_idem lines⟩
    simp only [closeUnder, closeWith, closeBody, blockUnder_eq, entriesUnder_eq hsub, hnested, assemble,
      List.reverse_nil, Node.addChildren_nil]
  | textBlock | raw =>
    refine ⟨lines, ?_, rfl⟩
    simp only [closeUnder, closeWith, closeBody, takeRaw_of_flat h]
  | branches =>
    refine ⟨skipBlank lines, ?_, skipBlank_idem lines⟩
    simp only [closeUnder, closeWith, branchesUnder_eq hsub, hnested, Node.addBranches_nil]
  | leaf =>
    refine ⟨skipBlank lines, ?_, skipBlank_idem lines⟩
    simp only [closeUnder, closeWith, closeBody, rejectChildren, hnested]

theorem branchesUnder_skipBlank (hsub : head.Consumes) {lines' : List Line}
    (h : skipBlank lines' = skipBlank lines) (parent : Nat) :
    branchesUnder head parent lines' = branchesUnder head parent lines := by
  rw [branchesUnder_eq hsub, branchesUnder_eq hsub, nested?, nested?, h]

end

/-! ## Tags on one line -/

/-- A text on one line that starts with a tag. -/
structure TagText (text : List Char) : Prop where
  line : '\n' ∉ text
  starts : ∃ marker length, Marker.leading? (lineContent text) = some (marker, length) ∧
    marker.startsTag = true

namespace TagText

variable {text : List Char}

theorem head (h : TagText text) : ∃ c cs, lineContent text = c :: cs ∧ isWhiteSpace c = false := by
  obtain ⟨marker, length, hleading, hmarker⟩ := h.starts
  have hcases : marker = .tagName ∨ marker = .className ∨ marker = .idName := by
    simpa [Marker.startsTag] using hmarker
  rcases hcases with rfl | hsign
  · have hword := wordLength_of_leading?_tagName hleading
    cases hline : lineContent text with
    | nil =>
      rw [hline] at hword
      cases hword
    | cons c cs =>
      rw [hline, Marker.wordLength?] at hword
      split at hword
      · exact ⟨c, cs, rfl, isWhiteSpace_of_isAlpha ‹_›⟩
      · cases hword
  · obtain ⟨c, cs, hline, hc⟩ := head_of_leading? hleading hsign
    refine ⟨c, cs, hline, ?_⟩
    rcases hc with rfl | rfl <;> decide

/-- The head of a tag is a node. -/
theorem read_value (h : TagText text) (source : List Char) (n : Nat) {line : Line}
    (hline : line.text = lineContent text) (lines : List Line) :
    ∃ pending, (Head.read source (n + 1) line lines).value = .node pending := by
  obtain ⟨marker, length, hleading, hmarker⟩ := h.starts
  rw [← hline] at hleading
  rw [Head.read, step_startsTag hmarker hleading, Head.ofTag_eq]
  simp only [TagHead.followed, TagHead.expanded]
  split
  · exact ⟨_, rfl⟩
  · split <;> exact ⟨_, rfl⟩

/-- The text as a line of its own. -/
def own (text : List Char) : Line := ⟨1, 0, 0, lineContent text, text⟩

theorem ofSource (h : TagText text) : Line.ofSource text = [own text] := by
  obtain ⟨c, cs, hcontent, hc⟩ := h.head
  rw [ofSource_line h.line, atFront_of_head hcontent hc]
  rfl

theorem own_written (h : TagText text) : (own text).isBlank = false := by
  obtain ⟨c, cs, hcontent, hc⟩ := h.head
  simp [Line.isBlank, own, hcontent, isBlank, hc]

/-- A tag on one line is the whole document. -/
theorem parse (h : TagText text) :
    ∃ pending faults,
      Head.read text (text.length + 1) (own text) [] = ⟨.node pending, faults, []⟩ ∧
      Document.parse (String.ofList text) =
        (⟨[nestIn pending.hosts pending.node], byteLength text⟩, faults) := by
  have hsub := Head.read_consumes text (text.length + 1)
  obtain ⟨pending, hvalue⟩ := h.read_value text text.length (show (own text).text = _ from rfl) []
  have hlines := List.suffix_nil.mp (hsub (own text) [])
  generalize hread : Head.read text (text.length + 1) (own text) [] = r at hvalue hlines
  obtain ⟨value, faults, lines⟩ := r
  subst hvalue hlines
  have hflat : ∀ line ∈ (written []).head?, line.indent ≤ 0 := fun line hline => by cases hline
  obtain ⟨rest, hclose, hrest⟩ := closeUnder_flat hsub hflat pending
  have hentry : readEntry (Head.read text (text.length + 1))
      (blockUnder (Head.read text (text.length + 1))) (own text) false [] =
        ⟨⟨faults, .nodes [nestIn pending.hosts pending.node]⟩, rest, false⟩ := by
    simp only [readEntry, hread, closePending_eq, show (own text).indent = 0 from rfl, hclose,
      List.append_nil]
  refine ⟨pending, faults, rfl, ?_⟩
  rw [parse_topLevel, String.toList_ofList, topLevelEntries_first h.ofSource h.own_written hentry,
    entriesUnder_blank hsub hrest]
  simp [assemble]

/-- In any source that has the tag at an offset, at the end of a line, its head says what it says
alone. -/
theorem read_at (h : TagText text) {pending : Pending} {faults : List Fault}
    (hread : Head.read text (text.length + 1) (own text) [] = ⟨.node pending, faults, []⟩)
    {tail : List Char} (htail : tail = [] ∨ ∃ t, tail = '\n' :: t)
    (hfair : tail = [] ∨ ∀ fault ∈ faults, fault.cause ≠ .unclosedDelimiter '(') {offset : Nat}
    (hoffset : 0 < offset) (hlines : ∀ line ∈ lines, byteLength text + offset < line.start)
    (hflat : ∀ line ∈ (written lines).head?, line.indent ≤ indent) (source : List Char) {n : Nat}
    (hn : text.length < n) (number : Nat) :
    Head.read source n ⟨number, indent, offset, lineContent text, text ++ tail⟩ lines =
      ⟨.node ((pending.shift offset).withColumns (columnIn source)), faults.map (Fault.shift offset),
        lines⟩ := by
  -- Columns are counted anew where the head is read, so any text of that length may stand in front.
  let filler := List.replicate (offset - 1) ' '
  have hblank : filler.all isIndentation = true :=
    List.all_eq_true.mpr fun c hc => by rw [List.eq_of_mem_replicate hc]; rfl
  have hfiller : byteLength filler + 1 = offset := by
    rw [byteLength_of_isIndentation hblank, List.length_replicate]
    omega
  let m : Motion :=
    { source := text, whole := filler ++ '\n' :: text, bytes := offset, count := 0, tail := tail
      extra := lines, floor := indent, seam := htail, extra_start := hlines, extra_indent := hflat
      column_eq := fun o _ => by rw [← hfiller]; exact column_past_feed filler text o }
  have hplaced : (own text).Placed text := by
    have hmem : own text ∈ Line.ofSource text := by rw [h.ofSource]; exact List.mem_singleton_self _
    exact Line.placed_of_mem_ofSource hmem
  have hmove := m.headMoves_read hn (own text) [] hplaced (by rw [hread]; exact hfair)
  have hrelabel := Head.read_relabel source m.whole n number indent (m.line (own text)) lines
  have hline : (m.line (own text)).relabel number indent =
      ⟨number, indent, offset, lineContent text, text ++ tail⟩ := by
    simp only [Motion.line, Line.within, Line.relabel, own, Nat.zero_add]
    rfl
  have hsame : Head.read m.whole n (m.line (own text)) lines =
      ⟨.node (pending.shift offset), faults.map (Fault.shift offset), lines⟩ := by
    have hmoved : Head.read m.whole n (m.line (own text)) lines =
        m.reading (Head.read text (text.length + 1) (own text) []) := hmove
    rw [hmoved, hread]
    rfl
  rw [← hline, hrelabel, hsame]
  rfl

end TagText

/-! ## The line of a branch -/

/-- A line `when E: T` under a `case`. -/
structure InlineBranch where
  indentation : List Char
  expression : List Char
  tag : List Char

/-- The test of a branch; none for the branch of all other cases. -/
def Branch.test : Branch → Option String
  | .bare test _ | .block test _ _ => test

theorem Branch.ofBlock_test (test : Option String) (s : Span) (nodes : Option (List Node)) :
    (Branch.ofBlock test s nodes).test = test := by
  cases nodes <;> rfl

variable {rest : List Char}

namespace InlineBranch

variable (b : InlineBranch)

/-- The words up to the tag. -/
def lead : List Char := ['w', 'h', 'e', 'n', ' '] ++ (b.expression ++ [':', ' '])

/-- What stands before the tag. -/
def front : List Char := b.indentation ++ b.lead

/-- The whole line. -/
def text : List Char := b.front ++ b.tag

/-- The span of the words, in a source that has the line at an offset. -/
def span (offset : Nat) : Span :=
  ⟨offset + byteLength b.indentation, offset + byteLength b.front + byteLength (lineContent b.tag)⟩

/-- The nodes of the tag, in a source that has the line at an offset. -/
def block (source : List Char) (offset : Nat) : List Node :=
  (Document.parse (String.ofList b.tag)).1.nodes.map fun node =>
    (node.shift (offset + byteLength b.front)).withColumns (columnIn source)

/-- The faults of the tag, in a source that has the line at an offset. -/
def faults (offset : Nat) : List Fault :=
  (Document.parse (String.ofList b.tag)).2.map (Fault.shift (offset + byteLength b.front))

/-- The branch that the line states, in a source that has the line at an offset. -/
def branch (source : List Char) (offset : Nat) : Branch :=
  .block (some (String.ofList b.expression)) (b.block source offset) (b.span offset)

/-- The line stands at the width; its expression is trimmed, and a tag follows it. -/
structure Sound (width : Nat) : Prop where
  indentation : b.indentation.all isIndentation = true
  stands : b.indentation.length = width
  trimmed : Trimmed b.expression
  line : '\n' ∉ b.expression
  tag : TagText b.tag

/-- The tag does not ask for more lines. -/
def Closed : Prop :=
  ∀ fault ∈ (Document.parse (String.ofList b.tag)).2, fault.cause ≠ .unclosedDelimiter '('

/-- The line as it is read, with the rest of the source behind it. -/
def header (number offset : Nat) (rest : List Char) : Line :=
  ⟨number, b.indentation.length, offset + b.indentation.length, b.lead ++ lineContent b.tag,
    b.lead ++ (b.tag ++ rest)⟩

variable {b} {width : Nat}

theorem Sound.feed_notMem_lead (h : b.Sound width) : '\n' ∉ b.lead := by
  simp only [lead, List.mem_append, not_or]
  exact ⟨by decide, h.line, by decide⟩

theorem Sound.feed_notMem_text (h : b.Sound width) : '\n' ∉ b.text := by
  simp only [text, front, List.mem_append, not_or]
  refine ⟨⟨fun hmem => ?_, h.feed_notMem_lead⟩, h.tag.line⟩
  cases List.all_eq_true.mp h.indentation _ hmem

theorem Sound.atFront (h : b.Sound width) (hrest : rest = [] ∨ ∃ t, rest = '\n' :: t)
    (number offset : Nat) :
    Line.atFront number offset (b.text ++ rest) = b.header number offset rest := by
  have htag : lineContent (b.tag ++ rest) = lineContent b.tag := by
    rcases hrest with rfl | ⟨t, rfl⟩
    · rw [List.append_nil]
    · exact lineContent_append_feed _ _
  obtain ⟨c, cs, hhead, -⟩ := h.tag.head
  have hcontent : lineContent (b.lead ++ (b.tag ++ rest)) = b.lead ++ lineContent b.tag := by
    rw [lineContent_append_line h.feed_notMem_lead (by rw [htag, hhead]; exact List.cons_ne_nil _ _), htag]
  have hw : ∃ cs, b.lead ++ lineContent b.tag = 'w' :: cs := ⟨_, rfl⟩
  obtain ⟨words, hwords⟩ := hw
  have htext : b.text ++ rest = b.indentation ++ (b.lead ++ (b.tag ++ rest)) := by
    simp only [text, front, List.append_assoc]
  rw [htext, atFront_indented h.indentation (hcontent.trans hwords) (by decide), hcontent]
  rfl

theorem header_written (number offset : Nat) (rest : List Char) :
    (b.header number offset rest).isBlank = false := rfl

theorem Sound.header_indent (h : b.Sound width) (number offset : Nat) (rest : List Char) :
    (b.header number offset rest).indent = width := h.stands

theorem Sound.header_span (h : b.Sound width) (number offset : Nat) (rest : List Char) :
    (b.header number offset rest).span = b.span offset := by
  have hbytes := byteLength_of_isIndentation h.indentation
  simp only [Line.span, Line.stop, header, span, front, byteLength_append, hbytes, Nat.add_assoc]

/-- What stands behind the colon, as a line of its own. -/
theorem Sound.header_fromEnd (h : b.Sound width) (number offset : Nat) (rest : List Char) :
    (b.header number offset rest).fromEnd (lineContent b.tag) =
      ⟨number, width, offset + byteLength b.front, lineContent b.tag, b.tag ++ rest⟩ := by
  have hbytes := byteLength_of_isIndentation h.indentation
  have htake : (b.lead ++ lineContent b.tag).take
      ((b.lead ++ lineContent b.tag).length - (lineContent b.tag).length) = b.lead := by
    rw [List.length_append, Nat.add_sub_cancel, List.take_left]
  simp only [Line.fromEnd, header, htake, List.drop_left, front, byteLength_append, hbytes, h.stands,
    Nat.add_assoc]

/-! ## What a branch says -/

variable {marks : Nat}

/-- The search for the colon passes the expression. -/
theorem cut_lead (h : ExpressionText marks b.expression) (rest : List Char) :
    cutAtExpansion 0 0 .outside (' ' :: (b.expression ++ rest)) =
      appendFirst (' ' :: b.expression) (cutAtExpansion 0 marks .outside rest) := by
  have hspace : PassedAwaiting 0 0 [' '] := passedAwaiting_char (by decide) (by decide)
  have hpassed := hspace.append (cutAtExpansion_expression h) 0 rest
  rwa [Nat.zero_add, Nat.zero_add] at hpassed

theorem branchHead_when {words test cs : List Char} {c : Char}
    (hcut : cutAtExpansion 0 0 .outside (' ' :: words) = (test, rest)) (htrim : trim test = c :: cs) :
    branchHead (['w', 'h', 'e', 'n', ' '] ++ words) = .branch (some (String.ofList (c :: cs))) rest := by
  have hlead : Marker.leading? (['w', 'h', 'e', 'n', ' '] ++ words) = some (.keyword .whenBranch, 4) := rfl
  have hdrop : (['w', 'h', 'e', 'n', ' '] ++ words).drop 4 = ' ' :: words := rfl
  simp only [branchHead, hlead, hdrop, hcut, htrim]

theorem lead_append (tag : List Char) :
    b.lead ++ tag = ['w', 'h', 'e', 'n', ' '] ++ (b.expression ++ ':' :: ' ' :: tag) := by
  simp [lead]

/-- Without `?.` and `??` the expression is the test. -/
theorem Sound.head_eq (h : b.Sound width) (hexpression : ExpressionText 0 b.expression)
    (tag : List Char) :
    branchHead (b.lead ++ tag) = .branch (some (String.ofList b.expression)) (':' :: ' ' :: tag) := by
  have hcut := cut_lead hexpression (':' :: ' ' :: tag)
  rw [cutAtExpansion_colon rfl, appendFirst, List.append_nil] at hcut
  obtain ⟨c, cs, hcons, -⟩ := h.trimmed.head
  rw [lead_append, branchHead_when hcut (h.trimmed.trim_space.trans hcons), ← hcons]

/-- With one of them the colon becomes a part of the test. -/
theorem Sound.head_awaiting (h : b.Sound width)
    (hexpression : ExpressionText (marks + 1) b.expression) (tag : List Char) :
    ∃ more rest, branchHead (b.lead ++ tag) =
      .branch (some (String.ofList (b.expression ++ ':' :: more))) rest := by
  have hcut := cut_lead hexpression (':' :: ' ' :: tag)
  rw [cutAtExpansion_awaited] at hcut
  generalize cutAtExpansion 0 marks .outside (' ' :: tag) = found at hcut
  obtain ⟨c, cs, hcons, hc⟩ := h.trimmed.head
  -- Trimming stops at the expression in front, and behind at the colon.
  have hstart : trimStart (b.expression ++ ':' :: found.1) = b.expression ++ ':' :: found.1 := by
    rw [hcons]
    exact trimStart_of_head hc _
  have htrim : trim (' ' :: (b.expression ++ ':' :: found.1)) =
      c :: (cs ++ ':' :: trimEnd found.1) := by
    have hspace : trimStart (' ' :: (b.expression ++ ':' :: found.1)) =
        trimStart (b.expression ++ ':' :: found.1) := rfl
    rw [trim, hspace, hstart, trimEnd_append_cons _ (by decide), hcons]
    rfl
  refine ⟨trimEnd found.1, found.2, ?_⟩
  rw [lead_append, branchHead_when hcut htrim, hcons]
  rfl

/-! ## Branches one behind the other -/

theorem Sound.afterFeeds (h : b.Sound width) (hrest : rest = [] ∨ ∃ t, rest = '\n' :: t)
    (number offset : Nat) :
    Line.afterFeeds number offset ('\n' :: (b.text ++ rest)) =
      b.header (number + 1) (offset + 1) rest ::
        Line.afterFeeds (number + 1) (offset + 1 + byteLength b.text) rest := by
  rw [← Line.afterFeeds_skip _ _ h.feed_notMem_text, ← h.atFront hrest]
  rfl

/-- What stands behind a branch is the end of the source, or a line that is not indented more. -/
structure Follows (width : Nat) (rest : List Char) : Prop where
  seam : rest = [] ∨ ∃ t, rest = '\n' :: t
  flat : ∀ line ∈ (written (Line.afterFeeds 0 0 rest)).head?, line.indent ≤ width

theorem Follows.flat_at (h : Follows width rest) (number offset : Nat) :
    ∀ line ∈ (written (Line.afterFeeds number offset rest)).head?, line.indent ≤ width := by
  intro line hline
  have hmoved := Line.afterFeeds_within 0 0 offset number rest
  rw [Nat.zero_add, Nat.zero_add] at hmoved
  rw [hmoved, Motion.written_within, List.head?_map] at hline
  obtain ⟨original, horiginal, rfl⟩ := Option.map_eq_some_iff.mp hline
  exact h.flat original horiginal

theorem Sound.follows (h : b.Sound width) (hrest : rest = [] ∨ ∃ t, rest = '\n' :: t) :
    Follows width ('\n' :: (b.text ++ rest)) := by
  refine ⟨.inr ⟨_, rfl⟩, fun line hline => ?_⟩
  rw [h.afterFeeds hrest, written_cons_of_written (header_written _ _ _)] at hline
  cases hline
  exact Nat.le_of_eq h.stands

variable {branches : List InlineBranch}

theorem follows_textBehind (h : ∀ b ∈ branches, b.Sound width) (hrest : Follows width rest) :
    Follows width (textBehind text branches ++ rest) := by
  induction branches with
  | nil => exact hrest
  | cons b branches ih =>
    have hmore := ih fun other hother => h other (List.mem_cons_of_mem _ hother)
    have hfirst := (h b List.mem_cons_self).follows hmore.seam
    rwa [← List.append_assoc] at hfirst

variable {parent k : Nat}

theorem Sound.nested?_header (h : b.Sound width) (hparent : parent < width) (number offset : Nat)
    (rest : List Char) (lines : List Line) :
    nested? (some parent) (b.header number offset rest :: lines) =
      some (b.header number offset rest, lines) := by
  have hunder : parent < (b.header number offset rest).indent := by rwa [h.header_indent]
  rw [nested?, skipBlank_cons_of_written (header_written _ _ _)]
  simp only [Line.isUnder, hunder, decide_true, if_true]

variable (source : List Char)

/-- The block of a branch is its tag, read as in a source of its own. -/
theorem Sound.block_eq (h : b.Sound width) (hrest : Follows width rest)
    (hclosed : rest = [] ∨ b.Closed) (hk : b.tag.length < k) (number offset : Nat) :
    let lines := Line.afterFeeds number (offset + byteLength b.text) rest
    ∃ left, branchBlock (closeUnder (Head.read source k)) (Head.read source k)
        (blockUnder (Head.read source k)) (b.header number offset rest)
        (':' :: ' ' :: lineContent b.tag) lines = ⟨some (b.block source offset), b.faults offset, left⟩ ∧
      skipBlank left = skipBlank lines := by
  intro lines
  obtain ⟨pending, faults, hread, hparse⟩ := h.tag.parse
  obtain ⟨c, cs, hhead, hc⟩ := h.tag.head
  have hinline : inlineBranch (':' :: ' ' :: lineContent b.tag) = lineContent b.tag := by
    rw [hhead]
    exact trimStart_of_head hc cs
  have hflat : ∀ line ∈ (written lines).head?, line.indent ≤ width :=
    hrest.flat_at _ _
  have hstart : ∀ line ∈ lines, byteLength b.tag + (offset + byteLength b.front) < line.start := by
    intro line hline
    have hlt := Line.afterFeeds_start _ _ _ line hline
    rw [text, byteLength_append] at hlt
    omega
  -- An open parenthesis would make the tag read on over the lines behind it.
  have hfair : rest = [] ∨ ∀ fault ∈ faults, fault.cause ≠ .unclosedDelimiter '(' := by
    rwa [Closed, hparse] at hclosed
  have hoffset : 0 < offset + byteLength b.front := by
    rw [front, lead, byteLength_append, byteLength_append]
    have hwhen : byteLength ['w', 'h', 'e', 'n', ' '] = 5 := rfl
    omega
  have hat := h.tag.read_at hread hrest.seam hfair hoffset hstart hflat source hk number
  let moved := (pending.shift (offset + byteLength b.front)).withColumns (columnIn source)
  have hnode : nestIn moved.hosts moved.node =
      ((nestIn pending.hosts pending.node).shift (offset + byteLength b.front)).withColumns
        (columnIn source) := by
    rw [← nestIn_shift, nestIn_withColumns]
    rfl
  obtain ⟨left, hclose, hleft⟩ := closeUnder_flat (Head.read_consumes source k) hflat moved
  rw [hnode] at hclose
  refine ⟨left, ?_, hleft⟩
  rw [branchBlock_inline (by rw [hinline, hhead]; exact List.cons_ne_nil _ _), hinline,
    h.header_fromEnd, hat, h.header_indent]
  simp only [inlineBlock, hclose, block, InlineBranch.faults, hparse, List.map_cons, List.map_nil,
    List.append_nil, moved]

/-- A branch and the branches of the lines that it leaves. -/
theorem Sound.branchesUnder_cons (h : b.Sound width) (hparent : parent < width)
    {test : Option String} {words : List Char}
    (hhead : branchHead (b.lead ++ lineContent b.tag) = .branch test words)
    (hrest : rest = [] ∨ ∃ t, rest = '\n' :: t) (number offset : Nat) :
    let block := branchBlock (closeUnder (Head.read source k)) (Head.read source k)
      (blockUnder (Head.read source k)) (b.header (number + 1) (offset + 1) rest) words
      (Line.afterFeeds (number + 1) (offset + 1 + byteLength b.text) rest)
    let more := branchesUnder (Head.read source k) parent block.lines
    branchesUnder (Head.read source k) parent (Line.afterFeeds number offset ('\n' :: (b.text ++ rest))) =
      ⟨Branch.ofBlock test (b.span (offset + 1)) block.value :: more.value, block.faults ++ more.faults,
        more.lines⟩ := by
  intro block more
  have htext : branchHead (b.header (number + 1) (offset + 1) rest).text = .branch test words := hhead
  rw [h.afterFeeds hrest, branchesUnder_eq (Head.read_consumes source k), h.nested?_header hparent]
  simp only [htext, h.header_span, block, more]

/-- Without `?.` and `??`: one branch and the branches behind it. -/
theorem Sound.branchesUnder_step (h : b.Sound width) (hparent : parent < width)
    (hexpression : ExpressionText 0 b.expression) (hrest : Follows width rest)
    (hclosed : rest = [] ∨ b.Closed) (hk : b.tag.length < k) (number offset : Nat) :
    let more := branchesUnder (Head.read source k) parent
      (Line.afterFeeds (number + 1) (offset + 1 + byteLength b.text) rest)
    branchesUnder (Head.read source k) parent (Line.afterFeeds number offset ('\n' :: (b.text ++ rest))) =
      ⟨b.branch source (offset + 1) :: more.value, b.faults (offset + 1) ++ more.faults, more.lines⟩ := by
  obtain ⟨left, hblock, hleft⟩ := h.block_eq source hrest hclosed hk (number + 1) (offset + 1)
  have hcons := h.branchesUnder_cons (k := k) source hparent (h.head_eq hexpression (lineContent b.tag))
    hrest.seam number offset
  simp only [hblock, branchesUnder_skipBlank (Head.read_consumes source k) hleft] at hcons
  exact hcons

/-- The branches at the front, and what is behind them. -/
theorem branchesUnder_inline (h : ∀ b ∈ branches, b.Sound width) (hparent : parent < width)
    (hexpression : ∀ b ∈ branches, ExpressionText 0 b.expression)
    (hclosed : ∀ b ∈ branches, b.Closed) (hk : ∀ b ∈ branches, b.tag.length < k)
    (hrest : Follows width rest) (number offset : Nat) :
    branchesUnder (Head.read source k) parent
        (Line.afterFeeds number offset (textBehind text branches ++ rest)) =
      let more := branchesUnder (Head.read source k) parent
        (Line.afterFeeds (number + branches.length) (offset + byteLength (textBehind text branches)) rest)
      let placed := placedFrom text (offset + 1) branches
      ⟨placed.map (fun p => p.2.branch source p.1) ++ more.value,
        placed.flatMap (fun p => p.2.faults p.1) ++ more.faults, more.lines⟩ := by
  induction branches generalizing number offset with
  | nil => rfl
  | cons b branches ih =>
    obtain ⟨hb, hbranches⟩ := List.forall_mem_cons.mp h
    obtain ⟨hbe, hbranchese⟩ := List.forall_mem_cons.mp hexpression
    obtain ⟨hbc, hbranchesc⟩ := List.forall_mem_cons.mp hclosed
    obtain ⟨hbk, hbranchesk⟩ := List.forall_mem_cons.mp hk
    have hstep := hb.branchesUnder_step source hparent hbe (follows_textBehind hbranches hrest) (.inr hbc) hbk
      number offset
    have hmore := ih hbranches hbranchese hbranchesc hbranchesk (number + 1)
      (offset + 1 + byteLength b.text)
    have hbytes : offset + byteLength (textBehind text (b :: branches)) =
        offset + 1 + byteLength b.text + byteLength (textBehind text branches) := by
      simp only [textBehind, List.flatMap_cons, List.cons_append, byteLength, byteLength_append]
      rw [show '\n'.utf8Size = 1 from rfl]
      omega
    have htext : textBehind text (b :: branches) ++ rest =
        '\n' :: (b.text ++ (textBehind text branches ++ rest)) := by
      simp [textBehind]
    rw [htext, hstep, hmore, hbytes, List.length_cons, Nat.add_assoc number, Nat.add_comm 1]
    simp only [placedFrom, List.map_cons, List.flatMap_cons, List.cons_append, List.append_assoc]

/-- The branch of an expression that may have the operators `?.` and `??`, whatever follows it. -/
theorem Sound.branchesUnder_marked (h : b.Sound width) (hparent : parent < width)
    (hexpression : ExpressionText marks b.expression) (hrest : Follows width rest)
    (hclosed : rest = [] ∨ b.Closed) (hk : b.tag.length < k) (number offset : Nat) :
    ∃ branch faults lines, lines <:+ Line.afterFeeds (number + 1) (offset + 1 + byteLength b.text) rest ∧
      branchesUnder (Head.read source k) parent
          (Line.afterFeeds number offset ('\n' :: (b.text ++ rest))) =
        (let more := branchesUnder (Head.read source k) parent lines
        ⟨branch :: more.value, faults ++ more.faults, more.lines⟩) ∧
      (marks = 0 → branch = b.branch source (offset + 1) ∧ faults = b.faults (offset + 1)) ∧
      (marks ≠ 0 → ∃ more, branch.test = some (String.ofList (b.expression ++ ':' :: more))) := by
  cases marks with
  | zero =>
    have hstep := h.branchesUnder_step source hparent hexpression hrest hclosed hk number offset
    exact ⟨_, _, _, List.suffix_refl _, hstep, fun _ => ⟨rfl, rfl⟩, fun hne => absurd rfl hne⟩
  | succ marks =>
    have hsub := Head.read_consumes source k
    obtain ⟨more, words, hhead⟩ := h.head_awaiting hexpression (lineContent b.tag)
    exact ⟨_, _, _, branchBlock_suffix (closeUnder_suffix hsub) hsub (blockUnder_consumes hsub) _ words _,
      h.branchesUnder_cons source hparent hhead hrest.seam number offset,
      fun hzero => absurd hzero (Nat.succ_ne_zero marks), fun _ => ⟨more, Branch.ofBlock_test _ _ _⟩⟩

theorem length_tag_le (h : b ∈ branches) : b.tag.length ≤ (textBehind text branches).length := by
  have hmem : '\n' :: b.text ∈ branches.map fun b => '\n' :: b.text := List.mem_map_of_mem h
  have hle := (List.sublist_flatten_of_mem hmem).length_le
  rw [← List.flatMap_def] at hle
  refine Nat.le_trans ?_ hle
  simp only [text, List.length_cons, List.length_append]
  omega

end InlineBranch

/-! ## A case -/

/-- The words that a `case` starts with. -/
def caseWords (subject : List Char) : List Char := ['c', 'a', 's', 'e', ' '] ++ subject

/-- The first line of a `case`. -/
def caseText (indentation subject : List Char) : List Char := indentation ++ caseWords subject

theorem read_case {subject : List Char} (h : Trimmed subject) {line : Line}
    (hline : line.text = caseWords subject) (source : List Char) (n : Nat) (lines : List Line) :
    Head.read source (n + 1) line lines =
      ⟨.single (.caseOf (String.ofList subject) [] line.span) .branches, [], lines⟩ := by
  have hlead : Marker.leading? line.text = some (.keyword .caseOf, 4) := by rw [hline]; rfl
  have hrest : ((⟨line.start, line.text⟩ : Place).skip (line.text.take 4)).text = ' ' :: subject := by
    rw [hline]
    rfl
  have hsome : (String.ofList subject == "") = false := by
    rw [beq_eq_false_iff_ne]
    intro hnil
    exact h.ne_nil (String.ofList_injective hnil)
  rw [Head.read_keyword hlead]
  simp only [Head.ofKeyword, hrest, h.trim_space, hsome]
  rfl

/-- A source that starts with a `case` has the branches of the lines under it, and then what the lines
that are left give. -/
theorem parse_case {indentation subject : List Char}
    (hindentation : indentation.all isIndentation = true) (hsubject : Trimmed subject)
    (hline : '\n' ∉ subject) (hrest : rest = [] ∨ ∃ t, rest = '\n' :: t) {source : List Char}
    (hsource : source = caseText indentation subject ++ rest) {branches : Reading (List Branch)}
    (hbranches : branchesUnder (Head.read source (source.length + 1)) indentation.length
      (Line.afterFeeds 1 (byteLength (caseText indentation subject)) rest) = branches) :
    let others := assemble [] (entriesUnder (Head.read source (source.length + 1)) none
      (some indentation.length) false branches.lines).1
    Document.parse (String.ofList source) =
      (⟨.caseOf (String.ofList subject) branches.value
          ⟨byteLength indentation, byteLength (caseText indentation subject)⟩ :: others.1,
        byteLength source⟩, branches.faults ++ others.2) := by
  intro others
  have hbytes := byteLength_of_isIndentation hindentation
  have hwords : Trimmed (caseWords subject) := hsubject.cons_append (by decide) ['a', 's', 'e', ' ']
  have hfeed : '\n' ∉ caseWords subject := by
    simp only [caseWords, List.mem_append, not_or]
    exact ⟨by decide, hline⟩
  have hcontent := lineContent_words hwords hfeed hrest
  let line : Line :=
    ⟨1, indentation.length, indentation.length, caseWords subject, caseWords subject ++ rest⟩
  have hfirst : Line.atFront 1 0 source = line := by
    rw [hsource, caseText, List.append_assoc, atFront_indented hindentation hcontent (by decide), hcontent,
      Nat.zero_add]
  have hafter : Line.afterFeeds 1 0 source =
      Line.afterFeeds 1 (byteLength (caseText indentation subject)) rest := by
    rw [hsource, Line.afterFeeds_skip, Nat.zero_add]
    rw [caseText, List.mem_append]
    rintro (hmem | hmem)
    · cases List.all_eq_true.mp hindentation _ hmem
    · exact hfeed hmem
  have hlines : Line.ofSource source = line :: _ := congrArg₂ List.cons hfirst hafter
  have hspan : line.span = ⟨byteLength indentation, byteLength (caseText indentation subject)⟩ := by
    simp only [Line.span, Line.stop, line, caseText, byteLength_append, hbytes]
  have hread := read_case hsubject (show line.text = _ from rfl) source source.length
    (Line.afterFeeds 1 (byteLength (caseText indentation subject)) rest)
  let node : Node := .caseOf (String.ofList subject) branches.value
    ⟨byteLength indentation, byteLength (caseText indentation subject)⟩
  have hentry : readEntry (Head.read source (source.length + 1))
      (blockUnder (Head.read source (source.length + 1))) line false
      (Line.afterFeeds 1 (byteLength (caseText indentation subject)) rest) =
        ⟨⟨branches.faults, .nodes [node]⟩, branches.lines, false⟩ := by
    simp only [readEntry, hread, Head.single, closePending_eq, closeUnder, closeWith,
      show line.indent = indentation.length from rfl, hbranches, hspan]
    rfl
  -- An `else` behind a `case` is an orphan, as it is alone.
  have hno : ∀ other ∈ [node].head?, ¬ other.opensElse := by
    intro other hother
    cases hother
    simp [Node.opensElse, Node.kind, node]
  have honto := assemble_onto (entriesUnder (Head.read source (source.length + 1)) none
    (some indentation.length) false branches.lines).1 [] (.inl hno)
  rw [parse_topLevel, String.toList_ofList, topLevelEntries_first hlines rfl hentry]
  simp only [assemble, List.reverse_singleton, List.append_nil]
  rw [List.nil_append] at honto
  rw [show line.indent = indentation.length from rfl, honto]
  rfl

/-- **Inline branches.** In a `case` that starts with branches `when E: T` on one line each, those before
the last of them without the operators `?.` and `??` outside brackets, each of these branches has the
expression for its test and the tag, read as in a source of its own, for its block. The same holds of the
last one if it has none of these operators (`marks = 0`), whatever follows it at its width or less. If it
has one, the colon that ends the expression is a part of the test. -/
theorem parse_inline_branches {width marks : Nat} (indentation subject : List Char)
    (earlier : List InlineBranch) (last : InlineBranch) (rest : List Char)
    (hindentation : indentation.all isIndentation = true) (hunder : indentation.length < width)
    (hsubject : Trimmed subject) (hline : '\n' ∉ subject)
    (hearlier : ∀ b ∈ earlier, b.Sound width ∧ ExpressionText 0 b.expression ∧ b.Closed)
    (hlast : last.Sound width) (hexpression : ExpressionText marks last.expression)
    (hrest : InlineBranch.Follows width rest) (hclosed : rest = [] ∨ last.Closed) :
    let opening := caseText indentation subject
    let before := opening ++ textBehind InlineBranch.text earlier
    let source := before ++ '\n' :: (last.text ++ rest)
    let placed := placedFrom InlineBranch.text (byteLength opening + 1) earlier
    ∃ branch faults more others left,
      Document.parse (String.ofList source) =
        (⟨.caseOf (String.ofList subject) (placed.map (fun p => p.2.branch source p.1) ++ branch :: more)
            ⟨byteLength indentation, byteLength opening⟩ :: others, byteLength source⟩,
          placed.flatMap (fun p => p.2.faults p.1) ++ (faults ++ left)) ∧
      (rest = [] → more = [] ∧ others = [] ∧ left = []) ∧
      (marks = 0 → branch = last.branch source (byteLength before + 1) ∧
        faults = last.faults (byteLength before + 1)) ∧
      (marks ≠ 0 → ∃ text, branch.test = some (String.ofList (last.expression ++ ':' :: text))) := by
  intro opening before source placed
  have hsource : source = opening ++
      (textBehind InlineBranch.text earlier ++ '\n' :: (last.text ++ rest)) := List.append_assoc _ _ _
  have hfollows := hlast.follows hrest.seam
  have hbehind := InlineBranch.follows_textBehind (fun b hb => (hearlier b hb).1) hfollows
  have hshort : ∀ b ∈ earlier ++ [last], b.tag.length < source.length + 1 := by
    intro b hb
    have hle := InlineBranch.length_tag_le hb
    have hwhole : source = opening ++ (textBehind InlineBranch.text (earlier ++ [last]) ++ rest) := by
      simp [hsource, textBehind]
    rw [hwhole, List.length_append, List.length_append]
    omega
  obtain ⟨hshort, hshortLast⟩ := List.forall_mem_append.mp hshort
  have hrun := InlineBranch.branchesUnder_inline source (fun b hb => (hearlier b hb).1) hunder
    (fun b hb => (hearlier b hb).2.1) (fun b hb => (hearlier b hb).2.2) hshort hfollows 1
    (byteLength opening)
  -- Where the colon is lost, the block is what follows the next one, if any: of the lines that are
  -- left only this is known, that they are a suffix.
  obtain ⟨branch, faults, lines, hlines, hend, hbranch⟩ := hlast.branchesUnder_marked source hunder
    hexpression hrest hclosed (hshortLast last (List.mem_singleton_self last)) (1 + earlier.length)
    (byteLength before)
  have hoffset : byteLength before = byteLength opening + byteLength (textBehind InlineBranch.text earlier) :=
    byteLength_append _ _
  rw [← hoffset, hend] at hrun
  have hparse := parse_case hindentation hsubject hline hbehind.seam hsource hrun
  simp only [List.append_assoc] at hparse
  refine ⟨branch, faults, _, _, _, hparse, ?_, hbranch⟩
  rintro rfl
  obtain rfl : lines = [] := List.suffix_nil.mp hlines
  exact ⟨rfl, rfl, rfl⟩

/-- A conditional expression ends at the colon behind it; after `d?.e` the tag is lost. -/
theorem parse_chaining_branch :
    ∃ first second more others faults,
      Document.parse "case x\n  when a?b:c: li y\n  when d?.e: p z\n  default: b" =
        (⟨.caseOf "x" (first :: second :: more) ⟨0, 6⟩ :: others, 55⟩, faults) ∧
      first.test = some "a?b:c" ∧
      ∃ text, second.test = some (String.ofList ('d' :: '?' :: '.' :: 'e' :: ':' :: text)) := by
  let earlier : InlineBranch := ⟨[' ', ' '], ['a', '?', 'b', ':', 'c'], ['l', 'i', ' ', 'y']⟩
  let last : InlineBranch := ⟨[' ', ' '], ['d', '?', '.', 'e'], ['p', ' ', 'z']⟩
  let rest : List Char := '\n' :: [' ', ' ', 'd', 'e', 'f', 'a', 'u', 'l', 't', ':', ' ', 'b']
  have hearlier : earlier.Sound 2 :=
    ⟨rfl, rfl, ⟨by decide, by decide⟩, by decide, ⟨by decide, .tagName, 2, rfl, rfl⟩⟩
  have hlast : last.Sound 2 :=
    ⟨rfl, rfl, ⟨by decide, by decide⟩, by decide, ⟨by decide, .tagName, 1, rfl, rfl⟩⟩
  have hconditional : ExpressionText 0 earlier.expression :=
    .char (by decide) (by decide) (by decide)
      (.conditional (show startsConditional (['b'] ++ ':' :: ['c']) = true from rfl)
        (.char (by decide) (by decide) (by decide) .nil) (.char (by decide) (by decide) (by decide) .nil))
  have hchaining : ExpressionText 1 last.expression :=
    .char (by decide) (by decide) (by decide)
      (.chaining rfl (.char (by decide) (by decide) (by decide) .nil))
  have hclosed : earlier.Closed ∧ last.Closed := by
    unfold InlineBranch.Closed
    decide +kernel
  have hrest : InlineBranch.Follows 2 rest := ⟨.inr ⟨_, rfl⟩, by decide +kernel⟩
  have h := parse_inline_branches [] ['x'] [earlier] last rest rfl (show 0 < 2 by decide)
    ⟨by decide, by decide⟩ (by decide) (List.forall_mem_singleton.mpr ⟨hearlier, hconditional, hclosed.1⟩)
    hlast hchaining hrest (.inr hclosed.2)
  extract_lets opening before source placed at h
  obtain ⟨branch, faults, more, others, left, hparse, -, -, htest⟩ := h
  have hsource : String.ofList source =
      "case x\n  when a?b:c: li y\n  when d?.e: p z\n  default: b" := by
    decide +kernel
  have hbytes : byteLength source = 55 := by decide +kernel
  have hopening : byteLength opening = 6 := rfl
  rw [hsource, hbytes, hopening] at hparse
  exact ⟨_, branch, more, others, _, hparse, rfl, htest Nat.one_ne_zero⟩

end PugComponents.Template
