import PugComponents.Proofs.Template.Transport

/- Two templates one after the other. Both are read as they are read alone, the
   second one shifted behind the first (`parse_concatenation`), as far as
   nothing reaches over the seam: a parenthesis that is not closed, piped text
   on both sides of it, or an `else` for a node before it. -/
namespace PugComponents.Text

/-! ## Columns -/

theorem takeBytes_append_left {offset : Nat} {a : List Char} (h : offset ≤ byteLength a) (b : List Char) :
    takeBytes offset (a ++ b) = takeBytes offset a := by
  induction a generalizing offset with
  | nil =>
    obtain rfl : offset = 0 := Nat.le_zero.mp h
    rw [takeBytes, takeBytes]
  | cons c a ih =>
    rw [byteLength] at h
    cases offset with
    | zero => rw [takeBytes, takeBytes]
    | succ offset => rw [List.cons_append, takeBytes, takeBytes, ih (by omega)]

/-- A line feed starts the columns anew. -/
theorem column_past_feed (a b : List Char) (offset : Nat) :
    columnAt (a ++ '\n' :: b) (offset + (byteLength a + 1)) = columnAt b offset := by
  have hbytes : offset + (byteLength a + 1) = byteLength (a ++ ['\n']) + offset := by
    rw [byteLength_append, Nat.add_comm]
    rfl
  have hsource : a ++ '\n' :: b = (a ++ ['\n']) ++ b := by simp
  rw [columnAt, columnAt, hbytes, hsource, takeBytes_add, List.reverse_append, List.reverse_concat,
    List.takeWhile_append]
  split
  · rename_i hall
    rw [List.takeWhile_cons_of_neg (by simp), List.append_nil, hall]
  · rfl

end PugComponents.Text

namespace PugComponents.Template

open Text

/-! ## The two parts of a source -/

variable {width : Nat}

namespace Motion

theorem written_within (bytes count : Nat) (tail : List Char) (lines : List Line) :
    written (lines.map (Line.within bytes count tail)) =
      (written lines).map (Line.within bytes count tail) := by
  unfold written
  rw [List.filter_map]
  rfl

/-- The second part, after the first part and a line feed. -/
def back (a b : List Char) : Motion where
  source := b
  whole := a ++ '\n' :: b
  bytes := byteLength a + 1
  count := a.count '\n' + 1
  tail := []
  extra := []
  floor := 0
  seam := .inl rfl
  extra_start := by simp
  extra_indent := by simp [written]
  column_eq offset _ := column_past_feed a b offset

theorem lines_back (a b : List Char) (lines : List Line) :
    (back a b).lines lines = lines.map (Line.within (byteLength a + 1) (a.count '\n' + 1) []) :=
  List.append_nil _

/-- The first line that is written behind the first part is the first one of the second part. -/
theorem head_written_back {a b : List Char} {line : Line}
    (h : line ∈ (written ((back a b).lines (Line.ofSource b))).head?) :
    ∃ first ∈ (written (Line.ofSource b)).head?, first.indent = line.indent ∧
      first.text = line.text := by
  rw [lines_back, written_within, List.head?_map] at h
  obtain ⟨first, hfirst, rfl⟩ := Option.map_eq_some_iff.mp h
  exact ⟨first, hfirst, rfl, rfl⟩

/-- The first part, before a line feed and the second part, which starts at the width. -/
def front (a b : List Char) {width : Nat}
    (hb : ∀ line ∈ (written (Line.ofSource b)).head?, line.indent = width) : Motion where
  source := a
  whole := a ++ '\n' :: b
  bytes := 0
  count := 0
  tail := '\n' :: b
  extra := (back a b).lines (Line.ofSource b)
  floor := width
  seam := .inr ⟨b, rfl⟩
  extra_start := by
    rw [lines_back]
    intro line hline
    obtain ⟨first, -, rfl⟩ := List.mem_map.mp hline
    show byteLength a + 0 < first.start + (byteLength a + 1)
    omega
  extra_indent := by
    intro line hline
    obtain ⟨first, hfirst, hindent, -⟩ := head_written_back hline
    exact Nat.le_of_eq (hindent.symm.trans (hb first hfirst))
  column_eq offset h :=
    congrArg (fun front => (front.reverse.takeWhile (· != '\n')).length + 1) (takeBytes_append_left h _)

theorem ofSource_front (a b : List Char)
    (hb : ∀ line ∈ (written (Line.ofSource b)).head?, line.indent = width) :
    Line.ofSource (a ++ '\n' :: b) = (front a b hb).lines (Line.ofSource a) := by
  rw [Line.ofSource_append, ← lines_back]
  rfl

/-- Reading the head of a line takes no more steps than the source has characters. -/
theorem headMoves_read (m : Motion) {k : Nat} (hk : m.source.length < k) :
    m.HeadMoves (Head.read m.source (m.source.length + 1)) (Head.read m.whole k) := by
  intro line lines hplaced hfair
  have hle := Place.In.length_le (p := ⟨line.start, line.onward⟩) hplaced.place
  simp only at hle
  exact read_move hplaced lines (by omega) (by omega) hfair

end Motion

/-! ## The lines at the top level -/

/-- Text after a bar. -/
def Line.isPiped (line : Line) : Bool :=
  match Marker.leading? line.text with
  | some (.pipe, _) => true
  | _ => false

namespace Head

/-- Text after a bar. -/
def isPiped : Head → Bool
  | .text _ piped => piped
  | _ => false

theorem ofKeyword_isPiped (source : List Char) (line : Line) (keyword : Keyword) (rest : Place) :
    (ofKeyword source line keyword rest).1.isPiped = false := by
  obtain ⟨f, hf, heq⟩ := ofKeyword_worded keyword rest.text
  rw [heq source line rest.offset]
  cases hf <;> rfl

theorem ofTag_isPiped (expand : HeadReader) (line : Line) (name : List Char) (lines : List Line) :
    (ofTag expand line name lines).value.isPiped = false := by
  rw [ofTag_eq]
  simp only [TagHead.followed, TagHead.expanded]
  split
  · rfl
  · split <;> rfl

theorem ofMixinCall_isPiped (line : Line) (length : Nat) (lines : List Line) :
    (ofMixinCall line length lines).value.isPiped = false := by
  rw [ofMixinCall_eq]
  simp only
  split
  · split <;> rfl
  · rfl

/-- The head of a line is piped text just if the line is. -/
theorem read_isPiped (source : List Char) (n : Nat) (line : Line) (lines : List Line) :
    (read source (n + 1) line lines).value.isPiped = line.isPiped := by
  rw [read, step, Line.isPiped]
  cases Marker.leading? line.text with
  | none => rfl
  | some found =>
    obtain ⟨marker, length⟩ := found
    cases marker with
    | tagName | className | idName => exact ofTag_isPiped _ _ _ _
    | mixinCall => exact ofMixinCall_isPiped _ _ _
    | keyword k => exact ofKeyword_isPiped _ _ _ _
    | interpolatedTag =>
      simp only [ofInterpolatedTag]
      split <;> rfl
    | _ => rfl

end Head

theorem readEntry_piped (head : HeadReader) (block : BlockReader) (line : Line) (afterPiped : Bool)
    (lines : List Line) :
    (readEntry head block line afterPiped lines).piped = (head line lines).value.isPiped := by
  unfold readEntry
  simp only
  cases (head line lines).value <;> rfl

variable {lines : List Line}

/-- Only piped text looks at the line before it. -/
theorem readEntry_afterPiped {head : HeadReader} {line : Line}
    (h : (head line lines).value.isPiped = false) (block : BlockReader) (afterPiped : Bool) :
    readEntry head block line afterPiped lines = readEntry head block line false lines := by
  unfold readEntry
  generalize head line lines = r at h ⊢
  obtain ⟨value, faults, rest⟩ := r
  cases value with
  | text nodes piped =>
    obtain rfl : piped = false := h
    rfl
  | _ => rfl

theorem readEntry_lines (head : HeadReader) (block : BlockReader) (line : Line) (afterPiped : Bool)
    (lines : List Line) :
    (readEntry head block line afterPiped lines).lines = (readEntry head block line false lines).lines := by
  unfold readEntry
  generalize head line lines = r
  obtain ⟨value, faults, rest⟩ := r
  cases value <;> rfl

/-- The lines at the top level: the first, then the first that is left when it has been read with
the lines that belong to it, and so on. -/
def topLevelFrom (head : HeadReader) : Nat → List Line → List Line
  | 0, _ => []
  | n + 1, lines =>
    match nested? none lines with
    | none => []
    | some (line, after) =>
      line :: topLevelFrom head n (readEntry head (blockUnder head) line false after).lines

/-- The lines at the top level of a template. -/
def topLevelLines (source : String) : List Line :=
  topLevelFrom (Head.read source.toList (source.toList.length + 1))
    ((Line.ofSource source.toList).length + 1) (Line.ofSource source.toList)

/-- A block does not depend on the blank lines before it. -/
theorem entriesUnder_skipBlank {head : HeadReader} (hsub : head.Consumes) {lines' : List Line}
    (h : skipBlank lines' = skipBlank lines) (parent expected : Option Nat) (afterPiped : Bool) :
    entriesUnder head parent expected afterPiped lines' =
      entriesUnder head parent expected afterPiped lines := by
  have hnested : nested? parent lines' = nested? parent lines := by
    rw [nested?, nested?, h]
  rw [entriesUnder_eq hsub, entriesUnder_eq hsub, hnested, h]

/-- The width that is expected after some lines of a block have been read. -/
def widthAfter (expected : Option Nat) (lines : List Line) : Option Nat :=
  match (written lines).head? with
  | none => expected
  | some line => some (expected.getD line.indent)

/-- Whether piped text comes before what follows the top-level lines. -/
def pipedAfter (afterPiped : Bool) (topLevel : List Line) : Bool :=
  match topLevel.getLast? with
  | none => afterPiped
  | some line => line.isPiped

namespace Motion

variable {m : Motion} {head head' : HeadReader}

/-- At the top level the lines after the source go on where the source ends. -/
theorem topLevel_move (hh : m.HeadMoves head head') (hsub : head.Consumes) (hsub' : head'.Consumes)
    (hpiped : ∀ line lines, (head line lines).value.isPiped = line.isPiped) (k : Nat) :
    ∀ expected afterPiped lines lines', lines.length < k → m.AllPlaced lines →
    m.Continues lines lines' →
    (∀ entry ∈ (entriesUnder head none expected afterPiped lines).1, m.Fair entry.faults) →
    (entriesUnder head' none expected afterPiped lines').1 =
      (entriesUnder head none expected afterPiped lines).1.map (BlockEntry.shift m.bytes) ++
        (entriesUnder head' none (widthAfter expected lines)
          (pipedAfter afterPiped (topLevelFrom head k lines)) m.extra).1 := by
  induction k with
  | zero =>
    intro _ _ _ _ hl
    omega
  | succ k ih =>
    intro expected afterPiped lines lines' hl hplaced hcont hfair
    have hcont' : skipBlank lines' = skipBlank (m.lines lines) := hcont
    rw [skipBlank_lines] at hcont'
    cases hskip : skipBlank lines with
    | nil =>
      have hnested : nested? none lines = none := by rw [nested?, hskip]
      have hwritten : written lines = [] := by
        rw [← written_skipBlank, hskip]
        rfl
      rw [hskip] at hcont'
      rw [entriesUnder_skipBlank hsub' hcont', entriesUnder_eq hsub, hnested, widthAfter, hwritten,
        topLevelFrom, hnested]
      rfl
    | cons line after =>
      have hnested : nested? none lines = some (line, after) := by
        rw [nested?, hskip]
        rfl
      have hnested' : nested? none lines' = some (m.line line, m.lines after) := by
        rw [nested?, hcont', hskip]
        rfl
      have hwritten := (skipBlank_eq_cons hskip).2
      have hlength := nested?_length hnested
      obtain ⟨hline, hdeep, hafter⟩ := hplaced.nested hnested
      rw [entriesUnder_eq hsub, hnested] at hfair ⊢
      simp only [List.mem_cons, forall_eq_or_imp] at hfair
      obtain ⟨hentries, hclose⟩ := readers_move hh hsub hsub' k
      have h := readEntry_move hh hsub hclose hentries.blockMoves hline hdeep afterPiped (by omega)
        hafter hfair.1.right
      have hrest := readEntry_suffix hsub (blockUnder_consumes hsub) line afterPiped after
      have hmore := ih (some (expected.getD line.indent)) _ _ _
        (Nat.lt_of_le_of_lt hrest.length_le (by omega)) (hafter.suffix hrest) h.lines hfair.2
      -- What the rest of the block starts with is what the whole block ends with: its width is set
      -- by the first line, and whether it ends in piped text by the last.
      have hwidth : widthAfter (some (expected.getD line.indent))
          (readEntry head (blockUnder head) line afterPiped after).lines = widthAfter expected lines := by
        rw [widthAfter, widthAfter, hwritten]
        split <;> rfl
      have hlast : pipedAfter (readEntry head (blockUnder head) line afterPiped after).piped
          (topLevelFrom head k (readEntry head (blockUnder head) line afterPiped after).lines) =
          pipedAfter afterPiped (topLevelFrom head (k + 1) lines) := by
        rw [readEntry_piped, hpiped, readEntry_lines, topLevelFrom, hnested]
        simp only [pipedAfter, List.getLast?_cons]
        cases (topLevelFrom head k _).getLast? <;> rfl
      rw [hwidth, hlast] at hmore
      rw [entriesUnder_eq hsub', hnested']
      simp only [line_indent, h.entry_eq, h.piped_eq, unevenIndent_move, addFaults_shift, hmore]
      rfl

end Motion

/-- A block whose first line is indented as expected is read as if nothing came before it, if that
line is not piped text after piped text. -/
theorem entriesUnder_start {head : HeadReader} (hsub : head.Consumes)
    (hpiped : ∀ line lines, (head line lines).value.isPiped = line.isPiped) {expected : Option Nat}
    {afterPiped : Bool} (hexpected : expected = none ∨ expected = some width)
    (hflat : ∀ line ∈ (written lines).head?, line.indent = width)
    (hseam : ∀ line ∈ (written lines).head?, afterPiped = true → line.isPiped = false) :
    entriesUnder head none expected afterPiped lines = entriesUnder head none none false lines := by
  rw [entriesUnder_eq hsub, entriesUnder_eq hsub]
  cases hnested : nested? none lines with
  | none => rfl
  | some found =>
    obtain ⟨line, after⟩ := found
    have hwritten := (skipBlank_eq_cons (nested?_eq_some hnested).1).2
    have hhead : line ∈ (written lines).head? := by rw [hwritten]; rfl
    have hwidth : expected.getD line.indent = (none : Option Nat).getD line.indent := by
      rw [hflat line hhead]
      rcases hexpected with rfl | rfl <;> rfl
    have hentry : readEntry head (blockUnder head) line afterPiped after =
        readEntry head (blockUnder head) line false after := by
      cases afterPiped with
      | false => rfl
      | true =>
        refine readEntry_afterPiped ?_ _ true
        rw [hpiped]
        exact hseam line hhead rfl
    simp only [hwidth, hentry]

/-! ## Blocks in two parts -/

theorem assemble_append (done : List Node) (a b : List BlockEntry) :
    assemble done (a ++ b) =
      ((assemble (assemble done a).1.reverse b).1,
        (assemble done a).2 ++ (assemble (assemble done a).1.reverse b).2) := by
  induction a generalizing done with
  | nil => simp [assemble]
  | cons entry a ih =>
    obtain ⟨faults, sibling⟩ := entry
    cases sibling <;> simp [assemble, ih]

/-- The node is one that an `else` may belong to. -/
def Node.opensElse (node : Node) : Prop := node.kind = "Conditional" ∨ node.kind = "Each"

instance (node : Node) : Decidable node.opensElse := inferInstanceAs (Decidable (_ ∨ _))

/-- A further branch goes to the last node, not to one before it. -/
theorem attach_append (branch : Alternate) (s : Span) (node : Node) (done below : List Node) :
    attach branch s (node :: done ++ below) =
      ((attach branch s (node :: done)).1 ++ below, (attach branch s (node :: done)).2) := by
  cases node with
  | conditional test consequent alternates span =>
    simp only [List.cons_append, attach]
    split <;> rfl
  | _ => rfl

theorem attach_orphan {below : List Node} (h : ∀ node ∈ below.head?, ¬ node.opensElse)
    (branch : Alternate) (s : Span) : attach branch s below = (below, [⟨.orphanElse, s⟩]) := by
  cases below with
  | nil => rfl
  | cons node below =>
    have hnode := h node rfl
    cases node with
    | conditional => exact absurd (.inl rfl) hnode
    | each => exact absurd (.inr rfl) hnode
    | _ => rfl

/-- Nodes before a block do not change it, unless an `else` of the block belongs to them. -/
theorem assemble_onto {below : List Node} (entries : List BlockEntry) (done : List Node)
    (h : (∀ node ∈ below.head?, ¬ node.opensElse) ∨
      ∀ fault ∈ (assemble done entries).2, fault.cause ≠ .orphanElse) :
    assemble (done ++ below) entries =
      (below.reverse ++ (assemble done entries).1, (assemble done entries).2) := by
  induction entries generalizing done with
  | nil => simp [assemble]
  | cons entry entries ih =>
    obtain ⟨faults, sibling⟩ := entry
    cases sibling with
    | nodes list =>
      rw [assemble] at h
      have hmore := ih (list.reverse ++ done)
        (h.imp_right fun hall fault hfault => hall fault (List.mem_append_right _ hfault))
      rw [List.append_assoc] at hmore
      simp only [assemble, hmore]
    | alternate branch s =>
      cases done with
      | nil =>
        rcases h with hbelow | hall
        · simp only [List.nil_append, assemble, attach_orphan hbelow]
          have hmore := ih [] (.inl hbelow)
          rw [List.nil_append] at hmore
          rw [hmore]
          rfl
        · -- Alone, the branch would be an orphan.
          refine absurd rfl (hall ⟨.orphanElse, s⟩ ?_)
          simp [assemble, attach]
      | cons node done =>
        rw [assemble] at h
        have hmore := ih (attach branch s (node :: done)).1
          (h.imp_right fun hall fault hfault => hall fault (List.mem_append_right _ hfault))
        simp only [assemble, attach_append, hmore]

/-! ## Two templates one after the other -/

/-- The entries of the top level of a source. -/
def topLevelEntries (text : List Char) : List BlockEntry :=
  (entriesUnder (Head.read text (text.length + 1)) none none false (Line.ofSource text)).1

theorem parse_topLevel (source : String) :
    Document.parse source =
      (⟨(assemble [] (topLevelEntries source.toList)).1, byteLength source.toList⟩,
        (assemble [] (topLevelEntries source.toList)).2) := parse_eq source

/-- Nothing was written before: the second part is read as in its own source. -/
theorem entriesUnder_back (a b : List Char) {k : Nat} (hk : b.length < k) :
    (entriesUnder (Head.read (a ++ '\n' :: b) k) none none false
        ((Motion.back a b).lines (Line.ofSource b))).1 =
      (topLevelEntries b).map (BlockEntry.shift (byteLength a + 1)) := by
  have hh : (Motion.back a b).HeadMoves (Head.read b (b.length + 1)) (Head.read (a ++ '\n' :: b) k) :=
    Motion.headMoves_read (Motion.back a b) hk
  have h := Motion.topLevel_move hh (Head.read_consumes _ _) (Head.read_consumes _ _)
    (fun line lines => Head.read_isPiped _ _ line lines) ((Line.ofSource b).length + 1) none false
    (Line.ofSource b) _ (Nat.lt_succ_self _)
    (fun line hline => ⟨Line.placed_of_mem_ofSource hline, fun _ => Nat.zero_le _⟩)
    (Motion.Continues.refl _) (fun _ _ => .inl rfl)
  rw [h]
  exact List.append_nil _

theorem shift_zero_entries (entries : List BlockEntry) : entries.map (BlockEntry.shift 0) = entries := by
  have hentry : ∀ entry : BlockEntry, entry.shift 0 = entry := by
    intro entry
    obtain ⟨faults, sibling⟩ := entry
    cases sibling with
    | nodes list =>
      simp only [BlockEntry.shift, Sibling.shift, map_faultShift_zero, ← shiftNodes_eq_map,
        shiftNodes_zero]
    | alternate branch s =>
      simp only [BlockEntry.shift, Sibling.shift, map_faultShift_zero, Alternate.shift_zero,
        Span.shift_zero]
  rw [List.map_congr_left fun entry _ => hentry entry, List.map_id']

/-- The top level of two sources one after the other is that of the first, then that of the second
behind it, if both start at one width and no line of the first stands left of it. -/
theorem topLevelEntries_append (a b : String)
    (ha : ∀ line ∈ (written (Line.ofSource a.toList)).head?, line.indent = width)
    (hb : ∀ line ∈ (written (Line.ofSource b.toList)).head?, line.indent = width)
    (hdeep : ∀ line ∈ Line.ofSource a.toList, line.isBlank = false → width ≤ line.indent)
    (hclosed : ∀ entry ∈ topLevelEntries a.toList,
      ∀ fault ∈ entry.faults, fault.cause ≠ .unclosedDelimiter '(')
    (hpiped : ¬ ((∃ line ∈ (topLevelLines a).getLast?, line.isPiped = true) ∧
      ∃ line ∈ (written (Line.ofSource b.toList)).head?, line.isPiped = true)) :
    topLevelEntries (a.toList ++ '\n' :: b.toList) =
      topLevelEntries a.toList ++
        (topLevelEntries b.toList).map (BlockEntry.shift (byteLength a.toList + 1)) := by
  let m := Motion.front a.toList b.toList hb
  have hlength : a.toList.length < (a.toList ++ '\n' :: b.toList).length + 1 := by
    rw [List.length_append]
    omega
  have hlength' : b.toList.length < (a.toList ++ '\n' :: b.toList).length + 1 := by
    rw [List.length_append, List.length_cons]
    omega
  have hmove := Motion.topLevel_move (Motion.headMoves_read m hlength) (Head.read_consumes _ _)
    (Head.read_consumes _ _) (fun line lines => Head.read_isPiped _ _ line lines)
    ((Line.ofSource a.toList).length + 1) none false (Line.ofSource a.toList) _ (Nat.lt_succ_self _)
    (fun line hline => ⟨Line.placed_of_mem_ofSource hline, hdeep line hline⟩) (Motion.Continues.refl _)
    (fun entry hentry => .inr (hclosed entry hentry))
  have hwidth : widthAfter none (Line.ofSource a.toList) = none ∨
      widthAfter none (Line.ofSource a.toList) = some width := by
    rw [widthAfter]
    split
    · exact .inl rfl
    · rename_i line hline
      exact .inr (congrArg some (ha line hline))
  -- A line feed stands between piped lines only, so none stands at the seam.
  have hseam : ∀ line ∈ (written m.extra).head?,
      pipedAfter false (topLevelLines a) = true → line.isPiped = false := by
    intro line hline hlast
    obtain ⟨first, hfirst, -, htext⟩ := Motion.head_written_back hline
    have hsame : line.isPiped = first.isPiped := by rw [Line.isPiped, ← htext, Line.isPiped]
    rw [pipedAfter] at hlast
    split at hlast
    · cases hlast
    · rename_i last hlastLine
      cases hfirstPiped : first.isPiped with
      | false => exact hsame.trans hfirstPiped
      | true => exact absurd ⟨⟨last, hlastLine, hlast⟩, first, hfirst, hfirstPiped⟩ hpiped
  have hflat : ∀ line ∈ (written m.extra).head?, line.indent = width := by
    intro line hline
    obtain ⟨first, hfirst, hindent, -⟩ := Motion.head_written_back hline
    exact hindent.symm.trans (hb first hfirst)
  have hstart := entriesUnder_start
    (Head.read_consumes (a.toList ++ '\n' :: b.toList) ((a.toList ++ '\n' :: b.toList).length + 1))
    (fun line lines => Head.read_isPiped _ _ line lines) hwidth hflat hseam
  rw [topLevelEntries, Motion.ofSource_front a.toList b.toList hb]
  refine hmove.trans ?_
  rw [show m.bytes = 0 from rfl, shift_zero_entries]
  refine congrArg (topLevelEntries a.toList ++ ·) ?_
  exact (congrArg Prod.fst hstart).trans (entriesUnder_back a.toList b.toList hlength')

/-- Two templates one after the other give the nodes and the faults of the first, then those of the
second behind it. -/
theorem parse_concatenation (a b : String)
    (ha : ∀ line ∈ (written (Line.ofSource a.toList)).head?, line.indent = 0)
    (hb : ∀ line ∈ (written (Line.ofSource b.toList)).head?, line.indent = 0)
    (hclosed : ∀ fault ∈ (Document.parse a).2, fault.cause ≠ .unclosedDelimiter '(')
    (hpiped : ¬ ((∃ line ∈ (topLevelLines a).getLast?, line.isPiped = true) ∧
      ∃ line ∈ (written (Line.ofSource b.toList)).head?, line.isPiped = true))
    (helse : (∀ node ∈ (Document.parse a).1.nodes.getLast?, ¬ node.opensElse) ∨
      ∀ fault ∈ (Document.parse b).2, fault.cause ≠ .orphanElse) :
    let bytes := byteLength a.toList + 1
    (Document.parse (a ++ "\n" ++ b)).1.nodes =
        (Document.parse a).1.nodes ++ (Document.parse b).1.nodes.map (Node.shift bytes) ∧
      (Document.parse (a ++ "\n" ++ b)).2 =
        (Document.parse a).2 ++ (Document.parse b).2.map (Fault.shift bytes) := by
  intro bytes
  have htext : (a ++ "\n" ++ b).toList = a.toList ++ '\n' :: b.toList := by
    simp
  rw [parse_topLevel a] at hclosed helse ⊢
  rw [parse_topLevel b] at helse ⊢
  rw [parse_topLevel, htext]
  have hentries := topLevelEntries_append a b ha hb (fun _ _ _ => Nat.zero_le _)
    (fun entry hentry fault hfault => hclosed fault (assemble_faults hentry [] hfault)) hpiped
  have hshift := assemble_shift bytes [] (topLevelEntries b.toList)
  rw [List.map_nil] at hshift
  have hbelow : (∀ node ∈ (assemble [] (topLevelEntries a.toList)).1.reverse.head?, ¬ node.opensElse) ∨
      ∀ fault ∈ (assemble [] ((topLevelEntries b.toList).map (BlockEntry.shift bytes))).2,
        fault.cause ≠ .orphanElse := by
    rw [List.head?_reverse, hshift]
    refine helse.imp_right fun hall fault hfault => ?_
    obtain ⟨original, horiginal, rfl⟩ := List.mem_map.mp hfault
    exact hall original horiginal
  -- The nodes of the first template lie below those of the second.
  have honto := assemble_onto _ [] hbelow
  rw [List.nil_append, List.reverse_reverse, hshift] at honto
  rw [hentries, assemble_append, honto]
  simp only [shiftBoth, and_self]

/-- Behind a comment an `else` is an orphan as it is alone, and the condition above it takes no part. -/
theorem parse_orphan_after_comment :
    (Document.parse "if x\n  p(y=1\n  z=2)\n//c\n  d").2 = [] ∧
      (Document.parse "\nelse\n  b\n| z").2 = [⟨.orphanElse, ⟨1, 5⟩⟩] ∧
      (Document.parse ("if x\n  p(y=1\n  z=2)\n//c\n  d" ++ "\n" ++ "\nelse\n  b\n| z")).1.nodes =
        (Document.parse "if x\n  p(y=1\n  z=2)\n//c\n  d").1.nodes ++
          (Document.parse "\nelse\n  b\n| z").1.nodes.map (Node.shift 28) ∧
      (Document.parse ("if x\n  p(y=1\n  z=2)\n//c\n  d" ++ "\n" ++ "\nelse\n  b\n| z")).2 =
        [⟨.orphanElse, ⟨29, 33⟩⟩] := by
  have hfirst : (Document.parse "if x\n  p(y=1\n  z=2)\n//c\n  d").2 = [] := by
    decide +kernel
  have hsecond : (Document.parse "\nelse\n  b\n| z").2 = [⟨.orphanElse, ⟨1, 5⟩⟩] := by
    decide +kernel
  have hbytes : byteLength "if x\n  p(y=1\n  z=2)\n//c\n  d".toList + 1 = 28 := by
    decide +kernel
  obtain ⟨hnodes, hfaults⟩ := parse_concatenation "if x\n  p(y=1\n  z=2)\n//c\n  d"
    "\nelse\n  b\n| z" (by decide +kernel) (by decide +kernel) (by decide +kernel)
    (by decide +kernel) (.inl (by decide +kernel))
  rw [hbytes] at hnodes hfaults
  rw [hfirst, hsecond] at hfaults
  exact ⟨hfirst, hsecond, hnodes, hfaults⟩
end PugComponents.Template
