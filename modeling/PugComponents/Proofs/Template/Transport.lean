import PugComponents.Proofs.Template.Motion

/- Blocks of a source inside a larger one. What follows the source starts with a
   line that is indented no more than the lines of the source, so it belongs to no
   block under one of them: a block is read as in its own source, shifted, and the
   lines left go on with those that follow (`readers_move`). The two agree on what
   is left only up to blank lines, since a block passes the blank lines after
   it, and those may be followed by more. -/
namespace PugComponents.Template

open Text

namespace Motion

variable {m : Motion}

/-! ## The lines that are left -/

/-- The lines left in the larger source are those left in the source with the lines after it, but
for blank lines at the front. -/
def Continues (m : Motion) (rest rest' : List Line) : Prop :=
  skipBlank rest' = skipBlank (m.lines rest)

@[simp] theorem line_isBlank (line : Line) : (m.line line).isBlank = line.isBlank := rfl

theorem lines_cons (line : Line) (lines : List Line) :
    m.lines (line :: lines) = m.line line :: m.lines lines := rfl

theorem skipBlank_lines (lines : List Line) :
    skipBlank (m.lines lines) =
      match skipBlank lines with
      | [] => skipBlank m.extra
      | line :: after => m.line line :: m.lines after := by
  induction lines with
  | nil => rfl
  | cons line lines ih =>
    rw [lines_cons]
    cases h : line.isBlank with
    | true => rw [skipBlank_cons_of_blank h, skipBlank_cons_of_blank ((line_isBlank line).trans h), ih]
    | false =>
      rw [skipBlank_cons_of_written h, skipBlank_cons_of_written ((line_isBlank line).trans h)]

theorem Continues.refl (lines : List Line) : m.Continues lines (m.lines lines) := rfl

variable {rest : List Line}

theorem Continues.skipBlank {rest' : List Line} (h : m.Continues rest rest') :
    m.Continues (skipBlank rest) (skipBlank rest') := by
  rw [Continues, skipBlank_idem, h, skipBlank_lines, skipBlank_lines, skipBlank_idem]

variable {line : Line}

/-- The first written line after the source is indented by no more than the floor. -/
theorem indent_of_extra {after : List Line} (h : Template.skipBlank m.extra = line :: after) :
    line.indent ≤ m.floor :=
  m.extra_indent line (by rw [(skipBlank_eq_cons h).2]; rfl)

variable {indent : Nat}

theorem nested?_move {rest' : List Line} (h : m.Continues rest rest') (hfloor : m.floor ≤ indent) :
    nested? (some indent) rest' =
      (nested? (some indent) rest).map fun found => (m.line found.1, m.lines found.2) := by
  unfold nested?
  rw [h, skipBlank_lines]
  cases Template.skipBlank rest with
  | nil =>
    cases hextra : Template.skipBlank m.extra with
    | nil => rfl
    | cons line after =>
      have hunder : ¬ line.isUnder (some indent) = true := by
        simpa [Line.isUnder] using Nat.le_trans (indent_of_extra hextra) hfloor
      simp only [if_neg hunder]
      rfl
  | cons line after =>
    simp only [show (m.line line).isUnder (some indent) = line.isUnder (some indent) from rfl]
    split <;> rfl

@[simp] theorem line_isChild (indent : Nat) (line : Line) :
    (m.line line).isChild indent = line.isChild indent := rfl

/-- A written line that is not indented more is no child. -/
theorem isChild_of_flat (hblank : line.isBlank = false) (hflat : line.indent ≤ indent) :
    ¬ line.isChild indent = true := by
  simpa [Line.isChild, hblank] using hflat

variable {lines : List Line}

theorem skipChildren_of_flat (h : ∀ line ∈ (written lines).head?, line.indent ≤ indent) :
    skipChildren indent lines = Template.skipBlank lines := by
  rw [skipChildren_eq]
  induction lines with
  | nil => rfl
  | cons line lines ih =>
    cases hblank : line.isBlank with
    | true =>
      rw [written_cons_of_blank hblank] at h
      rw [skipBlank_cons_of_blank hblank, List.dropWhile_cons_of_pos (by simp [Line.isChild, hblank])]
      exact ih h
    | false =>
      have hflat : line.indent ≤ indent := h line (by rw [written_cons_of_written hblank]; rfl)
      rw [skipBlank_cons_of_written hblank, List.dropWhile_cons_of_neg (isChild_of_flat hblank hflat)]

/-- The first written line after the source is no child of a line in it. -/
theorem extra_flat (hfloor : m.floor ≤ indent) :
    ∀ line ∈ (written m.extra).head?, line.indent ≤ indent :=
  fun line hline => Nat.le_trans (m.extra_indent line hline) hfloor

theorem skipChildren_move (hfloor : m.floor ≤ indent) (lines : List Line) :
    m.Continues (skipChildren indent lines) (skipChildren indent (m.lines lines)) := by
  induction lines with
  | nil =>
    show Template.skipBlank (skipChildren indent m.extra) = Template.skipBlank m.extra
    rw [skipChildren_of_flat (extra_flat hfloor), skipBlank_idem]
  | cons line lines ih =>
    rw [skipChildren_eq, skipChildren_eq, lines_cons]
    by_cases h : line.isChild indent = true
    · rw [List.dropWhile_cons_of_pos h, List.dropWhile_cons_of_pos ((line_isChild indent line).trans h)]
      exact ih
    · rw [List.dropWhile_cons_of_neg h, List.dropWhile_cons_of_neg (by rwa [line_isChild])]
      exact Continues.refl _

/-- What is read from lines, in its own source and in the larger one. -/
structure Moved {α : Type} (m : Motion) (f : α → α) (r r' : Reading α) : Prop where
  value_eq : r'.value = f r.value
  faults_eq : r'.faults = r.faults.map (Fault.shift m.bytes)
  lines : m.Continues r.lines r'.lines

theorem Moved.eq {α : Type} {f : α → α} {r r' : Reading α} (h : Moved m f r r') :
    r' = ⟨f r.value, r.faults.map (Fault.shift m.bytes), r'.lines⟩ := by
  rw [← h.value_eq, ← h.faults_eq]

theorem rejectChildren_move (hfloor : m.floor ≤ indent) (kind : String) (lines : List Line) :
    Moved m id (rejectChildren indent kind lines) (rejectChildren indent kind (m.lines lines)) := by
  have hnested := nested?_move (Continues.refl (m := m) lines) hfloor
  unfold rejectChildren
  cases h : nested? (some indent) lines with
  | none =>
    rw [h] at hnested
    rw [hnested]
    exact ⟨rfl, rfl, (Continues.refl lines).skipBlank⟩
  | some found =>
    rw [h] at hnested
    rw [hnested]
    refine ⟨rfl, ?_, skipChildren_move hfloor lines⟩
    simp [Fault.shift]

/-! ## Raw text -/

theorem takeWhile_of_flat (h : ∀ line ∈ (written lines).head?, line.indent ≤ indent) :
    ∀ line ∈ lines.takeWhile (Line.isChild indent), line.isBlank = true := by
  induction lines with
  | nil => simp
  | cons first lines ih =>
    intro line hline
    cases hblank : first.isBlank with
    | true =>
      rw [List.takeWhile_cons_of_pos (by simp [Line.isChild, hblank])] at hline
      rw [written_cons_of_blank hblank] at h
      rcases List.mem_cons.mp hline with rfl | hline
      · exact hblank
      · exact ih h line hline
    | false =>
      have hflat : first.indent ≤ indent := h first (by rw [written_cons_of_written hblank]; rfl)
      rw [List.takeWhile_cons_of_neg (isChild_of_flat hblank hflat)] at hline
      cases hline

/-- The children of a line are those it has in its own source; only blank lines come with them. -/
theorem takeWhile_move (hfloor : m.floor ≤ indent) (lines : List Line) :
    ∃ blanks : List Line, (∀ line ∈ blanks, line.isBlank = true) ∧
      (m.lines lines).takeWhile (Line.isChild indent) =
        (lines.takeWhile (Line.isChild indent)).map m.line ++ blanks := by
  induction lines with
  | nil => exact ⟨_, takeWhile_of_flat (extra_flat hfloor), rfl⟩
  | cons line lines ih =>
    rw [lines_cons]
    by_cases h : line.isChild indent = true
    · obtain ⟨blanks, hblanks, heq⟩ := ih
      refine ⟨blanks, hblanks, ?_⟩
      rw [List.takeWhile_cons_of_pos h, List.takeWhile_cons_of_pos ((line_isChild indent line).trans h),
        heq]
      rfl
    · refine ⟨[], by simp, ?_⟩
      rw [List.takeWhile_cons_of_neg h, List.takeWhile_cons_of_neg (by rwa [line_isChild])]
      rfl

theorem rawLines_move (hfloor : m.floor ≤ indent) (lines : List Line) :
    rawLines indent (m.lines lines) = (rawLines indent lines).map m.line := by
  obtain ⟨blanks, hblanks, heq⟩ := takeWhile_move hfloor lines
  have hpast : ∀ line ∈ blanks.reverse, line.isBlank = true :=
    fun line hline => hblanks line (List.mem_reverse.mp hline)
  rw [rawLines_eq, rawLines_eq, heq, List.reverse_append, List.dropWhile_append_of_pos hpast,
    ← List.map_reverse, List.dropWhile_map, ← List.map_reverse]
  rfl

theorem commonIndent?_move (lines : List Line) :
    commonIndent? (lines.map m.line) = commonIndent? lines := by
  unfold commonIndent?
  rw [List.filter_map, List.map_map]
  rfl

theorem takeRaw_move (hfloor : m.floor ≤ indent) (lines : List Line) :
    takeRaw indent (m.lines lines) =
      ⟨(takeRaw indent lines).value.map fun raw => (raw.1, raw.2 + m.bytes), [],
        m.lines (takeRaw indent lines).lines⟩ := by
  have hdrop : (m.lines lines).drop (rawLines indent lines).length =
      m.lines (lines.drop (rawLines indent lines).length) := by
    have hle := (rawLines_isPrefix indent lines).length_le
    rw [Motion.lines, List.drop_append_of_le_length (by rw [List.length_map]; exact hle), ← List.map_drop]
    rfl
  unfold takeRaw
  simp only [rawLines_move hfloor, List.length_map, hdrop, commonIndent?_move, List.map_map]
  cases rawLines indent lines with
  | nil => cases commonIndent? ([] : List Line) <;> rfl
  | cons first rest => cases commonIndent? (first :: rest) <;> rfl

/-! ## Blocks and branches -/

/-- All lines lie in the source, and the written ones are indented by the floor at least. -/
def AllPlaced (m : Motion) (lines : List Line) : Prop :=
  ∀ line ∈ lines, line.Placed m.source ∧ (line.isBlank = false → m.floor ≤ line.indent)

theorem AllPlaced.suffix (h : m.AllPlaced lines) (hrest : rest <:+ lines) : m.AllPlaced rest :=
  fun line hline => h line (hrest.subset hline)

/-- The next line under a parent, and the lines after it. -/
theorem AllPlaced.nested {after : List Line} {parent : Option Nat} (h : m.AllPlaced lines)
    (hnested : nested? parent lines = some (line, after)) :
    line.Placed m.source ∧ m.floor ≤ line.indent ∧ m.AllPlaced after := by
  have hall := h.suffix (nested?_suffix hnested)
  have hwritten := (skipBlank_eq_cons (nested?_eq_some hnested).1).1
  obtain ⟨hplaced, hfloor⟩ := hall line List.mem_cons_self
  exact ⟨hplaced, hfloor hwritten, hall.suffix (List.suffix_cons line after)⟩

/-- The head of a line is read alike in the source and in the larger one. -/
def HeadMoves (m : Motion) (head head' : HeadReader) : Prop :=
  ∀ line lines, line.Placed m.source → m.Fair (head line lines).faults →
    head' (m.line line) (m.lines lines) = m.reading (head line lines)

/-- Fewer than `k` lines are read alike in the source and in the larger one. -/
def ReaderMoves {α : Type} (m : Motion) (k : Nat) (f : α → α)
    (read read' : Nat → List Line → Reading α) : Prop :=
  ∀ indent lines lines', m.floor ≤ indent → lines.length < k → m.AllPlaced lines →
    m.Continues lines lines' → m.Fair (read indent lines).faults →
    Moved m f (read indent lines) (read' indent lines')

abbrev BlockMoves (m : Motion) (k : Nat) (block block' : BlockReader) : Prop :=
  m.ReaderMoves k (List.map (Node.shift m.bytes)) block block'

abbrev BranchesMove (m : Motion) (k : Nat) (read read' : Nat → List Line → Reading (List Branch)) :
    Prop :=
  m.ReaderMoves k (List.map (Branch.shift m.bytes)) read read'

variable {head head' : HeadReader} {block block' : BlockReader} {k : Nat}
  {branches branches' : Nat → List Line → Reading (List Branch)}

theorem closeBody_move (hb : m.BlockMoves k block block') (node : Node) (body : Body)
    (hfloor : m.floor ≤ indent) (hl : lines.length < k) (hplaced : m.AllPlaced lines)
    (hfair : m.Fair (closeBody block node body indent lines).faults) :
    Moved m (Node.shift m.bytes) (closeBody block node body indent lines)
      (closeBody block' (node.shift m.bytes) body indent (m.lines lines)) := by
  have hreject : Moved m (Node.shift m.bytes)
      ⟨node, (rejectChildren indent node.kind lines).faults, (rejectChildren indent node.kind lines).lines⟩
      ⟨node.shift m.bytes, (rejectChildren indent (node.shift m.bytes).kind (m.lines lines)).faults,
        (rejectChildren indent (node.shift m.bytes).kind (m.lines lines)).lines⟩ := by
    rw [Node.kind_shift]
    have h := rejectChildren_move hfloor node.kind lines
    exact ⟨rfl, h.faults_eq, h.lines⟩
  cases body with
  | nodes =>
    have h := hb indent lines (m.lines lines) hfloor hl hplaced (Continues.refl lines) hfair
    refine ⟨?_, h.faults_eq, h.lines⟩
    show (node.shift m.bytes).addChildren (block' indent (m.lines lines)).value = _
    rw [h.value_eq, Node.addChildren_shift]
    rfl
  | textBlock =>
    simp only [closeBody, takeRaw_move hfloor]
    cases (takeRaw indent lines).value with
    | none => exact ⟨rfl, rfl, Continues.refl _⟩
    | some raw =>
      simp only [Option.map_some, interpolated_shift]
      exact ⟨Node.addChildren_shift .., rfl, Continues.refl _⟩
  | raw =>
    simp only [closeBody, takeRaw_move hfloor]
    cases (takeRaw indent lines).value with
    | none => exact ⟨rfl, rfl, Continues.refl _⟩
    | some raw => exact ⟨Node.addRaw_shift .., rfl, Continues.refl _⟩
  | branches => exact hreject
  | leaf => exact hreject

theorem closeWith_move (hr : m.BranchesMove k branches branches') (hb : m.BlockMoves k block block')
    (pending : Pending) (hfloor : m.floor ≤ indent) (hl : lines.length < k)
    (hplaced : m.AllPlaced lines)
    (hfair : m.Fair (closeWith branches block pending indent lines).faults) :
    Moved m (Node.shift m.bytes) (closeWith branches block pending indent lines)
      (closeWith branches' block' (pending.shift m.bytes) indent (m.lines lines)) := by
  by_cases hbody : pending.body = .branches
  · have hbody' : (pending.shift m.bytes).body = .branches := hbody
    rw [closeWith_branches hbody] at hfair ⊢
    rw [closeWith_branches hbody']
    have h := hr indent lines (m.lines lines) hfloor hl hplaced (Continues.refl lines) hfair
    refine ⟨?_, h.faults_eq, h.lines⟩
    show nestIn (pending.hosts.map _) ((pending.node.shift m.bytes).addBranches _) = _
    rw [h.value_eq, Node.addBranches_shift, nestIn_shift]
  · have hbody' : (pending.shift m.bytes).body ≠ .branches := hbody
    rw [closeWith_body hbody] at hfair ⊢
    rw [closeWith_body hbody']
    have h := closeBody_move hb pending.node pending.body hfloor hl hplaced hfair
    refine ⟨?_, h.faults_eq, h.lines⟩
    show nestIn (pending.hosts.map _)
      (closeBody block' (pending.node.shift m.bytes) pending.body _ _).value = _
    rw [h.value_eq, nestIn_shift]

theorem line_fromEnd (hplaced : line.Placed m.source) (inline : List Char) :
    (m.line line).fromEnd inline = m.line (line.fromEnd inline) := by
  have hle : (line.text.take (line.text.length - inline.length)).length ≤ line.onward.length := by
    have htext := length_lineContent_le line.onward
    rw [← hplaced.content] at htext
    rw [List.length_take]
    omega
  simp only [Line.fromEnd, Motion.line, Line.within, List.drop_append_of_le_length hle,
    Nat.add_right_comm]

/-- What finishes a node does so alike in the source and in the larger one. -/
def CloseMoves (m : Motion) (k : Nat) (close close' : Pending → Nat → List Line → Reading Node) : Prop :=
  ∀ pending indent lines, m.floor ≤ indent → lines.length < k → m.AllPlaced lines →
    m.Fair (close pending indent lines).faults →
    Moved m (Node.shift m.bytes) (close pending indent lines)
      (close' (pending.shift m.bytes) indent (m.lines lines))

theorem inlineBlock_move {close close' : Pending → Nat → List Line → Reading Node}
    (hc : m.CloseMoves k close close') (hfloor : m.floor ≤ indent) (sub : Line) {r : Reading Head}
    (hl : r.lines.length < k) (hplaced : m.AllPlaced r.lines)
    (hfair : m.Fair (inlineBlock close indent sub r).faults) :
    Moved m (Option.map (List.map (Node.shift m.bytes))) (inlineBlock close indent sub r)
      (inlineBlock close' indent (m.line sub) (m.reading r)) := by
  obtain ⟨value, faults, lines⟩ := r
  cases value with
  | node pending =>
    have h := hc pending indent lines hfloor hl hplaced hfair.right
    refine ⟨?_, ?_, h.lines⟩
    · exact congrArg (some [·]) h.value_eq
    · show faults.map _ ++ (close' (pending.shift m.bytes) indent (m.lines lines)).faults = _
      rw [h.faults_eq, ← List.map_append]
      rfl
  | text nodes piped =>
    have h := rejectChildren_move hfloor "Text" lines
    refine ⟨rfl, ?_, h.lines⟩
    show faults.map _ ++ (rejectChildren indent "Text" (m.lines lines)).faults = _
    rw [h.faults_eq, ← List.map_append]
    rfl
  | elseBranch | whenBranch | skip =>
    refine ⟨rfl, ?_, skipChildren_move hfloor lines⟩
    simp [inlineBlock, Motion.reading, Head.shift, Fault.shift]

theorem branchBlock_move {close close' : Pending → Nat → List Line → Reading Node}
    (hc : m.CloseMoves k close close') (hh : m.HeadMoves head head') (hsub : head.Consumes)
    (hb : m.BlockMoves k block block') (hline : line.Placed m.source)
    (hfloor : m.floor ≤ line.indent) {rest : List Char} (hrest : rest <:+ line.text)
    (hl : lines.length < k) (hplaced : m.AllPlaced lines)
    (hfair : m.Fair (branchBlock close head block line rest lines).faults) :
    Moved m (Option.map (List.map (Node.shift m.bytes)))
      (branchBlock close head block line rest lines)
      (branchBlock close' head' block' (m.line line) rest (m.lines lines)) := by
  by_cases hinline : inlineBranch rest = []
  · rw [branchBlock_under hinline] at hfair ⊢
    rw [branchBlock_under hinline, line_indent, nested?_move (Continues.refl lines) hfloor]
    cases hn : nested? (some line.indent) lines with
    | none => exact ⟨rfl, rfl, (Continues.refl lines).skipBlank⟩
    | some found =>
      rw [hn] at hfair
      have h := hb line.indent lines (m.lines lines) hfloor hl hplaced (Continues.refl lines) hfair
      exact ⟨congrArg some h.value_eq, h.faults_eq, h.lines⟩
  · rw [branchBlock_inline hinline] at hfair ⊢
    have hplace := hline.fromEnd ((inlineBranch_suffix rest).trans hrest)
    have hlines := hsub (line.fromEnd (inlineBranch rest)) lines
    have hheadFair : m.Fair (head (line.fromEnd (inlineBranch rest)) lines).faults := by
      refine hfair.mono ?_
      unfold inlineBlock
      split <;> exact List.subset_append_left _ _
    rw [branchBlock_inline hinline, line_fromEnd hline, hh _ lines hplace hheadFair, line_indent]
    exact inlineBlock_move hc hfloor _ (Nat.lt_of_le_of_lt hlines.length_le hl)
      (hplaced.suffix hlines) hfair

/-- An entry of a block, in its own source and in the larger one. -/
structure EntryMoved (m : Motion) (r r' : EntryReading) : Prop where
  entry_eq : r'.entry = r.entry.shift m.bytes
  lines : m.Continues r.lines r'.lines
  piped_eq : r'.piped = r.piped

theorem readEntry_move (hh : m.HeadMoves head head') (hsub : head.Consumes)
    (hc : m.CloseMoves k (closeUnder head) (closeUnder head'))
    (hb : m.BlockMoves k (blockUnder head) (blockUnder head')) (hline : line.Placed m.source)
    (hfloor : m.floor ≤ line.indent) (afterPiped : Bool) (hl : lines.length < k)
    (hplaced : m.AllPlaced lines)
    (hfair : m.Fair (readEntry head (blockUnder head) line afterPiped lines).entry.faults) :
    EntryMoved m (readEntry head (blockUnder head) line afterPiped lines)
      (readEntry head' (blockUnder head') (m.line line) afterPiped (m.lines lines)) := by
  have hheadFair : m.Fair (head line lines).faults := by
    refine hfair.mono ?_
    unfold readEntry
    simp only
    split
    · exact List.subset_append_left _ _
    · exact List.subset_append_left _ _
    · exact List.subset_append_left _ _
    · exact List.subset_append_left _ _
    · exact List.Subset.refl _
  have hmove := hh line lines hline hheadFair
  have hlines := hsub line lines
  unfold readEntry at hfair ⊢
  simp only [hmove, closePending_eq, line_indent, line_start] at hfair ⊢
  generalize head line lines = r at hfair hlines ⊢
  obtain ⟨value, faults, rest⟩ := r
  have hl' := Nat.lt_of_le_of_lt hlines.length_le hl
  have hplaced' := hplaced.suffix hlines
  cases value with
  | node pending =>
    have h := hc pending line.indent rest hfloor hl' hplaced' hfair.right
    refine ⟨?_, h.lines, rfl⟩
    simp [Motion.reading, Head.shift, BlockEntry.shift, Sibling.shift, h.value_eq, h.faults_eq]
  | text nodes piped =>
    have h := rejectChildren_move hfloor "Text" rest
    refine ⟨?_, h.lines, rfl⟩
    have hfeed : (if (piped && afterPiped) = true then [Node.text "\n" (Span.empty (line.start + m.bytes))]
        else []) = (if (piped && afterPiped) = true then [Node.text "\n" (Span.empty line.start)]
        else []).map (Node.shift m.bytes) := by
      split <;> rfl
    simp only [Motion.reading, Head.shift, BlockEntry.shift, Sibling.shift, h.faults_eq, hfeed,
      List.map_append]
  | elseBranch test s =>
    have h := hb line.indent rest (m.lines rest) hfloor hl' hplaced' (Continues.refl rest) hfair.right
    refine ⟨?_, h.lines, rfl⟩
    simp [Motion.reading, Head.shift, BlockEntry.shift, Sibling.shift, h.value_eq, h.faults_eq]
  | whenBranch keyword s =>
    refine ⟨?_, skipChildren_move hfloor rest, rfl⟩
    simp [Motion.reading, Head.shift, BlockEntry.shift, Sibling.shift, Fault.shift]
  | skip => exact ⟨rfl, skipChildren_move hfloor rest, rfl⟩

/-- Fewer than `k` lines give the same entries in the source and in the larger one. -/
def EntriesMove (m : Motion) (k : Nat) (head head' : HeadReader) : Prop :=
  ∀ indent expected afterPiped lines lines', m.floor ≤ indent → lines.length < k →
    m.AllPlaced lines → m.Continues lines lines' →
    (∀ entry ∈ (entriesUnder head (some indent) expected afterPiped lines).1, m.Fair entry.faults) →
    (entriesUnder head' (some indent) expected afterPiped lines').1 =
        (entriesUnder head (some indent) expected afterPiped lines).1.map (BlockEntry.shift m.bytes) ∧
      m.Continues (entriesUnder head (some indent) expected afterPiped lines).2
        (entriesUnder head' (some indent) expected afterPiped lines').2

theorem EntriesMove.blockMoves (h : m.EntriesMove k head head') :
    m.BlockMoves k (blockUnder head) (blockUnder head') := by
  intro indent lines lines' hfloor hl hplaced hcont hfair
  rw [blockUnder_eq] at hfair ⊢
  rw [blockUnder_eq]
  have hentries : ∀ entry ∈ (entriesUnder head (some indent) none false lines).1,
      m.Fair entry.faults := fun entry hentry => hfair.mono (assemble_faults hentry [])
  obtain ⟨heq, hrest⟩ := h indent none false lines lines' hfloor hl hplaced hcont hentries
  have hassemble := assemble_shift m.bytes [] (entriesUnder head (some indent) none false lines).1
  rw [← heq, List.map_nil] at hassemble
  exact ⟨congrArg Prod.fst hassemble, congrArg Prod.snd hassemble, hrest⟩

theorem unevenIndent_move (width : Nat) (line : Line) :
    unevenIndent width (m.line line) = (unevenIndent width line).map (Fault.shift m.bytes) := by
  unfold unevenIndent
  rw [line_indent, line_span]
  split <;> rfl

theorem addFaults_shift (d : Nat) (faults : List Fault) (entry : BlockEntry) :
    (entry.shift d).addFaults (faults.map (Fault.shift d)) = (entry.addFaults faults).shift d := by
  simp [BlockEntry.shift, BlockEntry.addFaults]

theorem entries_step (hh : m.HeadMoves head head') (hsub : head.Consumes) (hsub' : head'.Consumes)
    (hentries : m.EntriesMove k head head')
    (hclose : m.CloseMoves k (closeUnder head) (closeUnder head')) :
    m.EntriesMove (k + 1) head head' := by
  intro indent expected afterPiped lines lines' hfloor hl hplaced hcont hfair
  rw [entriesUnder_eq hsub] at hfair ⊢
  rw [entriesUnder_eq hsub', nested?_move hcont hfloor]
  cases hn : nested? (some indent) lines with
  | none => exact ⟨rfl, hcont.skipBlank⟩
  | some found =>
    obtain ⟨line, after⟩ := found
    have hlength := nested?_length hn
    obtain ⟨hline, hdeep, hafter⟩ := hplaced.nested hn
    simp only [hn, List.mem_cons, forall_eq_or_imp] at hfair
    have h := readEntry_move hh hsub hclose hentries.blockMoves hline hdeep afterPiped (by omega)
      hafter hfair.1.right
    have hrest := readEntry_suffix hsub (blockUnder_consumes hsub) line afterPiped after
    obtain ⟨heq, hcont'⟩ := hentries indent (some (expected.getD line.indent)) _ _ _ hfloor
      (Nat.lt_of_le_of_lt hrest.length_le (by omega)) (hafter.suffix hrest) h.lines hfair.2
    simp only [Option.map_some, line_indent, h.entry_eq, h.piped_eq, unevenIndent_move,
      addFaults_shift, heq]
    exact ⟨rfl, hcont'⟩

theorem branches_step (hh : m.HeadMoves head head') (hsub : head.Consumes) (hsub' : head'.Consumes)
    (hbranches : m.BranchesMove k (branchesUnder head) (branchesUnder head'))
    (hblock : m.BlockMoves k (blockUnder head) (blockUnder head'))
    (hclose : m.CloseMoves k (closeUnder head) (closeUnder head')) :
    m.BranchesMove (k + 1) (branchesUnder head) (branchesUnder head') := by
  intro indent lines lines' hfloor hl hplaced hcont hfair
  rw [branchesUnder_eq hsub] at hfair ⊢
  rw [branchesUnder_eq hsub', nested?_move hcont hfloor]
  cases hn : nested? (some indent) lines with
  | none => exact ⟨rfl, rfl, hcont.skipBlank⟩
  | some found =>
    obtain ⟨line, after⟩ := found
    have hlength := nested?_length hn
    obtain ⟨hline, hdeep, hafter⟩ := hplaced.nested hn
    have hskip := skipChildren_suffix line.indent after
    rw [hn] at hfair
    simp only [Option.map_some, line_text, line_indent, line_span] at hfair ⊢
    cases hbranch : branchHead line.text with
    | ignored =>
      rw [hbranch] at hfair
      exact hbranches indent _ _ hfloor (Nat.lt_of_le_of_lt hskip.length_le (by omega))
        (hafter.suffix hskip) (skipChildren_move hdeep after) hfair
    | fault cause =>
      rw [hbranch] at hfair
      have h := hbranches indent _ _ hfloor (Nat.lt_of_le_of_lt hskip.length_le (by omega))
        (hafter.suffix hskip) (skipChildren_move hdeep after)
        (hfair.mono (List.subset_cons_self _ _))
      refine ⟨h.value_eq, ?_, h.lines⟩
      simp only [h.faults_eq]
      rfl
    | branch test rest =>
      rw [hbranch] at hfair
      have h := branchBlock_move hclose hh hsub hblock hline hdeep (branchHead_suffix hbranch)
        (by omega) hafter hfair.left
      have hrest := branchBlock_suffix (closeUnder_suffix hsub) hsub (blockUnder_consumes hsub) line
        rest after
      have hmore := hbranches indent _ _ hfloor (Nat.lt_of_le_of_lt hrest.length_le (by omega))
        (hafter.suffix hrest) h.lines hfair.right
      refine ⟨?_, ?_, hmore.lines⟩
      · simp only [h.value_eq, hmore.value_eq, Branch.ofBlock_shift]
        rfl
      · simp only [h.faults_eq, hmore.faults_eq, List.map_append]

/-- Blocks, branches and nodes are read alike in the source and in the larger one. -/
theorem readers_move (hh : m.HeadMoves head head') (hsub : head.Consumes) (hsub' : head'.Consumes)
    (k : Nat) :
    m.EntriesMove k head head' ∧ m.CloseMoves k (closeUnder head) (closeUnder head') := by
  have close : ∀ k, m.EntriesMove k head head' →
      m.BranchesMove k (branchesUnder head) (branchesUnder head') →
      m.CloseMoves k (closeUnder head) (closeUnder head') :=
    fun k he hr pending indent lines hfloor hl hplaced hfair =>
      closeWith_move hr he.blockMoves pending hfloor hl hplaced hfair
  suffices h : m.EntriesMove k head head' ∧
      m.BranchesMove k (branchesUnder head) (branchesUnder head') from ⟨h.1, close k h.1 h.2⟩
  induction k with
  | zero => exact ⟨fun _ _ _ _ _ _ hl => by omega, fun _ _ _ _ hl => by omega⟩
  | succ k ih =>
    obtain ⟨hentries, hbranches⟩ := ih
    have hclose := close k hentries hbranches
    exact ⟨entries_step hh hsub hsub' hentries hclose,
      branches_step hh hsub hsub' hbranches hentries.blockMoves hclose⟩

end Motion

end PugComponents.Template
