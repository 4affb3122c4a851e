import PugComponents.Proofs.Template.WrittenLines

/- Chains of conditions. A chain is an `if` or `unless` line and the `else` lines that
   follow it at the same width, each with the text under it. Each line is an entry of
   the top level with the nodes of its own text (`ChainLine.conditionEntry_eq`,
   `ChainLine.elseEntry_eq`), one behind the other (`topLevelEntries_chain`). Joined, the
   branches go to the condition up to the first `else` without a test; the lines after it
   are orphans (`assemble_chain`). So the whole source is one conditional (`parse_chain`). -/
namespace PugComponents.Template

open Text

/-! ## Conditions -/

/-- A test after `if`, or after `unless`. -/
structure Condition where
  negated : Bool
  test : List Char

namespace Condition

/-- The words that state the condition. -/
def words (c : Condition) : List Char :=
  (if c.negated then ['u', 'n', 'l', 'e', 's', 's', ' '] else ['i', 'f', ' ']) ++ c.test

/-- The test in the tree. -/
def stored (c : Condition) : String :=
  if c.negated then "!(" ++ String.ofList c.test ++ ")" else String.ofList c.test

/-- The test is not empty and trimmed, and stands on one line. -/
structure Sound (c : Condition) : Prop where
  trimmed : Trimmed c.test
  line : '\n' ∉ c.test

instance (c : Condition) : Decidable c.Sound :=
  decidable_of_iff ((c.test ≠ [] ∧ trim c.test = c.test) ∧ '\n' ∉ c.test)
    ⟨fun h => ⟨⟨h.1.1, h.1.2⟩, h.2⟩, fun h => ⟨⟨h.trimmed.ne_nil, h.trimmed.trim_eq⟩, h.line⟩⟩

variable {c : Condition}

theorem Sound.words_trimmed (h : c.Sound) : Trimmed c.words := by
  obtain ⟨negated, test⟩ := c
  cases negated with
  | true => exact h.trimmed.cons_append (by decide) ['n', 'l', 'e', 's', 's', ' ']
  | false => exact h.trimmed.cons_append (by decide) ['f', ' ']

theorem Sound.words_line (h : c.Sound) : '\n' ∉ c.words := by
  rw [words, List.mem_append]
  rintro (hmem | hmem)
  · split at hmem <;> exact absurd hmem (by decide)
  · exact h.line hmem

end Condition

/-- The words of a further branch. -/
def elseWords : Option Condition → List Char
  | none => ['e', 'l', 's', 'e']
  | some c => ['e', 'l', 's', 'e', ' '] ++ c.words

variable {condition : Option Condition}

theorem elseWords_trimmed (h : ∀ c ∈ condition, c.Sound) : Trimmed (elseWords condition) := by
  cases condition with
  | none => exact ⟨by decide, by decide⟩
  | some c => exact (h c rfl).words_trimmed.cons_append (by decide) ['l', 's', 'e', ' ']

theorem elseWords_line (h : ∀ c ∈ condition, c.Sound) : '\n' ∉ elseWords condition := by
  cases condition with
  | none => decide
  | some c =>
    rw [elseWords, List.mem_append]
    rintro (hmem | hmem)
    · exact absurd hmem (by decide)
    · exact (h c rfl).words_line hmem

/-! ## Heads -/

theorem ofTest_trimmed {test : List Char} (h : Trimmed test) (keyword : Keyword) (s : Span) :
    Head.ofTest keyword (' ' :: test) s =
      Head.fine (.single (.conditional
        (if keyword = .unlessTest then Head.negated test else String.ofList test) [] [] s) .nodes) := by
  obtain ⟨c, rest, rfl, -⟩ := h.head
  rw [Head.ofTest, h.trim_space]

theorem testAfter?_trimmed {word : String} {text test : List Char} (h : Trimmed test)
    (htext : dropPrefix? word.toList text = some (' ' :: test)) :
    Head.testAfter? word text = some test := by
  have hspace : (isWhiteSpace ' ' || ' ' == '(') = true := by decide
  obtain ⟨c, rest, rfl, -⟩ := h.head
  simp only [Head.testAfter?, htext, hspace, if_true, h.trim_space]

theorem read_condition {c : Condition} (hc : c.Sound) {line : Line} (h : line.text = c.words)
    (source : List Char) (n : Nat) (lines : List Line) :
    Head.read source (n + 1) line lines =
      ⟨.single (.conditional c.stored [] [] line.span) .nodes, [], lines⟩ := by
  obtain ⟨negated, test⟩ := c
  have htest : Trimmed test := hc.trimmed
  cases negated with
  | true =>
    have hlead : Marker.leading? line.text = some (.keyword .unlessTest, 6) := by rw [h]; rfl
    have hrest : ((⟨line.start, line.text⟩ : Place).skip (line.text.take 6)).text = ' ' :: test := by
      rw [h]
      rfl
    rw [Head.read_keyword hlead]
    simp only [Head.ofKeyword, hrest, ofTest_trimmed htest]
    rfl
  | false =>
    have hlead : Marker.leading? line.text = some (.keyword .ifTest, 2) := by rw [h]; rfl
    have hrest : ((⟨line.start, line.text⟩ : Place).skip (line.text.take 2)).text = ' ' :: test := by
      rw [h]
      rfl
    rw [Head.read_keyword hlead]
    simp only [Head.ofKeyword, hrest, ofTest_trimmed htest]
    rfl

/-- The words of a condition after `else`. -/
theorem ofElse_words {c : Condition} (hc : c.Sound) (s : Span) :
    Head.ofElse (' ' :: c.words) s = Head.fine (.elseBranch (some c.stored) s) := by
  have htrim : trim (' ' :: c.words) = c.words := hc.words_trimmed.trim_space
  have hne : c.words.isEmpty = false := List.isEmpty_eq_false_iff.mpr hc.words_trimmed.ne_nil
  unfold Head.ofElse
  simp only [htrim, hne, Bool.false_eq_true, if_false]
  obtain ⟨negated, test⟩ := c
  cases negated with
  | true =>
    have hif : Head.testAfter? "if" (Condition.words ⟨true, test⟩) = none := rfl
    have hunless : Head.testAfter? "unless" (Condition.words ⟨true, test⟩) = some test :=
      testAfter?_trimmed hc.trimmed rfl
    rw [hif, hunless]
    rfl
  | false =>
    have hif : Head.testAfter? "if" (Condition.words ⟨false, test⟩) = some test :=
      testAfter?_trimmed hc.trimmed rfl
    rw [hif]
    rfl

theorem read_else (hc : ∀ c ∈ condition, c.Sound) {line : Line}
    (h : line.text = elseWords condition) (source : List Char) (n : Nat) (lines : List Line) :
    Head.read source (n + 1) line lines =
      ⟨.elseBranch (condition.map Condition.stored) line.span, [], lines⟩ := by
  have hlead : Marker.leading? line.text = some (.keyword .elseBranch, 4) := by
    rw [h]
    cases condition <;> rfl
  rw [Head.read_keyword hlead]
  cases condition with
  | none =>
    simp only [Head.ofKeyword, h]
    rfl
  | some c =>
    have hrest : ((⟨line.start, line.text⟩ : Place).skip (line.text.take 4)).text = ' ' :: c.words := by
      rw [h]
      rfl
    simp only [Head.ofKeyword, hrest, ofElse_words (hc c rfl)]
    rfl

/-! ## The lines of a chain -/

/-- A line of a chain: its clause, and the text on the lines under it. -/
structure ChainLine (α : Type) where
  indentation : List Char
  clause : α
  body : Option (List Char)

namespace ChainLine

variable {α : Type} (write : α → List Char) (line : ChainLine α)

/-- The line itself. -/
def front : List Char := line.indentation ++ write line.clause

/-- The lines under it. -/
def below : List Char := line.body.elim [] ('\n' :: ·)

/-- The line and the lines under it. -/
def text : List Char := line.front write ++ line.below

/-- The span of the words, in a source that has the line at an offset. -/
def span (offset : Nat) : Span :=
  ⟨offset + byteLength line.indentation, offset + byteLength (line.front write)⟩

/-- The nodes of the text under the line, in a source that has the line at an offset. -/
def nodes (offset : Nat) : List Node :=
  (Document.parse (String.ofList (line.body.getD []))).1.nodes.map
    (Node.shift (offset + (byteLength (line.front write) + 1)))

/-- The line stands at the width, and what stands under it is indented more and has no faults. -/
structure Sound (width : Nat) : Prop where
  indentation : line.indentation.all isIndentation = true
  stands : line.indentation.length = width
  deeper : ∀ body ∈ line.body, ∀ other ∈ written (Line.ofSource body), width < other.indent
  faultless : ∀ body ∈ line.body, (Document.parse (String.ofList body)).2 = []

instance (width : Nat) : Decidable (line.Sound width) :=
  decidable_of_iff (line.indentation.all isIndentation = true ∧ line.indentation.length = width ∧
      (∀ body ∈ line.body, ∀ other ∈ written (Line.ofSource body), width < other.indent) ∧
      ∀ body ∈ line.body, (Document.parse (String.ofList body)).2 = [])
    ⟨fun h => ⟨h.1, h.2.1, h.2.2.1, h.2.2.2⟩,
      fun h => ⟨h.indentation, h.stands, h.deeper, h.faultless⟩⟩

/-- The line as it is read. -/
def header : Line :=
  ⟨1, line.indentation.length, line.indentation.length, write line.clause,
    write line.clause ++ line.below⟩

variable {write line} {width : Nat}

theorem Sound.atFront (h : line.Sound width) (hwords : Trimmed (write line.clause))
    (hline : '\n' ∉ write line.clause) : Line.atFront 1 0 (line.text write) = line.header write := by
  have hbelow : line.below = [] ∨ ∃ t, line.below = '\n' :: t := by
    unfold below
    cases line.body with
    | none => exact .inl rfl
    | some body => exact .inr ⟨body, rfl⟩
  have hcontent := lineContent_words hwords hline hbelow
  obtain ⟨c, cs, hhead, hc⟩ := hwords.head
  rw [text, front, List.append_assoc, atFront_indented h.indentation (hcontent.trans hhead) hc, hcontent,
    Nat.zero_add]
  rfl

/-- The lines under it, as they are read. -/
def after (write : α → List Char) (line : ChainLine α) : List Line :=
  line.body.elim [] fun body => (Motion.back (line.front write) body).lines (Line.ofSource body)

theorem Sound.feed_notMem_front (h : line.Sound width) (hline : '\n' ∉ write line.clause) :
    '\n' ∉ line.front write := by
  rw [front, List.mem_append]
  rintro (hmem | hmem)
  · cases List.all_eq_true.mp h.indentation _ hmem
  · exact hline hmem

theorem Sound.ofSource (h : line.Sound width) (hwords : Trimmed (write line.clause))
    (hline : '\n' ∉ write line.clause) :
    Line.ofSource (line.text write) = line.header write :: line.after write := by
  have hfront := h.feed_notMem_front hline
  have hfirst := h.atFront hwords hline
  unfold text below after at *
  cases hbody : line.body with
  | none =>
    rw [hbody, Option.elim_none, List.append_nil] at hfirst
    rw [Option.elim_none, List.append_nil, ofSource_line hfront, hfirst]
    rfl
  | some body =>
    rw [hbody, Option.elim_some] at hfirst
    rw [Option.elim_some, ofSource_line_append hfront, hfirst]
    rfl

/-- What is under the line is the text under it, read alone. -/
theorem Sound.block (h : line.Sound width) (write : α → List Char) :
    ∃ rest, blockUnder (Head.read (line.text write) ((line.text write).length + 1)) width
        (line.after write) = ⟨line.nodes write 0, [], rest⟩ ∧ skipBlank rest = [] := by
  obtain ⟨indentation, clause, body⟩ := line
  cases body with
  | none => exact ⟨[], rfl, rfl⟩
  | some body =>
    have hlength : body.length < (text write ⟨indentation, clause, some body⟩).length + 1 := by
      simp only [text, below, Option.elim_some, List.length_append, List.length_cons]
      omega
    obtain ⟨rest, hblock, hrest⟩ := blockUnder_back (front write ⟨indentation, clause, some body⟩) body
      hlength (h.deeper body rfl)
    refine ⟨rest, hblock.trans ?_, hrest⟩
    simp only [h.faultless body rfl, nodes, Nat.zero_add, Option.getD_some, List.map_nil]

theorem header_written (hwords : Trimmed (write line.clause)) : (line.header write).isBlank = false := by
  obtain ⟨c, cs, hhead, hc⟩ := hwords.head
  simp [Line.isBlank, header, hhead, isBlank, hc]

/-- The entry of a line is all that its text gives. -/
theorem Sound.topLevelEntries_text (h : line.Sound width) (hwords : Trimmed (write line.clause))
    (hline : '\n' ∉ write line.clause) {entry : BlockEntry} {rest : List Line}
    (hentry : readEntry (Head.read (line.text write) ((line.text write).length + 1))
      (blockUnder (Head.read (line.text write) ((line.text write).length + 1))) (line.header write)
      false (line.after write) = ⟨entry, rest, false⟩)
    (hrest : skipBlank rest = []) : topLevelEntries (line.text write) = [entry] := by
  rw [topLevelEntries_first (h.ofSource hwords hline) (header_written hwords) hentry,
    entriesUnder_blank (Head.read_consumes _ _) hrest]

theorem Sound.header_span (h : line.Sound width) : (line.header write).span = line.span write 0 := by
  have hbytes := byteLength_of_isIndentation h.indentation
  simp only [Line.span, Line.stop, header, span, front, byteLength_append, hbytes, Nat.zero_add]

/-- The entry of the first line. -/
def conditionEntry (line : ChainLine Condition) : BlockEntry :=
  ⟨[], .nodes [.conditional line.clause.stored (line.nodes Condition.words 0) []
    (line.span Condition.words 0)]⟩

theorem conditionEntry_eq {line : ChainLine Condition} (h : line.Sound width) (hc : line.clause.Sound) :
    topLevelEntries (line.text Condition.words) = [line.conditionEntry] := by
  obtain ⟨rest, hblock, hrest⟩ := h.block Condition.words
  refine h.topLevelEntries_text hc.words_trimmed hc.words_line ?_ hrest
  have hread := read_condition hc (show (line.header Condition.words).text = _ from rfl)
    (line.text Condition.words) (line.text Condition.words).length (line.after Condition.words)
  have hindent : (line.header Condition.words).indent = width := h.stands
  simp only [readEntry, hread, Head.single, closePending_eq, closeUnder, closeWith, closeBody, hindent,
    hblock, h.header_span, Node.addChildren, nestIn, List.foldr_nil, List.nil_append, conditionEntry]

/-- The branch of a further line, in a source that has the line at an offset. -/
def alternate (line : ChainLine (Option Condition)) (offset : Nat) : Alternate :=
  .ofTest (line.clause.map Condition.stored) (line.nodes elseWords offset) (line.span elseWords offset)

def elseEntry (line : ChainLine (Option Condition)) (offset : Nat) : BlockEntry :=
  ⟨[], .alternate (line.alternate offset) (line.span elseWords offset)⟩

theorem elseEntry_eq {line : ChainLine (Option Condition)} (h : line.Sound width)
    (hc : ∀ c ∈ line.clause, c.Sound) : topLevelEntries (line.text elseWords) = [line.elseEntry 0] := by
  obtain ⟨rest, hblock, hrest⟩ := h.block elseWords
  refine h.topLevelEntries_text (elseWords_trimmed hc) (elseWords_line hc) ?_ hrest
  have hread := read_else hc (show (line.header elseWords).text = _ from rfl)
    (line.text elseWords) (line.text elseWords).length (line.after elseWords)
  have hindent : (line.header elseWords).indent = width := h.stands
  simp only [readEntry, hread, hindent, hblock, h.header_span, elseEntry, alternate, List.nil_append]

/-- The written lines of the text are the line itself and lines under it. -/
theorem Sound.flush (h : line.Sound width) (hwords : Trimmed (write line.clause))
    (hline : '\n' ∉ write line.clause) (hpiped : (line.header write).isPiped = false) :
    FlushAt width (line.text write) := by
  have hlines := h.ofSource hwords hline
  refine ⟨⟨_, _, hlines, header_written hwords, h.stands, hpiped⟩, ?_⟩
  rw [hlines]
  intro other hother hwritten
  rcases List.mem_cons.mp hother with rfl | hother
  · exact Nat.le_of_eq h.stands.symm
  -- Moving a line does not change its width.
  · unfold after at hother
    cases hbody : line.body with
    | none =>
      rw [hbody] at hother
      cases hother
    | some body =>
      rw [hbody, Option.elim_some, Motion.lines_back] at hother
      obtain ⟨original, horiginal, rfl⟩ := List.mem_map.mp hother
      have hmem : original ∈ written (Line.ofSource body) :=
        List.mem_filter.mpr ⟨horiginal, Bool.not_eq_true' _ ▸ hwritten⟩
      exact Nat.le_of_lt (h.deeper body hbody original hmem)

theorem nodes_shift (offset d : Nat) :
    (line.nodes write offset).map (Node.shift d) = line.nodes write (offset + d) := by
  rw [nodes, List.map_map, nodes, Nat.add_right_comm]
  exact List.map_congr_left fun node _ => node.shift_shift _ d

theorem span_shift (offset d : Nat) : (line.span write offset).shift d = line.span write (offset + d) := by
  simp only [span, Span.shift, Nat.add_right_comm]

theorem elseEntry_shift (line : ChainLine (Option Condition)) (offset d : Nat) :
    (line.elseEntry offset).shift d = line.elseEntry (offset + d) := by
  simp only [elseEntry, alternate, BlockEntry.shift, Sibling.shift, ← Alternate.ofTest_shift, nodes_shift,
    span_shift, List.map_nil]

theorem flush_condition {line : ChainLine Condition} (h : line.Sound width) (hc : line.clause.Sound) :
    FlushAt width (line.text Condition.words) := by
  refine h.flush hc.words_trimmed hc.words_line ?_
  obtain ⟨indentation, ⟨negated, test⟩, body⟩ := line
  cases negated <;> rfl

theorem flush_else {line : ChainLine (Option Condition)} (h : line.Sound width)
    (hc : ∀ c ∈ line.clause, c.Sound) : FlushAt width (line.text elseWords) := by
  refine h.flush (elseWords_trimmed hc) (elseWords_line hc) ?_
  obtain ⟨indentation, clause, body⟩ := line
  cases clause <;> rfl

end ChainLine

/-! ## A chain -/

/-- A further line of a chain, with the offset it has in the source. -/
abbrev PlacedLine : Type := Nat × ChainLine (Option Condition)

namespace PlacedLine

/-- The line has a test. -/
def isTested (p : PlacedLine) : Bool := p.2.clause.isSome

def entry (p : PlacedLine) : BlockEntry := p.2.elseEntry p.1

def alternate (p : PlacedLine) : Alternate := p.2.alternate p.1

/-- The fault of a line that has no condition to go with. -/
def orphan (p : PlacedLine) : Fault := ⟨.orphanElse, p.2.span elseWords p.1⟩

/-- The lines up to the first without a test, and that line. -/
def upToElse (lines : List PlacedLine) : List PlacedLine :=
  lines.takeWhile isTested ++ (lines.dropWhile isTested).take 1

/-- The lines behind the first without a test. -/
def afterElse (lines : List PlacedLine) : List PlacedLine := (lines.dropWhile isTested).drop 1

end PlacedLine

/-- Each further line is one more entry. -/
theorem topLevelEntries_chain {width : Nat} {clauses : List (ChainLine (Option Condition))}
    (h : ∀ line ∈ clauses, line.Sound width ∧ ∀ c ∈ line.clause, c.Sound) {a : List Char}
    (ha : FlushAt width a) (hclosed : ∀ entry ∈ topLevelEntries a, entry.faults = []) :
    topLevelEntries (a ++ textBehind (ChainLine.text elseWords) clauses) =
      topLevelEntries a ++
        (placedFrom (ChainLine.text elseWords) (byteLength a + 1) clauses).map PlacedLine.entry := by
  -- The text in front grows by one line at each step.
  induction clauses generalizing a with
  | nil => simp [textBehind, placedFrom]
  | cons line rest ih =>
    obtain ⟨hline, hclause⟩ := h line List.mem_cons_self
    have hflush := ChainLine.flush_else hline hclause
    have hentries := ha.topLevelEntries_append hflush hclosed
    rw [ChainLine.elseEntry_eq hline hclause, List.map_singleton, ChainLine.elseEntry_shift,
      Nat.zero_add] at hentries
    have hbytes : byteLength (a ++ '\n' :: line.text elseWords) =
        byteLength a + 1 + byteLength (line.text elseWords) := by
      rw [byteLength_append, byteLength, Nat.add_assoc]
      rfl
    have hmore := ih (fun other hother => h other (List.mem_cons_of_mem _ hother)) (ha.append hflush) (by
      rw [hentries]
      intro entry hentry
      rcases List.mem_append.mp hentry with hentry | hentry
      · exact hclosed entry hentry
      · rw [List.mem_singleton.mp hentry]
        rfl)
    rw [hentries, hbytes, List.append_assoc, List.append_assoc] at hmore
    exact hmore

theorem endsInElse_append (alternates : List Alternate) (p : PlacedLine) :
    endsInElse (alternates ++ [p.alternate]) = !p.isTested := by
  obtain ⟨offset, indentation, clause, body⟩ := p
  rw [endsInElse, List.getLast?_concat]
  cases clause <;> rfl

/-- A chain that ends in an `else` without a test takes no more lines. -/
theorem assemble_orphans {alternates : List Alternate} (h : endsInElse alternates = true) (test : String)
    (consequent : List Node) (s : Span) (lines : List PlacedLine) :
    assemble [.conditional test consequent alternates s] (lines.map PlacedLine.entry) =
      ([.conditional test consequent alternates s], lines.map PlacedLine.orphan) := by
  induction lines with
  | nil => rfl
  | cons line rest ih =>
    simp only [List.map_cons, PlacedLine.entry, ChainLine.elseEntry, assemble, attach, h, if_true]
    rw [ih]
    rfl

/-- The branches go to the condition up to the first without a test; the lines after it are
orphans. -/
theorem assemble_chain {alternates : List Alternate} (h : endsInElse alternates = false) (test : String)
    (consequent : List Node) (s : Span) (lines : List PlacedLine) :
    assemble [.conditional test consequent alternates s] (lines.map PlacedLine.entry) =
      ([.conditional test consequent
          (alternates ++ (PlacedLine.upToElse lines).map PlacedLine.alternate) s],
        (PlacedLine.afterElse lines).map PlacedLine.orphan) := by
  induction lines generalizing alternates with
  | nil => simp [assemble, PlacedLine.upToElse, PlacedLine.afterElse]
  | cons line rest ih =>
    -- The line joins the chain whether it has a test or not; only what may follow depends on that.
    have hstep : assemble [.conditional test consequent alternates s]
        ((line :: rest).map PlacedLine.entry) =
          assemble [.conditional test consequent (alternates ++ [line.alternate]) s]
            (rest.map PlacedLine.entry) := by
      simp only [List.map_cons, PlacedLine.entry, ChainLine.elseEntry, assemble, attach, h]
      rfl
    have hends := endsInElse_append alternates line
    rw [hstep]
    cases htested : line.isTested with
    | true =>
      rw [htested] at hends
      rw [ih hends]
      simp [PlacedLine.upToElse, PlacedLine.afterElse, htested]
    | false =>
      rw [htested] at hends
      rw [assemble_orphans hends]
      simp [PlacedLine.upToElse, PlacedLine.afterElse, htested]

/-- An `if` or `unless` line with any `else` lines after it is one conditional. It has the branches
up to the first `else` without a test, each with the nodes of its own text; each line after that is
an orphan, and there are no other faults. -/
theorem parse_chain {width : Nat} (opening : ChainLine Condition)
    (clauses : List (ChainLine (Option Condition))) (hopening : opening.Sound width)
    (hcondition : opening.clause.Sound)
    (hclauses : ∀ line ∈ clauses, line.Sound width ∧ ∀ c ∈ line.clause, c.Sound) :
    let source := opening.text Condition.words ++ textBehind (ChainLine.text elseWords) clauses
    let lines := placedFrom (ChainLine.text elseWords) (byteLength (opening.text Condition.words) + 1)
      clauses
    Document.parse (String.ofList source) =
      (⟨[.conditional opening.clause.stored (opening.nodes Condition.words 0)
          ((PlacedLine.upToElse lines).map PlacedLine.alternate) (opening.span Condition.words 0)],
        byteLength source⟩, (PlacedLine.afterElse lines).map PlacedLine.orphan) := by
  intro source lines
  have hfirst := ChainLine.conditionEntry_eq hopening hcondition
  have hentries := topLevelEntries_chain hclauses (ChainLine.flush_condition hopening hcondition) (by
    rw [hfirst]
    intro entry hentry
    rw [List.mem_singleton.mp hentry]
    rfl)
  have hwhole : assemble [] (topLevelEntries source) =
      assemble [.conditional opening.clause.stored (opening.nodes Condition.words 0) []
        (opening.span Condition.words 0)] (lines.map PlacedLine.entry) := by
    rw [hentries, hfirst]
    rfl
  rw [parse_topLevel, String.toList_ofList, hwhole, assemble_chain rfl]
  rfl

/-- A chain with another chain in it, and with a branch too many. -/
theorem parse_chain_nested :
    Document.parse
        "unless a\n  if b\n    | p\n  else\n    | q\nelse if c\n  | r\nelse\nelse unless d\n  | s" =
      (⟨[.conditional "!(a)"
          [.conditional "b" [.text "p" ⟨22, 23⟩] [.orElse [.text "q" ⟨37, 38⟩] ⟨26, 30⟩] ⟨11, 15⟩]
          [.orIf "c" [.text "r" ⟨53, 54⟩] ⟨39, 48⟩, .orElse [] ⟨55, 59⟩] ⟨0, 8⟩], 79⟩,
        [⟨.orphanElse, ⟨60, 73⟩⟩]) := by
  let opening : ChainLine Condition :=
    ⟨[], ⟨true, "a".toList⟩, some "  if b\n    | p\n  else\n    | q".toList⟩
  let clauses : List (ChainLine (Option Condition)) :=
    [⟨[], some ⟨false, "c".toList⟩, some "  | r".toList⟩, ⟨[], none, none⟩,
      ⟨[], some ⟨true, "d".toList⟩, some "  | s".toList⟩]
  have h := parse_chain opening clauses (show opening.Sound 0 by decide +kernel) (by decide +kernel)
    (by decide +kernel)
  extract_lets source lines at h
  have hsource : String.ofList source =
      "unless a\n  if b\n    | p\n  else\n    | q\nelse if c\n  | r\nelse\nelse unless d\n  | s" := by
    decide +kernel
  have hbytes : byteLength source = 79 := by decide +kernel
  have hfaults : (PlacedLine.afterElse lines).map PlacedLine.orphan = [⟨.orphanElse, ⟨60, 73⟩⟩] := by
    decide +kernel
  rw [hsource, hbytes, hfaults] at h
  have hinner : (Document.parse "  if b\n    | p\n  else\n    | q").1.nodes =
      [.conditional "b" [.text "p" ⟨13, 14⟩] [.orElse [.text "q" ⟨28, 29⟩] ⟨17, 21⟩] ⟨2, 6⟩] := rfl
  have hnodes : opening.nodes Condition.words 0 =
      [.conditional "b" [.text "p" ⟨22, 23⟩] [.orElse [.text "q" ⟨37, 38⟩] ⟨26, 30⟩] ⟨11, 15⟩] := by
    rw [ChainLine.nodes, show opening.body.getD [] = String.toList _ from rfl, String.ofList_toList,
      hinner]
    rfl
  have hpiped : (Document.parse "  | r").1.nodes = [.text "r" ⟨4, 5⟩] := rfl
  have htested : (⟨[], some ⟨false, "c".toList⟩, some "  | r".toList⟩ :
      ChainLine (Option Condition)).nodes elseWords 39 = [.text "r" ⟨53, 54⟩] := by
    rw [ChainLine.nodes, Option.getD_some, String.ofList_toList, hpiped]
    rfl
  have halternates : (PlacedLine.upToElse lines).map PlacedLine.alternate =
      [.orIf "c" [.text "r" ⟨53, 54⟩] ⟨39, 48⟩, .orElse [] ⟨55, 59⟩] := by
    rw [← htested]
    rfl
  rw [hnodes, halternates] at h
  exact h

end PugComponents.Template
