import PugComponents.Proofs.Template.Concatenation
import PugComponents.Proofs.Text.Trimming

/- Lines that are written out. A line with a text at the front that is no white space
   has that text for its content, behind its indentation (`atFront_indented`). Where all
   written lines stand under a width, the block under the width takes them all, like the
   top level of a source (`entriesUnder_deep`), and none of them is left
   (`entriesUnder_rest`). -/
namespace PugComponents.Template

open Text

/-! ## The content of a line -/

variable {front : List Char}

/-- What stands in front on the same line stays in front. -/
theorem lineContent_append_line {rest : List Char} (hfront : '\n' ∉ front)
    (hrest : lineContent rest ≠ []) : lineContent (front ++ rest) = front ++ lineContent rest := by
  have hchars : ∀ c ∈ front, (c != '\n') = true := by
    intro c hc
    rw [bne_iff_ne]
    rintro rfl
    exact hfront hc
  have hne : rest.takeWhile (· != '\n') ≠ [] := fun h => hrest (by rw [lineContent, h]; rfl)
  rw [lineContent, List.takeWhile_append_of_pos hchars, lineContent, dropReturn, dropReturn,
    List.getLast?_append, List.getLast?_eq_some_getLast hne, Option.some_or,
    List.dropLast_append_of_ne_nil hne]
  split <;> rfl

/-- A trimmed text up to the end of its line. -/
theorem lineContent_words {words tail : List Char} (hwords : Trimmed words) (hfeed : '\n' ∉ words)
    (htail : tail = [] ∨ ∃ t, tail = '\n' :: t) : lineContent (words ++ tail) = words := by
  obtain ⟨front, c, rfl, hc⟩ := hwords.last
  have hreturn : c ≠ '\r' := by
    rintro rfl
    cases hc
  have hend : tail.takeWhile (· != '\n') = [] := by
    rcases htail with rfl | ⟨t, rfl⟩ <;> rfl
  -- Only the last character could be a carriage return that is dropped.
  have hlast : lineContent ([c] ++ tail) = [c] := by
    have hfeed' : c ≠ '\n' := by
      rintro rfl
      cases hc
    rw [lineContent, List.cons_append, List.nil_append, List.takeWhile_cons_of_pos (by simpa using hfeed'),
      hend, dropReturn, if_neg (by simpa using hreturn)]
  rw [List.append_assoc, lineContent_append_line _ (by rw [hlast]; simp), hlast]
  exact fun h => hfeed (List.mem_append_left _ h)

theorem byteLength_of_isIndentation {cs : List Char} (h : cs.all isIndentation = true) :
    byteLength cs = cs.length := by
  have hall : (cs ++ []).takeWhile isIndentation = cs ++ [] :=
    List.takeWhile_append_of_pos (List.all_eq_true.mp h)
  rw [List.append_nil] at hall
  have hbytes := byteLength_take_indentation cs
  rwa [hall] at hbytes

/-- A line behind its indentation. -/
theorem atFront_indented {indentation rest cs : List Char} {c : Char}
    (hindentation : indentation.all isIndentation = true) (h : lineContent rest = c :: cs)
    (hc : isWhiteSpace c = false) (number offset : Nat) :
    Line.atFront number offset (indentation ++ rest) =
      ⟨number, indentation.length, offset + indentation.length, lineContent rest, rest⟩ := by
  have hall : ∀ d ∈ indentation, isIndentation d = true := List.all_eq_true.mp hindentation
  have hfeed : '\n' ∉ indentation := fun hmem => by cases hall _ hmem
  have hcontent : lineContent (indentation ++ rest) = indentation ++ lineContent rest :=
    lineContent_append_line hfeed (by rw [h]; exact List.cons_ne_nil _ _)
  have hwidth : (lineContent (indentation ++ rest)).takeWhile isIndentation = indentation := by
    rw [hcontent, List.takeWhile_append_of_pos hall, h,
      List.takeWhile_cons_of_neg (by simp [isIndentation_of_not_isWhiteSpace hc]), List.append_nil]
  simp only [Line.atFront, hwidth]
  rw [hcontent, List.drop_left, List.drop_left]

/-! ## One line in front -/

theorem ofSource_line (h : '\n' ∉ front) : Line.ofSource front = [Line.atFront 1 0 front] := by
  have hfeeds := Line.afterFeeds_skip 1 0 h []
  rw [List.append_nil] at hfeeds
  rw [Line.ofSource, hfeeds]
  rfl

theorem ofSource_line_append (h : '\n' ∉ front) (b : List Char) :
    Line.ofSource (front ++ '\n' :: b) =
      Line.atFront 1 0 (front ++ '\n' :: b) :: (Motion.back front b).lines (Line.ofSource b) := by
  have hlines := Line.ofSource_append front b
  rw [ofSource_line h, ← Motion.lines_back front b] at hlines
  have hafter : Line.afterFeeds 1 0 (front ++ '\n' :: b) = _ := (List.cons.inj hlines).2
  rw [Line.ofSource, hafter]
  rfl

/-! ## Blocks that take all lines -/

variable {head : HeadReader} {lines : List Line}

theorem nested?_deep {width : Nat} (h : ∀ line ∈ written lines, width < line.indent) :
    nested? (some width) lines = nested? none lines := by
  unfold nested?
  cases hskip : skipBlank lines with
  | nil => rfl
  | cons line after =>
    have hline := h line (by rw [(skipBlank_eq_cons hskip).2]; exact List.mem_cons_self)
    simp only [Line.isUnder, hline, decide_true]

theorem written_subset {rest : List Line} (h : rest <:+ lines) : written rest ⊆ written lines :=
  (h.sublist.filter _).subset

/-- Lines that are all under a width are read like the top level. -/
theorem entriesUnder_deep (hsub : head.Consumes) {width : Nat}
    (h : ∀ line ∈ written lines, width < line.indent) (expected : Option Nat) (afterPiped : Bool) :
    entriesUnder head (some width) expected afterPiped lines =
      entriesUnder head none expected afterPiped lines := by
  induction hn : lines.length using Nat.strongRecOn generalizing lines expected afterPiped with
  | ind n ih =>
    subst hn
    rw [entriesUnder_eq hsub, entriesUnder_eq hsub, nested?_deep h]
    cases hnested : nested? none lines with
    | none => rfl
    | some found =>
      obtain ⟨line, after⟩ := found
      have hlength := nested?_length hnested
      have hrest := readEntry_suffix hsub (blockUnder_consumes hsub) line afterPiped after
      have hafter := (hrest.trans (List.suffix_cons line after)).trans (nested?_suffix hnested)
      have hmore := ih _ (Nat.lt_of_le_of_lt hrest.length_le hlength)
        (fun other hother => h other (written_subset hafter hother)) (some (expected.getD line.indent))
        (readEntry head (blockUnder head) line afterPiped after).piped rfl
      simp only [hmore]

/-- The top level of a source leaves no written line. -/
theorem entriesUnder_rest (hsub : head.Consumes) (expected : Option Nat) (afterPiped : Bool)
    (lines : List Line) : skipBlank (entriesUnder head none expected afterPiped lines).2 = [] := by
  induction hn : lines.length using Nat.strongRecOn generalizing lines expected afterPiped with
  | ind n ih =>
    subst hn
    rw [entriesUnder_eq hsub]
    cases hnested : nested? none lines with
    | none =>
      rw [skipBlank_idem]
      cases hskip : skipBlank lines with
      | nil => rfl
      | cons line after =>
        rw [nested?, hskip] at hnested
        cases hnested
    | some found =>
      obtain ⟨line, after⟩ := found
      have hlength := nested?_length hnested
      have hrest := readEntry_suffix hsub (blockUnder_consumes hsub) line afterPiped after
      exact ih _ (Nat.lt_of_le_of_lt hrest.length_le hlength) _ _ _ rfl

/-- A text behind a line, all of it indented more, is the block under the line: it is read as a
source of its own. -/
theorem blockUnder_back (front b : List Char) {width k : Nat} (hk : b.length < k)
    (h : ∀ line ∈ written (Line.ofSource b), width < line.indent) :
    ∃ rest, blockUnder (Head.read (front ++ '\n' :: b) k) width
        ((Motion.back front b).lines (Line.ofSource b)) =
          ⟨(Document.parse (String.ofList b)).1.nodes.map (Node.shift (byteLength front + 1)),
            (Document.parse (String.ofList b)).2.map (Fault.shift (byteLength front + 1)), rest⟩ ∧
      skipBlank rest = [] := by
  let m := Motion.back front b
  have hsub := Head.read_consumes b (b.length + 1)
  have hh : m.HeadMoves (Head.read b (b.length + 1)) (Head.read (front ++ '\n' :: b) k) :=
    Motion.headMoves_read m hk
  obtain ⟨hentries, -⟩ := Motion.readers_move hh hsub (Head.read_consumes _ _)
    ((Line.ofSource b).length + 1)
  -- The floor of the motion is 0, so any width will do for the block.
  have hmoved := hentries.blockMoves width (Line.ofSource b) _ (Nat.zero_le _) (Nat.lt_succ_self _)
    (fun line hline => ⟨Line.placed_of_mem_ofSource hline, fun _ => Nat.zero_le _⟩)
    (Motion.Continues.refl _) (.inl rfl)
  have hown : blockUnder (Head.read b (b.length + 1)) width (Line.ofSource b) =
      ⟨(Document.parse (String.ofList b)).1.nodes, (Document.parse (String.ofList b)).2,
        (entriesUnder (Head.read b (b.length + 1)) none none false (Line.ofSource b)).2⟩ := by
    rw [blockUnder_eq, entriesUnder_deep hsub h, parse_topLevel, String.toList_ofList]
    rfl
  rw [hown] at hmoved
  have hlines : skipBlank (blockUnder (Head.read (front ++ '\n' :: b) k) width
      (m.lines (Line.ofSource b))).lines = [] := by
    have hnone := entriesUnder_rest hsub none false (Line.ofSource b)
    refine hmoved.lines.trans ?_
    rw [Motion.skipBlank_lines, hnone]
    rfl
  have heq := hmoved.eq
  dsimp only at heq
  rw [show m.bytes = byteLength front + 1 from rfl] at heq
  exact ⟨_, heq, hlines⟩

/-- The top level of a source is the entry of its first line, and the entries of the lines that are
left. -/
theorem topLevelEntries_first {text : List Char} {line : Line} {after rest : List Line}
    {entry : BlockEntry} (hlines : Line.ofSource text = line :: after) (hwritten : line.isBlank = false)
    (hentry : readEntry (Head.read text (text.length + 1)) (blockUnder (Head.read text (text.length + 1)))
      line false after = ⟨entry, rest, false⟩) :
    topLevelEntries text =
      entry :: (entriesUnder (Head.read text (text.length + 1)) none (some line.indent) false rest).1 := by
  have hnested : nested? none (line :: after) = some (line, after) := by
    rw [nested?, skipBlank_cons_of_written hwritten]
    rfl
  rw [topLevelEntries, hlines, entriesUnder_eq (Head.read_consumes _ _), hnested]
  simp only [hentry, Option.getD_none]
  simp [unevenIndent, BlockEntry.addFaults]

/-- No entries come from blank lines. -/
theorem entriesUnder_blank (hsub : head.Consumes) (h : skipBlank lines = []) (expected : Option Nat)
    (afterPiped : Bool) : (entriesUnder head none expected afterPiped lines).1 = [] := by
  have hnested : nested? none lines = none := by rw [nested?, h]
  rw [entriesUnder_eq hsub, hnested]

/-! ## Texts one behind the other -/

section

variable {α : Type} (text : α → List Char)

/-- The texts, each behind a line feed. -/
def textBehind (items : List α) : List Char := items.flatMap fun item => '\n' :: text item

/-- The items with the offsets of their texts, the first of them at an offset and each behind the
line feed after the last one. -/
def placedFrom (offset : Nat) : List α → List (Nat × α)
  | [] => []
  | item :: rest => (offset, item) :: placedFrom (offset + byteLength (text item) + 1) rest

end

/-! ## Texts at one width -/

/-- The text starts with a written line at the width that is not piped, and no line stands left of
the width. -/
structure FlushAt (width : Nat) (text : List Char) : Prop where
  first : ∃ line after, Line.ofSource text = line :: after ∧ line.isBlank = false ∧
    line.indent = width ∧ line.isPiped = false
  deep : ∀ line ∈ Line.ofSource text, line.isBlank = false → width ≤ line.indent

namespace FlushAt

variable {width : Nat} {a b : List Char}

theorem head_written (h : FlushAt width a) :
    ∀ line ∈ (written (Line.ofSource a)).head?, line.indent = width ∧ line.isPiped = false := by
  obtain ⟨first, after, hlines, hblank, hindent, hpiped⟩ := h.first
  intro line hline
  rw [hlines, written_cons_of_written hblank] at hline
  cases hline
  exact ⟨hindent, hpiped⟩

theorem append (ha : FlushAt width a) (hb : FlushAt width b) : FlushAt width (a ++ '\n' :: b) := by
  obtain ⟨first, after, hlines, hblank, hindent, hpiped⟩ := ha.first
  constructor
  · rw [Line.ofSource_append, hlines]
    exact ⟨_, _, rfl, hblank, hindent, hpiped⟩
  · rw [Line.ofSource_append]
    intro line hline
    rcases List.mem_append.mp hline with hline | hline
    · obtain ⟨original, horiginal, rfl⟩ := List.mem_map.mp hline
      exact ha.deep original horiginal
    · obtain ⟨original, horiginal, rfl⟩ := List.mem_map.mp hline
      exact hb.deep original horiginal

/-- Texts at one width are read one after the other. -/
theorem topLevelEntries_append (ha : FlushAt width a) (hb : FlushAt width b)
    (hclosed : ∀ entry ∈ topLevelEntries a, entry.faults = []) :
    topLevelEntries (a ++ '\n' :: b) =
      topLevelEntries a ++ (topLevelEntries b).map (BlockEntry.shift (byteLength a + 1)) := by
  have h := Template.topLevelEntries_append (String.ofList a) (String.ofList b)
    (fun line hline => (ha.head_written line (by simpa using hline)).1)
    (fun line hline => (hb.head_written line (by simpa using hline)).1)
    (by simpa using ha.deep) (by
      intro entry hentry fault hfault
      rw [String.toList_ofList] at hentry
      rw [hclosed entry hentry] at hfault
      cases hfault) (by
      rintro ⟨-, line, hline, hpiped⟩
      rw [String.toList_ofList] at hline
      rw [(hb.head_written line hline).2] at hpiped
      cases hpiped)
  simpa using h

end FlushAt

end PugComponents.Template
