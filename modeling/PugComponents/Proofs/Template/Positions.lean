import PugComponents.Proofs.Template.Columns

/- Positions in a template. A line of a source knows its number, its width of
   indentation and its offset; an include knows the column found by going back to the
   start of its line; a position is looked up in the table of line starts. They agree: a
   line starts in the line and the column that its number and its width say
   (`Line.position_start`), there are as many lines as the table has entries
   (`Line.length_ofSource`), and an include stands in the column of its span, which is a
   place between two characters of the source (`positions_agree`). -/
namespace PugComponents.Template

open Text

/-! ## Lines -/

namespace Line

/-- A line behind a text that leads to its front. -/
theorem atFront_position {number : Nat} {before : List Char}
    (h : before.foldl Position.past .first = ⟨number, 1⟩) (onward : List Char) :
    position (before ++ onward) (atFront number (byteLength before) onward).start =
      ⟨number, (atFront number (byteLength before) onward).indent + 1⟩ := by
  obtain ⟨rest, hrest⟩ := indentation_isPrefix onward
  have hstart : (atFront number (byteLength before) onward).start =
      byteLength (before ++ (lineContent onward).takeWhile isIndentation) := by
    rw [byteLength_append, byteLength_take_indentation]
    rfl
  have hsource : before ++ onward =
      before ++ (lineContent onward).takeWhile isIndentation ++ rest := by
    rw [List.append_assoc, hrest]
  rw [hstart, hsource, position_byteLength, List.foldl_append, h,
    foldl_past_line _ (feed_notMem_indentation onward), Nat.add_comm 1]
  rfl

theorem afterFeeds_position {number : Nat} {before : List Char}
    (h : (before.foldl Position.past .first).line = number) (text : List Char) :
    ∀ line ∈ afterFeeds number (byteLength before) text,
      position (before ++ text) line.start = ⟨line.number, line.indent + 1⟩ := by
  induction text generalizing number before with
  | nil => simp [afterFeeds]
  | cons c cs ih =>
    have hbytes : byteLength before + c.utf8Size = byteLength (before ++ [c]) := by
      simp [byteLength_append, byteLength]
    have hassoc : before ++ c :: cs = (before ++ [c]) ++ cs := by simp
    have hpast : (before ++ [c]).foldl Position.past .first =
        (before.foldl Position.past .first).past c := by
      rw [List.foldl_append]
      rfl
    intro line hline
    rw [afterFeeds, hbytes] at hline
    rw [hassoc]
    split at hline
    · rename_i hc
      obtain rfl : c = '\n' := by simpa using hc
      rw [Position.past_feed, h] at hpast
      rcases List.mem_cons.mp hline with rfl | hline
      · exact atFront_position hpast cs
      · exact ih (congrArg Position.line hpast) line hline
    · rename_i hc
      rw [Position.past_char _ (by simpa using hc)] at hpast
      exact ih ((congrArg Position.line hpast).trans h) line hline

/-- A line starts where its number and its indentation say. -/
theorem position_start {source : List Char} {line : Line} (h : line ∈ ofSource source) :
    position source line.start = ⟨line.number, line.indent + 1⟩ := by
  have hfirst : ([] : List Char).foldl Position.past .first = ⟨1, 1⟩ := rfl
  rcases List.mem_cons.mp h with rfl | h
  · exact atFront_position hfirst source
  · exact afterFeeds_position (congrArg Position.line hfirst) source line h

theorem length_afterFeeds (number offset : Nat) (text : List Char) :
    (afterFeeds number offset text).length = text.count '\n' := by
  induction text generalizing number offset with
  | nil => rfl
  | cons c cs ih =>
    rw [afterFeeds]
    split
    · rename_i hc
      rw [List.length_cons, ih, beq_iff_eq.mp hc, List.count_cons_self]
    · rename_i hc
      rw [ih, List.count_cons_of_ne (by simpa using hc)]

theorem length_ofSource (source : List Char) : (ofSource source).length = lineCount source := by
  rw [ofSource, List.length_cons, length_afterFeeds, lineCount, LineIndex.lineCount, LineIndex.ofText,
    List.size_toArray, List.length_cons, length_startsAfterFeeds]

end Line

/-! ## Offsets -/

/-- The positions of places in a source come in the order of the places. -/
theorem IsBoundary.precedes {source : List Char} {a b : Nat} (ha : IsBoundary source a)
    (hb : IsBoundary source b) (h : a < b) : (position source a).Precedes (position source b) := by
  obtain ⟨front, rest, rfl, rfl⟩ := ha
  obtain ⟨front', rest', heq, rfl⟩ := hb
  -- Both are fronts of one source, so one is the other and some more characters.
  rcases List.append_eq_append_iff.mp heq with ⟨between, rfl, rfl⟩ | ⟨between, rfl, -⟩
  · have hbetween : between ≠ [] := by
      rintro rfl
      simp at h
    have hposition := position_byteLength (front ++ between) rest'
    rw [List.append_assoc, List.foldl_append] at hposition
    rw [hposition, position_byteLength]
    exact .foldl _ hbetween
  · rw [byteLength_append] at h
    omega

/-- The column of a place is that of its position. -/
theorem IsBoundary.columnAt_eq {source : List Char} {offset : Nat} (h : IsBoundary source offset) :
    columnAt source offset = (position source offset).column := by
  obtain ⟨front, rest, rfl, rfl⟩ := h
  rw [columnAt_byteLength, position_byteLength]

/-- An include starts between two characters of the source. -/
theorem isBoundary_of_mem_parse {source : String} {file : FileReference} {column : Nat} {s : Span}
    (h : .node (.includeFile file column s) ∈ partsOf (Document.parse source).1.nodes) :
    IsBoundary source.toList s.start := by
  obtain ⟨rest, hrun⟩ := parse_run source
  -- The include is a reference, and the references have spans of items of the run.
  have hsublist := references_sublist (Document.parse source).1.nodes
    fun item hitem => (hrun.located item hitem).references_text
  have hreference : ⟨file, true, s⟩ ∈ references (partsOf (Document.parse source).1.nodes) :=
    List.mem_filterMap.mpr ⟨_, h, rfl⟩
  obtain ⟨item, hitem, hspan⟩ := List.mem_map.mp (hsublist.subset (List.mem_map_of_mem hreference))
  have hsound := (hrun.located item hitem).sound
  rw [hspan] at hsound
  exact hsound.start

/-- **Positions agree.** The position of a place counts the line feeds before it and the characters
behind the last of them; places past the end are the end; positions are ordered as the places are.
The lines of the source are as many as its positions say, start where their numbers and widths say
and hold the text of their spans, and every include stands in the column of its span. -/
theorem positions_agree (source : String) :
    (∀ before after, source.toList = before ++ after →
      position source.toList (byteLength before) =
        ⟨1 + before.count '\n', 1 + (lastLine before).length⟩) ∧
    (∀ offset, byteLength source.toList ≤ offset →
      position source.toList offset = position source.toList (byteLength source.toList)) ∧
    (∀ a b, IsBoundary source.toList a → IsBoundary source.toList b →
      (a < b ↔ (position source.toList a).Precedes (position source.toList b)) ∧
        (position source.toList a = position source.toList b → a = b)) ∧
    lineCount source.toList = (Line.ofSource source.toList).length ∧
    (∀ line ∈ Line.ofSource source.toList,
      position source.toList line.start = ⟨line.number, line.indent + 1⟩ ∧
        line.span.Holds source.toList line.text) ∧
    (∀ file column s, .node (.includeFile file column s) ∈ partsOf (Document.parse source).1.nodes →
      IsBoundary source.toList s.start ∧ column = (position source.toList s.start).column) := by
  refine ⟨?_, ?_, ?_, (Line.length_ofSource _).symm, ?_, ?_⟩
  · intro before after hsource
    rw [hsource, position_byteLength, foldl_past]
  · intro offset h
    exact position_past_end _ h
  · intro a b ha hb
    refine ⟨⟨ha.precedes hb, fun h => ?_⟩, fun h => ?_⟩
    · rcases Nat.lt_trichotomy a b with hlt | rfl | hlt
      · exact hlt
      · exact absurd rfl h.ne
      · exact absurd (hb.precedes ha hlt) h.asymm
    · rcases Nat.lt_trichotomy a b with hlt | rfl | hlt
      · exact absurd h (ha.precedes hb hlt).ne
      · rfl
      · exact absurd h.symm (hb.precedes ha hlt).ne
  · intro line hline
    exact ⟨Line.position_start hline, (Line.placed_of_mem_ofSource hline).span_holds⟩
  · intro file column s h
    have hboundary := isBoundary_of_mem_parse h
    exact ⟨hboundary, (column_of_mem_parse h).trans hboundary.columnAt_eq⟩

end PugComponents.Template
