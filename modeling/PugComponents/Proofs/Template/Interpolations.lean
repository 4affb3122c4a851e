import PugComponents.Proofs.Template.Spans

/- Where interpolations stand. A script that is rendered stands in the source where
   its span says, except in a text block. There the text is put together again from
   its lines, without the indentation that they share, and read as if it stood in the
   source from its first line on: the content of each line is read at an offset of
   its own (`readAt`), and an interpolation on the line is moved from its place by as
   much as that offset is from the start of the line (`parse_interpolations_located`). -/
namespace PugComponents.Template

open Text

/-- The lines of a text block, each with the offset at which its content is read: the text starts at
`offset`, and the indentation that the lines share is left out. -/
def readAt (common : Nat) : Nat → List Line → List (Line × Nat)
  | _, [] => []
  | offset, line :: rest =>
    (line, offset + (line.indent - common)) ::
      readAt common (offset + byteLength (rawLine common line).toList + 1) rest

/-- The lines of the text under a tag with the span `s`, and the indentation that they share. They
are indented more than the line of the tag. -/
def LinesUnder (source : List Char) (s : Span) (first : Line) (rest : List Line) (common : Nat) :
    Prop :=
  ∃ line : Line, line.Bears source s ∧
    rawLines line.indent (linesBehind source s.stop) = first :: rest ∧
    commonIndent? (first :: rest) = some common

/-! ## Texts in a row of lines -/

variable {written : List Char}

/-- A text without a line feed stands before or behind a given one. -/
theorem split_at_feed {front back a b : List Char} (hfeed : '\n' ∉ written)
    (h : a ++ '\n' :: b = front ++ written ++ back) :
    (∃ rest, a = front ++ written ++ rest) ∨
      ∃ rest, front = a ++ '\n' :: rest ∧ b = rest ++ written ++ back := by
  induction a generalizing front written with
  | nil =>
    cases front with
    | nil =>
      cases written with
      | nil => exact .inl ⟨[], rfl⟩
      | cons c written =>
        obtain ⟨rfl, -⟩ := List.cons.inj h
        exact absurd List.mem_cons_self hfeed
    | cons c front =>
      obtain ⟨rfl, hrest⟩ := List.cons.inj h
      exact .inr ⟨front, rfl, hrest⟩
  | cons x a ih =>
    cases front with
    | nil =>
      cases written with
      | nil => exact .inl ⟨x :: a, rfl⟩
      | cons c written =>
        obtain ⟨rfl, hrest⟩ := List.cons.inj h
        have hnone : '\n' ∉ written := fun hmem => hfeed (List.mem_cons_of_mem _ hmem)
        have hinner : a ++ '\n' :: b = [] ++ written ++ back := hrest
        rcases ih hnone hinner with ⟨rest, hrest⟩ | ⟨rest, hnil, -⟩
        · exact .inl ⟨rest, by rw [hrest]; rfl⟩
        · simp at hnil
    | cons c front =>
      obtain ⟨rfl, hrest⟩ := List.cons.inj h
      rcases ih hfeed hrest with ⟨rest, hrest⟩ | ⟨rest, hfront, hback⟩
      · exact .inl ⟨rest, by rw [hrest]; rfl⟩
      · exact .inr ⟨rest, by rw [hfront]; rfl, hback⟩

/-- A text that does not start with a space stands behind the spaces at the front. -/
theorem behind_spaces {n : Nat} {text front back : List Char} {c : Char} (hc : c ≠ ' ')
    (h : List.replicate n ' ' ++ text = front ++ c :: written ++ back) :
    ∃ rest, front = List.replicate n ' ' ++ rest ∧ text = rest ++ c :: written ++ back := by
  induction n generalizing front with
  | zero => exact ⟨front, rfl, h⟩
  | succ n ih =>
    cases front with
    | nil =>
      obtain ⟨rfl, -⟩ := List.cons.inj h
      exact absurd rfl hc
    | cons d front =>
      obtain ⟨rfl, hrest⟩ := List.cons.inj h
      obtain ⟨rest, hfront, htext⟩ := ih hrest
      exact ⟨rest, by rw [hfront]; rfl, htext⟩

theorem byteLength_replicate_space (n : Nat) : byteLength (List.replicate n ' ') = n := by
  induction n with
  | zero => rfl
  | succ n ih =>
    rw [List.replicate_succ, byteLength, ih, Nat.add_comm]
    rfl

variable {kind : CodeKind} {value : String}

theorem Interpolates.eq_cons (h : Interpolates kind value written) :
    ∃ c rest, written = c :: rest ∧ c ≠ ' ' := by
  cases h with
  | hash inner | bang inner => exact ⟨_, _, rfl, by decide⟩

variable {common offset : Nat} {line : Line}

/-- An interpolation in the text of a line is one in the content of the line. -/
theorem cutFrom_rawLine (hwritten : Interpolates kind value written) {s : Span}
    (h : s.CutFrom offset (rawLine common line).toList written) :
    s.CutFrom (offset + (line.indent - common)) line.text written := by
  obtain ⟨front, back, htext, hstart, hstop⟩ := h
  obtain ⟨c, rest, rfl, hc⟩ := hwritten.eq_cons
  unfold rawLine at htext
  split at htext
  · simp at htext
  · rw [String.toList_ofList] at htext
    obtain ⟨inside, rfl, hcontent⟩ := behind_spaces hc htext
    rw [byteLength_append, byteLength_replicate_space] at hstart hstop
    exact ⟨inside, back, hcontent, by omega, by omega⟩

theorem toList_joinWith_feed (first second : String) (rest : List String) :
    (joinWith "\n" (first :: second :: rest)).toList =
      first.toList ++ '\n' :: (joinWith "\n" (second :: rest)).toList := by
  simp [joinWith]

/-- An interpolation in the text of several lines that is written on one line stands in the content
of one of them. -/
theorem cutFrom_lines {lines : List Line} (hwritten : Interpolates kind value written)
    (hfeed : '\n' ∉ written) {s : Span}
    (h : s.CutFrom offset (joinWith "\n" (lines.map (rawLine common))).toList written) :
    ∃ line start, (line, start) ∈ readAt common offset lines ∧ s.CutFrom start line.text written := by
  induction lines generalizing offset with
  | nil =>
    obtain ⟨front, back, htext, -, -⟩ := h
    obtain ⟨c, rest, rfl, -⟩ := hwritten.eq_cons
    simp [joinWith] at htext
  | cons line lines ih =>
    cases lines with
    | nil => exact ⟨line, _, List.mem_cons_self, cutFrom_rawLine hwritten h⟩
    | cons second lines =>
      obtain ⟨front, back, htext, hstart, hstop⟩ := h
      simp only [List.map_cons, toList_joinWith_feed] at htext
      rcases split_at_feed hfeed htext with ⟨rest, hline⟩ | ⟨rest, rfl, hrest⟩
      · exact ⟨line, _, List.mem_cons_self, cutFrom_rawLine hwritten ⟨front, rest, hline, hstart, hstop⟩⟩
      · -- The line before it and its line feed are passed.
        have hbytes : byteLength ((rawLine common line).toList ++ '\n' :: rest) =
            byteLength (rawLine common line).toList + 1 + byteLength rest := by
          rw [byteLength_append, byteLength, Nat.add_assoc]
          rfl
        have hcut : s.CutFrom (offset + byteLength (rawLine common line).toList + 1)
            (joinWith "\n" ((second :: lines).map (rawLine common))).toList written :=
          ⟨rest, back, hrest, by omega, by omega⟩
        obtain ⟨found, start, hfound, hinside⟩ := ih hcut
        exact ⟨found, start, List.mem_cons_of_mem _ hfound, hinside⟩

/-- The span tells what is written there. -/
theorem Span.CutFrom.written_eq {start : Nat} {text : List Char} {s : Span}
    (h : s.CutFrom start text written) :
    written = fromByte (s.start - start) (takeBytes (s.stop - start) text) := by
  obtain ⟨front, back, rfl, hstart, hstop⟩ := h
  have hfront : s.start - start = byteLength front := by omega
  have hboth : s.stop - start = byteLength (front ++ written) := by
    rw [byteLength_append]
    omega
  rw [hboth, takeBytes_append, hfront, fromByte_append]

/-! ## Interpolations in a text block -/

section

variable {source : List Char} {s : Span} {start : Nat}

/-- The text under a tag is that of its lines. -/
theorem TextUnder.lines {raw : String} (h : TextUnder source s raw start) :
    ∃ first rest common, LinesUnder source s first rest common ∧ start = first.start ∧
      raw = joinWith "\n" ((first :: rest).map (rawLine common)) := by
  obtain ⟨line, hbears, hraw⟩ := h
  simp only [takeRaw] at hraw
  split at hraw
  · rename_i common first rest hcommon hbody
    obtain ⟨rfl, rfl⟩ := Prod.mk.inj (Option.some.inj hraw)
    rw [hbody] at hcommon
    exact ⟨first, rest, common, ⟨line, hbears, hbody, hcommon⟩, rfl, by rw [hbody]⟩
  · cases hraw

theorem LinesUnder.mem_ofSource {first other : Line} {rest : List Line}
    (h : LinesUnder source s first rest common) (hother : other ∈ first :: rest) :
    other ∈ Line.ofSource source := by
  obtain ⟨line, -, hbody, -⟩ := h
  rw [← hbody] at hother
  exact (List.dropWhile_suffix _).subset ((rawLines_isPrefix _ _).subset hother)

theorem mem_of_mem_readAt {lines : List Line} (h : (line, start) ∈ readAt common offset lines) :
    line ∈ lines := by
  induction lines generalizing offset with
  | nil => cases h
  | cons first lines ih =>
    rcases List.mem_cons.mp h with heq | h
    · cases heq
      exact List.mem_cons_self
    · exact List.mem_cons_of_mem first (ih h)

/-- The span `s` is where the text `written` on the line would stand if the content of the line
started at `start`. -/
def Span.MovedFrom (source : List Char) (line : Line) (start : Nat) (written : List Char) (s : Span) :
    Prop :=
  ∃ t : Span, t.Holds source written ∧ line.start ≤ t.start ∧ t.stop ≤ line.stop ∧
    s.start + line.start = t.start + start ∧ s.stop + line.start = t.stop + start

theorem Span.CutFrom.moved (hplaced : line.Placed source) (h : s.CutFrom start line.text written) :
    s.MovedFrom source line start written := by
  obtain ⟨front, back, htext, hstart, hstop⟩ := h
  have hplace : (⟨line.start + byteLength front, line.start + byteLength front + byteLength written⟩ :
      Span).CutFrom line.start line.text written := ⟨front, back, htext, rfl, rfl⟩
  refine ⟨_, hplace.holds hplaced.within, hplace.start_le, hplace.stop_le, ?_, ?_⟩
  · show s.start + line.start = line.start + byteLength front + start
    omega
  · show s.stop + line.start = line.start + byteLength front + byteLength written + start
    omega

end

/-- A rendered script outside text blocks stands in the source where its span says. The text under a
tag is that of its lines without the indentation that they share, read from the start of the first;
an interpolation has the span at which it stands in that text. If it is written on one line, the span
is its place in the source, moved by as much as the content of the line is read away from there. -/
theorem parse_interpolations_located (source : String) :
    ∀ item ∈ itemsOf source.toList (Document.parse source).1.nodes,
      (∀ kind value, item.script = some (kind, value) →
        ∃ written, Writes kind value written ∧ item.span.Holds source.toList written) ∧
      (item.text ≠ [] → ∃ first rest common, LinesUnder source.toList item.span first rest common ∧
        ∀ value kind block s, Node.code value kind block s ∈ item.text →
          ∃ written, Interpolates kind value written ∧
            s.CutFrom first.start (joinWith "\n" ((first :: rest).map (rawLine common))).toList
              written ∧
            ('\n' ∉ written →
              ∃ line start, (line, start) ∈ readAt common first.start (first :: rest) ∧
                s.MovedFrom source.toList line start written)) := by
  intro item hitem
  obtain ⟨rest, hrun⟩ := parse_run source
  have hlocated := hrun.located item hitem
  refine ⟨hlocated.script, ?_⟩
  intro htext
  obtain ⟨raw, start, hunder, hnodes⟩ := hlocated.text.resolve_left htext
  obtain ⟨first, rest, common, hlines, rfl, rfl⟩ := hunder.lines
  refine ⟨first, rest, common, hlines, ?_⟩
  intro value kind block s hnode
  rw [hnodes] at hnode
  obtain ⟨written, hpiece, hcut⟩ := (interpolated_cut _ first.start).nodes _ hnode
  cases hpiece with
  | code s hwritten =>
    refine ⟨written, hwritten, hcut, ?_⟩
    intro hfeed
    obtain ⟨line, offset, hline, hinside⟩ := cutFrom_lines hwritten hfeed hcut
    have hmem := hlines.mem_ofSource (mem_of_mem_readAt hline)
    exact ⟨line, offset, hline, hinside.moved (Line.placed_of_mem_ofSource hmem)⟩

/-- The scripts of text blocks, each with the span of its tag. -/
def blockScripts (items : List Item) : List (Span × String × CodeKind × Span) :=
  items.flatMap fun item => item.text.filterMap fun node =>
    match node with
    | .code value kind _ s => some (item.span, value, kind, s)
    | _ => none

theorem mem_blockScripts {items : List Item} {t : Span} (h : (t, value, kind, s) ∈ blockScripts items) :
    ∃ item ∈ items, item.span = t ∧ ∃ block, Node.code value kind block s ∈ item.text := by
  obtain ⟨item, hitem, h⟩ := List.mem_flatMap.mp h
  obtain ⟨node, hnode, h⟩ := List.mem_filterMap.mp h
  cases node with
  | code value kind block s =>
    cases h
    exact ⟨item, hitem, rfl, block, hnode⟩
  | _ => cases h

/-- A text block of two lines, with an interpolation on the second. -/
def secondLine : String := "p.\n  a\n  #\x7bx\x7d"

/-- The second line of a text block is read two bytes too early, at 7 and not at 9: the span of its
interpolation starts at the indentation. -/
theorem secondLine_interpolation_moved :
    ∃ item ∈ itemsOf secondLine.toList (Document.parse secondLine).1.nodes, item.span = ⟨0, 2⟩ ∧
      (∃ block, Node.code "x" .escaped block ⟨7, 11⟩ ∈ item.text) ∧
      fromByte 7 secondLine.toList = "  #\x7bx\x7d".toList ∧
      ∃ first second, LinesUnder secondLine.toList ⟨0, 2⟩ first [second] 2 ∧
        readAt 2 5 [first, second] = [(first, 5), (second, 7)] ∧ second.start = 9 ∧
        (⟨7, 11⟩ : Span).CutFrom 5 "a\n#\x7bx\x7d".toList "#\x7bx\x7d".toList ∧
        (⟨7, 11⟩ : Span).MovedFrom secondLine.toList second 7 "#\x7bx\x7d".toList ∧
        (⟨9, 13⟩ : Span).Holds secondLine.toList "#\x7bx\x7d".toList := by
  have hscripts : blockScripts (itemsOf secondLine.toList (Document.parse secondLine).1.nodes) =
      [(⟨0, 2⟩, "x", .escaped, ⟨7, 11⟩)] := by
    decide +kernel
  obtain ⟨item, hitem, hspan, block, hnode⟩ :=
    mem_blockScripts (hscripts ▸ List.mem_singleton_self _)
  obtain ⟨first, rest, common, hlines, hmoved⟩ :=
    (parse_interpolations_located _ item hitem).2 (List.ne_nil_of_mem hnode)
  obtain ⟨written, -, hcut, hone⟩ := hmoved _ _ _ _ hnode
  rw [hspan] at hlines
  have hunder := hlines
  -- the tag starts at 0, so that its line is the first
  obtain ⟨line, hbears, hbody, hcommon⟩ := hlines
  have hindent : line.indent = 0 :=
    (by decide +kernel : ∀ line ∈ Line.ofSource secondLine.toList, line.start ≤ 0 → line.indent = 0)
      line hbears.mem hbears.start.start_le
  have hraw : rawLines 0 (linesBehind secondLine.toList 2) =
      [⟨2, 2, 5, ['a'], "a\n  #\x7bx\x7d".toList⟩,
        ⟨3, 2, 9, "#\x7bx\x7d".toList, "#\x7bx\x7d".toList⟩] := by
    rfl
  rw [hindent, hraw] at hbody
  cases hbody
  cases hcommon
  obtain rfl : written = "#\x7bx\x7d".toList := hcut.written_eq.trans (by decide +kernel)
  obtain ⟨found, start, hfound, hfrom⟩ := hone (by decide)
  refine ⟨item, hitem, hspan, ⟨block, hnode⟩, by decide +kernel, _, _, hunder, rfl, rfl, hcut, ?_⟩
  have hpair : (found, start) ∈ [(_, 5), (_, 7)] := hfound
  rcases List.mem_cons.mp hpair with heq | hrest
  · -- it is longer than the first line
    cases heq
    obtain ⟨t, ⟨before, after, -, hbefore, hbehind⟩, hle, hstop, -⟩ := hfrom
    change t.stop = byteLength before + 4 at hbehind
    change 5 ≤ t.start at hle
    change t.stop ≤ 6 at hstop
    omega
  · cases List.mem_singleton.mp hrest
    refine ⟨hfrom, ?_⟩
    obtain ⟨⟨low, high⟩, hholds, -, -, hlow, hhigh⟩ := hfrom
    change 16 = low + 7 at hlow
    change 20 = high + 7 at hhigh
    obtain rfl : low = 9 := by omega
    obtain rfl : high = 13 := by omega
    exact hholds

end PugComponents.Template
