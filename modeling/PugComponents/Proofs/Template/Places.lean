import PugComponents.Proofs.Template.Heads
import PugComponents.Proofs.Text.Groups

/- Places in a source. The head of a tag and the groups of a mixin call are read
   from place to place. Each step passes characters of the source and uses up
   the lines that start in what it passes, so the lines that are left are always
   those after the line of the place that is reached (`Place.Reaches`). -/
namespace PugComponents.Template

open Text

/-- The place lies in the source where its offset says. -/
def Place.In (source : List Char) (p : Place) : Prop :=
  ∃ before, source = before ++ p.text ∧ p.offset = byteLength before

variable {front : List Char}

namespace Place.In

variable {source : List Char} {p : Place}

theorem skip (h : p.In source) (hfront : front <+: p.text) : (p.skip front).In source := by
  obtain ⟨before, hsource, hoffset⟩ := h
  obtain ⟨rest, hrest⟩ := hfront
  refine ⟨before ++ front, ?_, ?_⟩
  · rw [hsource, Place.skip, ← hrest, List.drop_left, List.append_assoc]
  · rw [Place.skip, hoffset, byteLength_append]

theorem stop_eq (h : p.In source) : p.stop = byteLength source := by
  obtain ⟨before, hsource, hoffset⟩ := h
  rw [Place.stop, hoffset, hsource, byteLength_append]

theorem length_le (h : p.In source) : p.text.length ≤ source.length := by
  obtain ⟨before, hsource, -⟩ := h
  rw [hsource, List.length_append]
  omega

end Place.In

variable {inner : List Char}

/-- The parentheses enclose what the group does, and what follows them follows the group. -/
theorem parenthesised?_eq (p : Place) (lines : List Line) :
    parenthesised? p lines = (group? p.text).map fun (inner, rest) =>
      (inner, ⟨p.offset + 1 + byteLength inner + 1, rest⟩,
        lines.dropWhile (·.start ≤ p.offset + 1 + byteLength inner)) := by
  have hzero : fromByte 0 p.text = p.text := fromByte_append [] p.text
  rw [parenthesised?, closing?, hzero, Option.map_map]
  cases hgroup : group? p.text with
  | none => rfl
  | some pair =>
    obtain ⟨inner, rest⟩ := pair
    obtain ⟨opener, closer, hopen, htext⟩ := group?_eq_some hgroup
    obtain ⟨hopener, hcloser⟩ := closerOf?_utf8Size hopen
    have hfront : byteLength (opener :: inner) = 0 + 1 + byteLength inner := by
      rw [byteLength, hopener, Nat.zero_add]
    have hwhole : byteLength (opener :: inner ++ [closer]) = 0 + 1 + byteLength inner + 1 := by
      rw [byteLength_append, hfront, byteLength, byteLength, hcloser]
    have htake : takeBytes (0 + 1 + byteLength inner) p.text = opener :: inner := by
      rw [htext, ← hfront]
      exact takeBytes_append (opener :: inner) (closer :: rest)
    have hinner : fromByte 1 (opener :: inner) = inner := by
      rw [fromByte, hopener, Nat.sub_self]
      exact fromByte_append [] inner
    have hrest : fromByte (0 + 1 + byteLength inner + 1) p.text = rest := by
      have hsplit : p.text = (opener :: inner ++ [closer]) ++ rest := by simp [htext]
      rw [← hwhole, hsplit, fromByte_append]
    have hclose : p.offset + (0 + 1 + byteLength inner) = p.offset + 1 + byteLength inner := by omega
    simp only [Option.map_some, Function.comp_apply, htake, hinner, hrest, hclose]

theorem parenthesised?_eq_some {p after : Place} {lines rest : List Line}
    (h : parenthesised? p lines = some (inner, after, rest)) :
    group? p.text = some (inner, after.text) ∧ after.offset = p.offset + 1 + byteLength inner + 1 ∧
      rest = lines.dropWhile (·.start ≤ p.offset + 1 + byteLength inner) := by
  rw [parenthesised?_eq] at h
  obtain ⟨⟨inner', text⟩, hgroup, heq⟩ := Option.map_eq_some_iff.mp h
  cases heq
  exact ⟨hgroup, rfl, rfl⟩

/-! ## The lines after a place -/

/-- The lines are those after the line that the place stands in. -/
def Place.LinesAfter (p : Place) (lines : List Line) : Prop :=
  ∃ count, lines = Line.afterFeeds count p.offset p.text

theorem Place.LinesAfter.lineStop_lt {p : Place} {lines : List Line} (h : p.LinesAfter lines) :
    ∀ line ∈ lines, p.lineStop < line.start := by
  obtain ⟨count, rfl⟩ := h
  intro line hline
  have hstart := Line.afterFeeds_start _ _ _ line hline
  have hstop := byteLength_le_of_prefix (dropReturn_isPrefix (p.text.takeWhile (· != '\n')))
  rw [Place.lineStop, Place.line, lineContent]
  omega

theorem Place.offset_le_lineStop (p : Place) : p.offset ≤ p.lineStop := Nat.le_add_right _ _

theorem isPrefix_of_startsWith {text : List Char} (h : startsWith text front = true) :
    front <+: text := by
  obtain ⟨rest, hrest⟩ := Option.isSome_iff_exists.mp h
  exact ⟨rest, (eq_append_of_dropPrefix? hrest).symm⟩

theorem Place.line_isPrefix (p : Place) : p.line <+: p.text := lineContent_isPrefix p.text

theorem Place.length_skip_le (p : Place) (front : List Char) :
    (p.skip front).text.length ≤ p.text.length :=
  (List.drop_suffix _ _).length_le

theorem Place.inText {p : Place} (h : front <+: p.line) : front <+: p.text :=
  h.trans p.line_isPrefix

/-- The name of a spread stands at the front of it. -/
theorem spreadLead_isPrefix {p : Place} (h : startsWith p.line (spreadLead ++ ['(']) = true) :
    spreadLead <+: p.line :=
  (List.prefix_append spreadLead ['(']).trans (isPrefix_of_startsWith h)

variable {after : List Char}

/-- A class or an id stands at the front of what is left of a line. -/
theorem named_isPrefix {p : Place} {sign : Char} (h : p.line = sign :: after) :
    sign :: nameAtFront after <+: p.line := by
  rw [h]
  exact (List.prefix_cons_inj sign).mpr (List.take_prefix _ _)

theorem sign_isPrefix {p : Place} {sign : Char} (h : p.line = sign :: after) : [sign] <+: p.line :=
  ⟨after, h.symm⟩

theorem Place.length_skip_lt {p : Place} {c : Char} (h : c :: front <+: p.text) :
    (p.skip (c :: front)).text.length < p.text.length := by
  have := h.length_le
  simp only [Place.skip, List.length_drop, List.length_cons] at this ⊢
  omega

/-- Reading goes on from the place `p` with the lines after it to the place `q`. -/
structure Place.Reaches (p : Place) (lines : List Line) (q : Place) (rest : List Line) : Prop where
  text : ∃ front, p.text = front ++ q.text ∧ q.offset = p.offset + byteLength front
  follow : p.LinesAfter lines → q.LinesAfter rest
  used : ∀ line ∈ lines, line ∈ rest ∨ line.start ≤ q.offset

namespace Place.Reaches

variable {p q r : Place} {lines rest more : List Line}

theorem refl (p : Place) (lines : List Line) : p.Reaches lines p lines where
  text := ⟨[], rfl, rfl⟩
  follow := id
  used := fun _ hline => .inl hline

theorem offset_le (h : p.Reaches lines q rest) : p.offset ≤ q.offset := by
  obtain ⟨front, -, hoffset⟩ := h.text
  omega

theorem trans (h₁ : p.Reaches lines q rest) (h₂ : q.Reaches rest r more) : p.Reaches lines r more where
  text := by
    obtain ⟨a, ha, hq⟩ := h₁.text
    obtain ⟨b, hb, hr⟩ := h₂.text
    refine ⟨a ++ b, ?_, ?_⟩
    · rw [ha, hb, List.append_assoc]
    · rw [hr, hq, byteLength_append, Nat.add_assoc]
  follow := h₂.follow ∘ h₁.follow
  used := by
    intro line hline
    rcases h₁.used line hline with hrest | hle
    · exact h₂.used line hrest
    · exact .inr (Nat.le_trans hle h₂.offset_le)

theorem placeIn {source : List Char} (h : p.Reaches lines q rest) (hp : p.In source) : q.In source := by
  obtain ⟨front, htext, hoffset⟩ := h.text
  obtain ⟨before, hsource, hbefore⟩ := hp
  refine ⟨before ++ front, ?_, ?_⟩
  · rw [hsource, htext, List.append_assoc]
  · rw [hoffset, hbefore, byteLength_append]

theorem length_le (h : p.Reaches lines q rest) : q.text.length ≤ p.text.length := by
  obtain ⟨front, htext, -⟩ := h.text
  rw [htext, List.length_append]
  omega

/-- Characters of the line are passed. -/
theorem skip (h : front <+: p.line) (lines : List Line) : p.Reaches lines (p.skip front) lines := by
  have htext : front ++ (p.skip front).text = p.text :=
    List.prefix_iff_eq_append.mp (h.trans p.line_isPrefix)
  refine ⟨⟨front, htext.symm, rfl⟩, ?_, fun _ hline => .inl hline⟩
  rintro ⟨count, hlines⟩
  have hfeed : '\n' ∉ front := fun hmem => feed_notMem_lineContent p.text (h.subset hmem)
  refine ⟨count, hlines.trans ?_⟩
  rw [← htext]
  exact Line.afterFeeds_skip count p.offset hfeed _

theorem toLineEnd (p : Place) (lines : List Line) : p.Reaches lines p.toLineEnd lines :=
  skip (List.prefix_refl _) lines

/-- The lines that a group reaches into are those that start before its end. -/
theorem parenthesised (h : parenthesised? p lines = some (inner, q, rest)) :
    p.Reaches lines q rest := by
  obtain ⟨hgroup, hoffset, hrest⟩ := parenthesised?_eq_some h
  obtain ⟨opener, closer, hopen, htext⟩ := group?_eq_some hgroup
  obtain ⟨hopener, hsize⟩ := closerOf?_utf8Size hopen
  have hfront : byteLength (opener :: inner) = 1 + byteLength inner := by
    rw [byteLength, hopener]
  refine ⟨⟨opener :: (inner ++ [closer]), by simp [htext], ?_⟩, ?_, ?_⟩
  · rw [hoffset, byteLength, byteLength_append, byteLength, byteLength, hopener, hsize]
    omega
  · rintro ⟨count, hlines⟩
    -- The closer is neither indentation nor a line feed: no line starts between it and `q`.
    have hplain : isIndentation closer = false ∧ closer ≠ '\n' := by
      rcases closerOf?_cases hopen with ⟨-, rfl⟩ | ⟨-, rfl⟩ | ⟨-, rfl⟩ <;> decide
    obtain ⟨used, count, hused, hstart⟩ :=
      Line.afterFeeds_pass count p.offset (opener :: inner) hplain.1 hplain.2 q.text
    have hend : p.offset + byteLength (opener :: inner) + closer.utf8Size = q.offset := by
      omega
    rw [hend] at hused
    refine ⟨count, ?_⟩
    have hbefore : ∀ line ∈ used, decide (line.start ≤ p.offset + 1 + byteLength inner) = true := by
      intro line hline
      have := hstart line hline
      exact decide_eq_true (by omega)
    have hafter : ∀ line ∈ (Line.afterFeeds count q.offset q.text).head?,
        ¬ decide (line.start ≤ p.offset + 1 + byteLength inner) = true := by
      intro line hline
      have := Line.afterFeeds_start _ _ _ line (List.mem_of_mem_head? hline)
      simp only [decide_eq_true_eq]
      omega
    rw [hrest, hlines, htext, ← List.cons_append, hused, List.dropWhile_append_of_pos hbefore]
    cases hlist : Line.afterFeeds count q.offset q.text with
    | nil => rfl
    | cons line list => exact List.dropWhile_cons_of_neg (hafter line (by rw [hlist]; rfl))
  · intro line hline
    rw [hrest]
    rw [← List.takeWhile_append_dropWhile (p := fun l : Line => l.start ≤ p.offset + 1 + byteLength inner)
      (l := lines)] at hline
    rcases List.mem_append.mp hline with htaken | hleft
    · have := List.all_eq_true.mp List.all_takeWhile line htaken
      simp only [decide_eq_true_eq] at this
      exact .inr (by omega)
    · exact .inl hleft

/-- A group that is not closed is passed to the end of its line. -/
theorem attributeGroup {g : Groups} (h : attributeGroup? p lines = some g) :
    p.Reaches lines g.place g.lines := by
  unfold attributeGroup? at h
  split at h
  · split at h
    · cases h
      exact toLineEnd p lines
    · rename_i hgroup
      cases h
      exact parenthesised hgroup
  · split at h
    · rename_i hlead
      simp only at h
      split at h
      · cases h
        exact toLineEnd p lines
      · rename_i hgroup
        cases h
        exact (skip (spreadLead_isPrefix hlead) lines).trans (parenthesised hgroup)
    · cases h

theorem attributeGroups (n : Nat) (p : Place) (lines : List Line) :
    p.Reaches lines (attributeGroups n p lines).place (attributeGroups n p lines).lines := by
  induction n generalizing p lines with
  | zero => exact refl p lines
  | succ n ih =>
    unfold Template.attributeGroups
    split
    · exact refl p lines
    · rename_i g hg
      split
      · exact (attributeGroup hg).trans (ih g.place g.lines)
      · exact attributeGroup hg

theorem tagHead (n : Nat) (p : Place) (lines : List Line) :
    p.Reaches lines (tagHead n p lines).place (tagHead n p lines).lines := by
  fun_induction Template.tagHead n p lines with
  | case1 | case3 | case5 | case8 => exact refl _ _
  | case2 => exact toLineEnd _ _
  | case4 n p lines after hline _ _ ih | case6 n p lines after hline _ _ ih =>
    exact (skip (named_isPrefix hline) lines).trans ih
  | case7 n p lines after hline => exact skip (sign_isPrefix hline) lines
  | case9 n p lines g hg more _ _ _ ih =>
    show p.Reaches lines more.place more.lines
    unfold more
    split
    · exact (attributeGroup hg).trans ih
    · exact attributeGroup hg

end Place.Reaches

theorem parenthesised?_shorter {p after : Place} {lines rest : List Line}
    (h : parenthesised? p lines = some (inner, after, rest)) :
    after.text.length < p.text.length := by
  obtain ⟨opener, closer, -, htext⟩ := group?_eq_some (parenthesised?_eq_some h).1
  rw [htext, List.length_cons, List.length_append, List.length_cons]
  omega

/-- A group that is closed is passed. -/
theorem attributeGroup?_shorter {p : Place} {lines : List Line} {g : Groups}
    (h : attributeGroup? p lines = some g) (hclosed : g.closed = true) :
    g.place.text.length < p.text.length := by
  unfold attributeGroup? at h
  split at h
  · split at h
    · cases h
      cases hclosed
    · rename_i hgroup
      cases h
      exact parenthesised?_shorter hgroup
  · split at h
    · simp only at h
      split at h
      · cases h
        cases hclosed
      · rename_i hgroup
        cases h
        exact Nat.lt_of_lt_of_le (parenthesised?_shorter hgroup) (p.length_skip_le spreadLead)
    · cases h

/-! ## The parts of a tag's head -/

theorem tagHead_class {p : Place} (hline : p.line = '.' :: after) (hname : nameAtFront after ≠ [])
    (n : Nat) (lines : List Line) :
    tagHead (n + 1) p lines =
      (tagHead n (p.skip ('.' :: nameAtFront after)) lines).consPart
        (.className (String.ofList (nameAtFront after))
          (Span.between p.offset (p.skip ('.' :: nameAtFront after)).offset)) := by
  rw [tagHead, hline]
  simp only

theorem tagHead_id {p : Place} (hline : p.line = '#' :: after) (hname : nameAtFront after ≠ [])
    (n : Nat) (lines : List Line) :
    tagHead (n + 1) p lines =
      (tagHead n (p.skip ('#' :: nameAtFront after)) lines).consPart
        (.attribute ⟨"id", .expression ("'" ++ String.ofList (nameAtFront after) ++ "'"), true,
          Span.between p.offset (p.skip ('#' :: nameAtFront after)).offset⟩) := by
  rw [tagHead, hline]
  simp only

/-- What a group and what follows it give to the head of a tag. -/
def Groups.before (g : Groups) (more : TagHead) : TagHead :=
  { more with
    parts := g.attributes.map .attribute ++ more.parts
    spreads := g.spreads ++ more.spreads
    faults := g.faults ++ more.faults }

theorem tagHead_group {p : Place} (hdot : ∀ after, p.line ≠ '.' :: after)
    (hhash : ∀ after, p.line ≠ '#' :: after) (hslash : ∀ after, p.line ≠ '/' :: after) (n : Nat)
    (lines : List Line) :
    tagHead (n + 1) p lines =
      match attributeGroup? p lines with
      | none => .ended .plain p lines
      | some g =>
        g.before (if g.closed then tagHead n g.place g.lines else .ended .plain g.place g.lines) := by
  rw [tagHead]
  split
  · exact absurd ‹_› (hdot _)
  · exact absurd ‹_› (hhash _)
  · exact absurd ‹_› (hslash _)
  · rfl

/-- A colon and the white space after it stand at the front of what is left of a line. -/
theorem gap_isPrefix {p : Place} (h : p.line = ':' :: after) :
    ':' :: after.takeWhile isWhiteSpace <+: p.line := by
  rw [h]
  exact (List.prefix_cons_inj ':').mpr (List.takeWhile_prefix _)

/-- The text from `p` to `q` ends in a dot and white space. -/
def Place.DotBefore (p q : Place) : Prop :=
  ∃ front blank, isBlank blank = true ∧ p.text = front ++ '.' :: blank ++ q.text ∧
    q.offset = p.offset + byteLength (front ++ '.' :: blank)

theorem Place.Reaches.dotBefore {p q r : Place} {lines rest : List Line}
    (h : p.Reaches lines q rest) (hdot : q.DotBefore r) : p.DotBefore r := by
  obtain ⟨passed, hp, hq⟩ := h.text
  obtain ⟨front, blank, hblank, htext, hoffset⟩ := hdot
  refine ⟨passed ++ front, blank, hblank, ?_, ?_⟩
  · rw [hp, htext]
    simp
  · rw [hoffset, hq, List.append_assoc, byteLength_append passed, Nat.add_assoc]

/-- The head of a text block ends in a dot, and nothing but white space follows it on the line. -/
theorem tagHead_textBlock {n : Nat} {p : Place} {lines : List Line}
    (h : (tagHead n p lines).ending = .textBlock) :
    (tagHead n p lines).place.line = [] ∧ p.DotBefore (tagHead n p lines).place := by
  fun_induction tagHead n p lines with
  | case1 | case3 | case5 | case7 | case8 => cases h
  | case2 n p lines after hline hname hblank =>
    refine ⟨(lineContent_drop (Nat.le_refl _)).trans List.drop_length, [], after, hblank, ?_, ?_⟩
    · rw [List.nil_append, ← hline]
      exact (List.prefix_iff_eq_append.mp p.line_isPrefix).symm
    · rw [List.nil_append, ← hline]
      rfl
  | case4 n p lines after hline _ _ ih | case6 n p lines after hline _ _ ih =>
    exact ⟨(ih h).1, (Place.Reaches.skip (named_isPrefix hline) lines).dotBefore (ih h).2⟩
  | case9 n p lines g hg rest _ _ _ ih =>
    revert h
    show rest.ending = .textBlock → rest.place.line = [] ∧ p.DotBefore rest.place
    unfold rest
    split
    · exact fun h => ⟨(ih h).1, (Place.Reaches.attributeGroup hg).dotBefore (ih h).2⟩
    · exact fun h => by cases h

/-- What stands after the colon of a tag is the rest of its line. -/
theorem tagTail_expansion {line sub : Line} {selfClosing : Bool} {p : Place}
    (h : (Head.tagTail line selfClosing p).1 = .expansion sub) (lines : List Line) :
    p.Reaches lines ⟨sub.start, sub.onward⟩ lines ∧ sub.text = lineContent sub.onward ∧
      sub.onward.length < p.text.length := by
  unfold Head.tagTail at h
  simp only at h
  split at h
  · cases h
  · split at h
    · cases h
    · rename_i after hline
      split at h
      · cases h
      · cases h
        have hgap := gap_isPrefix hline
        refine ⟨Place.Reaches.skip hgap lines, ?_, Place.length_skip_lt (Place.inText hgap)⟩
        show after.drop (after.takeWhile isWhiteSpace).length = lineContent (p.text.drop _)
        rw [lineContent_drop hgap.length_le, show lineContent p.text = ':' :: after from hline,
          List.length_cons, List.drop_succ_cons]
    · cases h
    · cases h
    · split at h <;> cases h
    · split at h <;> cases h
    · cases h

/-- A colon and blanks stand between the place and the offset. -/
def Place.ColonBefore (p : Place) (offset : Nat) : Prop :=
  ∃ after, p.line = ':' :: after ∧ after.takeWhile isWhiteSpace ≠ [] ∧
    offset = p.offset + byteLength (':' :: after.takeWhile isWhiteSpace)

theorem Place.ColonBefore.offset_le {p : Place} {offset : Nat} (h : p.ColonBefore offset) :
    p.offset ≤ offset := by
  obtain ⟨after, -, -, rfl⟩ := h
  exact Nat.le_add_right _ _

theorem tagTail_colon {line sub : Line} {selfClosing : Bool} {p : Place}
    (h : (Head.tagTail line selfClosing p).1 = .expansion sub) : p.ColonBefore sub.start := by
  unfold Head.tagTail at h
  simp only at h
  split at h
  · cases h
  · split at h
    · cases h
    · rename_i after hline
      split at h
      · cases h
      · rename_i hgap
        cases h
        refine ⟨after, hline, ?_, rfl⟩
        intro hnone
        simp [hnone] at hgap
    · cases h
    · cases h
    · split at h <;> cases h
    · split at h <;> cases h
    · cases h

end PugComponents.Template
