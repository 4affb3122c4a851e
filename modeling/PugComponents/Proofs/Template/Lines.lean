import PugComponents.Template.Line

/- The lines of a source. A line ends at the first line feed of what stands from
   it on, so its content depends on nothing after that. Each line lies where its
   offset says (`placed_of_mem_ofSource`), each starts after the end of the one
   before it (`pairwise_ofSource`), and the lines of a text in two parts are those
   of the parts (`ofSource_append`). -/
namespace PugComponents.Template

open Text

/-! ## The content of a line -/

theorem takeWhile_ne_feed_append (a b : List Char) :
    (a ++ '\n' :: b).takeWhile (· != '\n') = a.takeWhile (· != '\n') := by
  induction a with
  | nil => rfl
  | cons c a ih => by_cases h : c = '\n' <;> simp [h, ih]

/-- A line feed and what follows it are no part of the line before. -/
theorem lineContent_append_feed (a b : List Char) : lineContent (a ++ '\n' :: b) = lineContent a := by
  rw [lineContent, takeWhile_ne_feed_append, lineContent]

theorem dropReturn_isPrefix (cs : List Char) : dropReturn cs <+: cs := by
  unfold dropReturn
  split
  · exact List.dropLast_prefix cs
  · exact List.prefix_refl cs

theorem lineContent_isPrefix (onward : List Char) : lineContent onward <+: onward :=
  (dropReturn_isPrefix _).trans (List.takeWhile_prefix _)

theorem length_lineContent_le (onward : List Char) : (lineContent onward).length ≤ onward.length :=
  (lineContent_isPrefix onward).length_le

/-- Passing the first characters of a line leaves the rest of its content. -/
theorem lineContent_drop {onward : List Char} {n : Nat} (h : n ≤ (lineContent onward).length) :
    lineContent (onward.drop n) = (lineContent onward).drop n := by
  induction n generalizing onward with
  | zero => rfl
  | succ n ih =>
    cases onward with
    | nil => simp [lineContent, dropReturn] at h
    | cons c cs =>
      have hc : c ≠ '\n' := by
        rintro rfl
        simp [lineContent, dropReturn] at h
      have hcons : lineContent (c :: cs) =
          if c = '\r' ∧ cs.takeWhile (· != '\n') = [] then [] else c :: lineContent cs := by
        simp only [lineContent, List.takeWhile_cons, bne_iff_ne, ne_eq, hc, not_false_eq_true,
          if_true]
        generalize cs.takeWhile (· != '\n') = line
        cases line with
        | nil => by_cases hr : c = '\r' <;> simp [dropReturn, hr]
        | cons d line => simp [dropReturn, List.getLast?_cons_cons, apply_ite (c :: ·)]
      split at hcons
      · rw [hcons] at h
        simp at h
      · rw [hcons] at h ⊢
        rw [List.drop_succ_cons, List.drop_succ_cons]
        exact ih (by simpa using h)

theorem feed_notMem_lineContent (onward : List Char) : '\n' ∉ lineContent onward := by
  intro hfeed
  have htake := (dropReturn_isPrefix _).subset hfeed
  simpa using List.all_eq_true.mp List.all_takeWhile _ htake

theorem indentation_isPrefix (onward : List Char) :
    (lineContent onward).takeWhile isIndentation <+: onward :=
  (List.takeWhile_prefix _).trans (lineContent_isPrefix onward)

theorem feed_notMem_indentation (onward : List Char) :
    '\n' ∉ (lineContent onward).takeWhile isIndentation :=
  fun h => feed_notMem_lineContent onward ((List.takeWhile_prefix _).subset h)

variable {c : Char}

theorem isIndentation_of_not_isWhiteSpace (h : isWhiteSpace c = false) :
    isIndentation c = false := by
  cases hc : isIndentation c with
  | false => rfl
  | true => rcases (by simpa [isIndentation] using hc : c = ' ' ∨ c = '\t') with rfl | rfl <;> cases h

theorem byteLength_take_indentation (cs : List Char) :
    byteLength (cs.takeWhile isIndentation) = (cs.takeWhile isIndentation).length := by
  induction cs with
  | nil => rfl
  | cons c cs ih =>
    rw [List.takeWhile_cons]
    split
    · rename_i hc
      have hsize : c.utf8Size = 1 := by
        rcases (by simpa [isIndentation] using hc : c = ' ' ∨ c = '\t') with rfl | rfl <;> decide
      simp only [byteLength, List.length_cons, ih, hsize]
      omega
    · rfl

theorem byteLength_le_of_prefix {a b : List Char} (h : a <+: b) : byteLength a ≤ byteLength b := by
  obtain ⟨t, rfl⟩ := h
  rw [byteLength_append]
  omega

namespace Line

/-! ## Where a line stands -/

/-- The line lies in the source where its offset says, and its content is that of the line there. -/
structure Placed (source : List Char) (line : Line) : Prop where
  content : line.text = lineContent line.onward
  place : ∃ before, source = before ++ line.onward ∧ line.start = byteLength before

variable {source : List Char} {line : Line}

/-- The line and what follows it reach to the end of the source. -/
theorem Placed.total (h : line.Placed source) :
    line.start + byteLength line.onward = byteLength source := by
  obtain ⟨before, rfl, hstart⟩ := h.place
  rw [byteLength_append, hstart]

theorem atFront_text (number offset : Nat) (onward : List Char) :
    (atFront number offset onward).text = lineContent (atFront number offset onward).onward := by
  simp only [atFront]
  rw [lineContent_drop (List.takeWhile_prefix _).length_le]

theorem atFront_placed (number : Nat) (before onward : List Char) :
    (atFront number (byteLength before) onward).Placed (before ++ onward) := by
  refine ⟨atFront_text _ _ _, before ++ (lineContent onward).takeWhile isIndentation, ?_, ?_⟩
  · rw [List.append_assoc]
    exact congrArg (before ++ ·) (List.prefix_iff_eq_append.mp (indentation_isPrefix onward)).symm
  · simp only [atFront]
    rw [byteLength_append, byteLength_take_indentation]

theorem afterFeeds_placed (number : Nat) (before text : List Char) :
    ∀ line ∈ afterFeeds number (byteLength before) text, line.Placed (before ++ text) := by
  induction text generalizing number before with
  | nil => simp [afterFeeds]
  | cons c cs ih =>
    have hbytes : byteLength before + c.utf8Size = byteLength (before ++ [c]) := by
      simp [byteLength_append, byteLength]
    have hassoc : before ++ c :: cs = (before ++ [c]) ++ cs := by simp
    intro line hline
    rw [afterFeeds, hbytes] at hline
    rw [hassoc]
    split at hline
    · rcases List.mem_cons.mp hline with rfl | hline
      · exact atFront_placed _ _ _
      · exact ih _ _ line hline
    · exact ih _ _ line hline

/-- Every line lies where its offset says. -/
theorem placed_of_mem_ofSource (h : line ∈ ofSource source) : line.Placed source := by
  rcases List.mem_cons.mp h with rfl | h
  · exact atFront_placed 1 [] source
  · exact afterFeeds_placed 1 [] source line h

/-! ## The order of lines -/

theorem atFront_stop_le (number offset : Nat) (onward : List Char) :
    (atFront number offset onward).stop ≤ offset + byteLength (onward.takeWhile (· != '\n')) := by
  have hsplit := List.prefix_iff_eq_append.mp
    (List.takeWhile_prefix (l := lineContent onward) isIndentation)
  have hbytes := congrArg byteLength hsplit
  rw [byteLength_append, byteLength_take_indentation] at hbytes
  have hle := byteLength_le_of_prefix (dropReturn_isPrefix (onward.takeWhile (· != '\n')))
  simp only [atFront, stop, lineContent] at hbytes hle ⊢
  omega

theorem afterFeeds_start (number offset : Nat) (text : List Char) :
    ∀ line ∈ afterFeeds number offset text,
      offset + byteLength (text.takeWhile (· != '\n')) < line.start := by
  induction text generalizing number offset with
  | nil => simp [afterFeeds]
  | cons c cs ih =>
    intro line hline
    have hpos := c.utf8Size_pos
    rw [afterFeeds] at hline
    split at hline
    · rename_i hc
      obtain rfl : c = '\n' := by simpa using hc
      rcases List.mem_cons.mp hline with rfl | hline
      · simp only [atFront, List.takeWhile_cons] at hpos ⊢
        simp only [bne_self_eq_false, Bool.false_eq_true, if_false, byteLength]
        omega
      · have := ih _ _ line hline
        simp only [List.takeWhile_cons, bne_self_eq_false, Bool.false_eq_true, if_false, byteLength]
        omega
    · rename_i hc
      have := ih _ _ line hline
      have hne : (c != '\n') = true := by simpa using hc
      rw [List.takeWhile_cons, if_pos hne, byteLength]
      omega

theorem pairwise_afterFeeds (number offset : Nat) (text : List Char) :
    (afterFeeds number offset text).Pairwise fun a b => a.stop < b.start := by
  induction text generalizing number offset with
  | nil => exact .nil
  | cons c cs ih =>
    rw [afterFeeds]
    split
    · refine .cons ?_ (ih _ _)
      intro line hline
      have hstop := atFront_stop_le (number + 1) (offset + c.utf8Size) cs
      have hstart := afterFeeds_start _ _ _ line hline
      omega
    · exact ih _ _

/-- Each line starts after the end of every line before it. -/
theorem pairwise_ofSource (source : List Char) :
    (ofSource source).Pairwise fun a b => a.stop < b.start := by
  refine .cons ?_ (pairwise_afterFeeds 1 0 source)
  intro line hline
  have hstop := atFront_stop_le 1 0 source
  have hstart := afterFeeds_start _ _ _ line hline
  omega

/-! ## The lines after a place in a line -/

/-- Passing characters of a line leaves the lines after it. -/
theorem afterFeeds_skip (number offset : Nat) {front : List Char} (hfront : '\n' ∉ front)
    (text : List Char) :
    afterFeeds number offset (front ++ text) = afterFeeds number (offset + byteLength front) text := by
  induction front generalizing offset with
  | nil => rfl
  | cons c front ih =>
    obtain ⟨hc, hfront⟩ := not_or.mp (mt List.mem_cons.mpr hfront)
    rw [List.cons_append, afterFeeds, if_neg (by simpa using Ne.symm hc), ih _ hfront, byteLength,
      Nat.add_assoc]

theorem length_takeWhile_le_of_prefix {f : Char → Bool} (hc : f c = false)
    {front text rest : List Char} (h : text <+: front ++ c :: rest) :
    (text.takeWhile f).length ≤ front.length := by
  induction front generalizing text with
  | nil =>
    cases text with
    | nil => exact Nat.le_refl 0
    | cons d text =>
      obtain ⟨rfl, -⟩ := List.cons_prefix_cons.mp h
      simp [hc]
  | cons e front ih =>
    cases text with
    | nil => exact Nat.zero_le _
    | cons d text =>
      have htext := ih (List.cons_prefix_cons.mp h).2
      rw [List.takeWhile_cons]
      split
      · exact Nat.succ_le_succ htext
      · exact Nat.zero_le _

/-- Behind a character that is neither indentation nor a line feed, the lines that are left are those
that start after it. -/
theorem afterFeeds_pass (number offset : Nat) (front : List Char)
    (hindent : isIndentation c = false) (hfeed : c ≠ '\n') (rest : List Char) :
    ∃ used count, afterFeeds number offset (front ++ c :: rest) =
        used ++ afterFeeds count (offset + byteLength front + c.utf8Size) rest ∧
      ∀ line ∈ used, line.start ≤ offset + byteLength front := by
  induction front generalizing number offset with
  | nil =>
    refine ⟨[], number, ?_, fun line hline => absurd hline List.not_mem_nil⟩
    rw [List.nil_append, afterFeeds, if_neg (by simpa using hfeed)]
    rfl
  | cons d front ih =>
    have hoffset : offset + d.utf8Size + byteLength front = offset + byteLength (d :: front) := by
      rw [byteLength, Nat.add_assoc]
    rw [List.cons_append, afterFeeds]
    split
    · obtain ⟨used, count, hused, hstart⟩ := ih (number + 1) (offset + d.utf8Size)
      rw [hoffset] at hused hstart
      refine ⟨_ :: used, count, congrArg (_ :: ·) hused, ?_⟩
      intro line hline
      rcases List.mem_cons.mp hline with rfl | hline
      · -- The indentation of the line ends before the character.
        have hlength := length_takeWhile_le_of_prefix hindent
          (lineContent_isPrefix (front ++ c :: rest))
        have hbytes := length_le_byteLength front
        simp only [atFront]
        omega
      · exact hstart line hline
    · obtain ⟨used, count, hused, hstart⟩ := ih number (offset + d.utf8Size)
      rw [hoffset] at hused hstart
      exact ⟨used, count, hused, hstart⟩

theorem afterFeeds_atFront (number offset : Nat) (onward : List Char) :
    afterFeeds number offset onward =
      afterFeeds number (atFront number offset onward).start (atFront number offset onward).onward := by
  conv => lhs; rw [← List.prefix_iff_eq_append.mp (indentation_isPrefix onward)]
  rw [afterFeeds_skip number offset (feed_notMem_indentation onward), byteLength_take_indentation]
  rfl

theorem afterFeeds_suffix {number offset : Nat} {text : List Char} {line : Line} {after : List Line}
    (h : line :: after <:+ afterFeeds number offset text) :
    ∃ count, after = afterFeeds count line.start line.onward := by
  induction text generalizing number offset with
  | nil => simp [afterFeeds] at h
  | cons c cs ih =>
    rw [afterFeeds] at h
    split at h
    · rcases List.suffix_cons_iff.mp h with heq | h
      · obtain ⟨rfl, rfl⟩ := List.cons.inj heq
        exact ⟨_, afterFeeds_atFront _ _ _⟩
      · exact ih h
    · exact ih h

/-- The lines after a line of a source are those that its own text goes on with. -/
theorem ofSource_suffix {line : Line} {after : List Line} (h : line :: after <:+ ofSource source) :
    ∃ count, after = afterFeeds count line.start line.onward := by
  rcases List.suffix_cons_iff.mp h with heq | h
  · obtain ⟨rfl, rfl⟩ := List.cons.inj heq
    exact ⟨_, afterFeeds_atFront _ _ _⟩
  · exact afterFeeds_suffix h

/-! ## The lines of a text in two parts -/

/-- The line in a larger text, `bytes` bytes and `count` lines after its start, that goes on with
`tail`. -/
def within (bytes count : Nat) (tail : List Char) (line : Line) : Line :=
  { line with
    number := line.number + count
    start := line.start + bytes
    onward := line.onward ++ tail }

theorem atFront_append_feed (number offset : Nat) (a b : List Char) :
    atFront number offset (a ++ '\n' :: b) = (atFront number offset a).within 0 0 ('\n' :: b) := by
  have hle : ((lineContent a).takeWhile isIndentation).length ≤ a.length :=
    (indentation_isPrefix a).length_le
  simp only [atFront, within, lineContent_append_feed, List.drop_append_of_le_length hle, Nat.add_zero]

theorem atFront_within (number offset bytes count : Nat) (text : List Char) :
    atFront (number + count) (offset + bytes) text = (atFront number offset text).within bytes count [] := by
  simp only [atFront, within, List.append_nil, Nat.add_right_comm]

theorem afterFeeds_within (number offset bytes count : Nat) (text : List Char) :
    afterFeeds (number + count) (offset + bytes) text =
      (afterFeeds number offset text).map (within bytes count []) := by
  induction text generalizing number offset with
  | nil => rfl
  | cons c cs ih =>
    have hnumber : number + count + 1 = number + 1 + count := Nat.add_right_comm _ _ _
    have hoffset : offset + bytes + c.utf8Size = offset + c.utf8Size + bytes := Nat.add_right_comm _ _ _
    rw [afterFeeds, afterFeeds, hnumber, hoffset, atFront_within, ih, ih]
    split <;> rfl

theorem afterFeeds_append (number offset : Nat) (a b : List Char) :
    afterFeeds number offset (a ++ '\n' :: b) =
      (afterFeeds number offset a).map (within 0 0 ('\n' :: b)) ++
        atFront (number + (a.count '\n' + 1)) (offset + (byteLength a + 1)) b ::
          afterFeeds (number + (a.count '\n' + 1)) (offset + (byteLength a + 1)) b := by
  induction a generalizing number offset with
  | nil => rfl
  | cons c a ih =>
    have hoffset : offset + c.utf8Size + (byteLength a + 1) = offset + (byteLength (c :: a) + 1) := by
      rw [byteLength]
      omega
    rw [List.cons_append, afterFeeds, afterFeeds, ih, ih, hoffset]
    by_cases hc : c = '\n'
    · subst hc
      have hnumber : number + 1 + (a.count '\n' + 1) = number + (('\n' :: a).count '\n' + 1) := by
        rw [List.count_cons_self]
        omega
      simp [atFront_append_feed, hnumber]
    · have hcount : (c :: a).count '\n' = a.count '\n' := List.count_cons_of_ne hc
      simp [hc, hcount]

/-- The lines of a text in two parts are those of the parts. -/
theorem ofSource_append (a b : List Char) :
    ofSource (a ++ '\n' :: b) =
      (ofSource a).map (within 0 0 ('\n' :: b)) ++
        (ofSource b).map (within (byteLength a + 1) (a.count '\n' + 1) []) := by
  have hfront := atFront_within 1 0 (byteLength a + 1) (a.count '\n' + 1) b
  have hfeeds := afterFeeds_within 1 0 (byteLength a + 1) (a.count '\n' + 1) b
  rw [ofSource, atFront_append_feed, afterFeeds_append, hfront, hfeeds]
  rfl

end Line

end PugComponents.Template
