import Mathlib.Data.List.Induction
import Mathlib.Data.List.GetD
import PugComponents.Text.Position

/- Positions along a text. Each character takes a place to the one behind it, a
   line feed to the front of the next line (`Position.past`). What the characters
   before a place lead to, from the front of the text, counts their line feeds and
   the characters of the last line (`foldl_past`). The table of the lines with its
   search gives the same position (`position_byteLength`), and the way back to the
   start of the line the same column (`columnAt_byteLength`). So positions come in
   the order of the offsets (`Position.Precedes.foldl`). -/
namespace PugComponents.Text

/-- The front of a text. -/
def Position.first : Position := ⟨1, 1⟩

/-- The position behind a character. -/
def Position.past (p : Position) (c : Char) : Position :=
  if c == '\n' then ⟨p.line + 1, 1⟩ else ⟨p.line, p.column + 1⟩

theorem Position.past_feed (p : Position) : p.past '\n' = ⟨p.line + 1, 1⟩ := rfl

theorem Position.past_char (p : Position) {c : Char} (h : c ≠ '\n') : p.past c = ⟨p.line, p.column + 1⟩ := by
  rw [past, if_neg (by simpa using h)]

/-! ## Lines and columns -/

/-- The characters after the last line feed. -/
def lastLine (before : List Char) : List Char := (before.reverse.takeWhile (· != '\n')).reverse

theorem lastLine_concat_feed (before : List Char) : lastLine (before ++ ['\n']) = [] := by
  simp [lastLine]

theorem lastLine_concat (before : List Char) {c : Char} (h : c ≠ '\n') :
    lastLine (before ++ [c]) = lastLine before ++ [c] := by
  simp [lastLine, h]

/-- A position counts the line feeds and the characters after the last one. -/
theorem foldl_past (before : List Char) :
    before.foldl Position.past .first = ⟨1 + before.count '\n', 1 + (lastLine before).length⟩ := by
  induction before using List.reverseRecOn with
  | nil => rfl
  | append_singleton before c ih =>
    rw [List.foldl_append, ih, List.foldl_cons, List.foldl_nil, List.count_append]
    by_cases hc : c = '\n'
    · subst hc
      rw [Position.past_feed, lastLine_concat_feed]
      rfl
    · rw [Position.past_char _ hc, lastLine_concat before hc, List.length_append,
        List.count_cons_of_ne hc]
      rfl

/-- On one line every character takes a column. -/
theorem foldl_past_line (p : Position) {cs : List Char} (h : '\n' ∉ cs) :
    cs.foldl Position.past p = ⟨p.line, p.column + cs.length⟩ := by
  induction cs generalizing p with
  | nil => rfl
  | cons c cs ih =>
    obtain ⟨hc, hcs⟩ := not_or.mp (mt List.mem_cons.mpr h)
    rw [List.foldl_cons, ih _ hcs, Position.past_char p (Ne.symm hc), List.length_cons,
      Nat.add_right_comm, Nat.add_assoc p.column]

/-- The way back from a place to the start of its line is as long as its column says. -/
theorem columnAt_byteLength (before rest : List Char) :
    columnAt (before ++ rest) (byteLength before) = (before.foldl Position.past .first).column := by
  rw [foldl_past, columnAt, takeBytes_append, lastLine, List.length_reverse, Nat.add_comm]

/-! ## The table of the lines -/

theorem startsAfterFeeds_append (offset : Nat) (a b : List Char) :
    startsAfterFeeds offset (a ++ b) =
      startsAfterFeeds offset a ++ startsAfterFeeds (offset + byteLength a) b := by
  induction a generalizing offset with
  | nil => rfl
  | cons c a ih =>
    rw [List.cons_append, startsAfterFeeds, startsAfterFeeds, byteLength, ih, Nat.add_assoc]
    split <;> rfl

theorem length_startsAfterFeeds (offset : Nat) (text : List Char) :
    (startsAfterFeeds offset text).length = text.count '\n' := by
  induction text generalizing offset with
  | nil => rfl
  | cons c cs ih =>
    rw [startsAfterFeeds]
    split
    · rename_i hc
      rw [List.length_cons, ih, beq_iff_eq.mp hc, List.count_cons_self]
    · rename_i hc
      rw [ih, List.count_cons_of_ne (by simpa using hc)]

theorem mem_startsAfterFeeds {offset start : Nat} {text : List Char}
    (h : start ∈ startsAfterFeeds offset text) : offset < start ∧ start ≤ offset + byteLength text := by
  induction text generalizing offset with
  | nil => cases h
  | cons c cs ih =>
    have hpos := c.utf8Size_pos
    rw [startsAfterFeeds] at h
    rw [byteLength]
    split at h
    · rcases List.mem_cons.mp h with rfl | h
      · omega
      · have := ih h
        omega
    · have := ih h
      omega

/-- The last line starts behind what is before it. -/
theorem getLast?_starts (before : List Char) :
    ∃ front, before = front ++ lastLine before ∧
      (0 :: startsAfterFeeds 0 before).getLast? = some (byteLength front) := by
  induction before using List.reverseRecOn with
  | nil => exact ⟨[], rfl, rfl⟩
  | append_singleton before c ih =>
    obtain ⟨front, hbefore, hlast⟩ := ih
    rw [startsAfterFeeds_append, ← List.cons_append]
    by_cases hc : c = '\n'
    · subst hc
      refine ⟨before ++ ['\n'], by rw [lastLine_concat_feed, List.append_nil], ?_⟩
      rw [byteLength_append, Nat.zero_add]
      exact List.getLast?_concat
    · refine ⟨front, by rw [lastLine_concat before hc, ← List.append_assoc, ← hbefore], ?_⟩
      have hnone : startsAfterFeeds (0 + byteLength before) [c] = [] := by simp [startsAfterFeeds, hc]
      rw [hnone, List.append_nil, hlast]

/-! ## The search -/

variable {table : Array Nat} {key : Nat}

/-- Halving ends at the last entry that is not above the key: `place`, which is never left. -/
theorem lastNotAbove_eq {place base size : Nat} (hbase : base ≤ place) (hplace : place < base + size)
    (h : ∀ i < base + size, table.getD i 0 ≤ key ↔ i ≤ place) :
    lastNotAbove table key base size = place := by
  fun_induction lastNotAbove table key base size with
  | case1 base size hsize half habove ih =>
    have := h (base + half) (by omega)
    exact ih hbase (by omega) fun i hi => h i (by omega)
  | case2 base size hsize half habove ih =>
    have := h (base + half) (by omega)
    exact ih (by omega) (by omega) fun i hi => h i (by omega)
  | case3 base size hsize => omega

/-- In a table whose front is not above the key and whose back is, the search leads to the end of the
front. -/
theorem binarySearch_append {front back : List Nat} {last : Nat}
    (hfront : ∀ entry ∈ front ++ [last], entry ≤ key) (hback : ∀ entry ∈ back, key < entry) :
    binarySearch (front ++ [last] ++ back).toArray key =
      if last = key then .ok front.length else .error (front.length + 1) := by
  have hentry : ∀ i, (front ++ [last] ++ back).toArray.getD i 0 = (front ++ [last] ++ back).getD i 0 := by
    simp
  have hplace : lastNotAbove (front ++ [last] ++ back).toArray key 0 (front ++ [last] ++ back).length =
      front.length := by
    refine lastNotAbove_eq (Nat.zero_le _) (by simp) fun i hi => ?_
    rw [Nat.zero_add, List.length_append] at hi
    rw [hentry]
    rcases Nat.lt_or_ge i (front ++ [last]).length with hlt | hge
    · rw [List.getD_append _ _ _ _ hlt, List.getD_eq_getElem _ _ hlt]
      have := hfront _ (List.getElem_mem hlt)
      rw [List.length_append, List.length_singleton] at hlt
      omega
    · have hinside : i - (front ++ [last]).length < back.length := by omega
      rw [List.getD_append_right _ _ _ _ hge, List.getD_eq_getElem _ _ hinside]
      have := hback _ (List.getElem_mem hinside)
      rw [List.length_append, List.length_singleton] at hge
      omega
  have hle : last ≤ key := hfront last List.mem_concat_self
  have hlast : (front ++ [last] ++ back).getD front.length 0 = last := by simp
  rw [binarySearch, if_neg (by simp)]
  simp only [List.size_toArray, hplace, hentry, hlast]
  split
  · rfl
  · rw [if_pos (by omega)]

/-- The line of a place is the one with as many line feeds before it; it starts behind `front`, where
the last line before the place starts. -/
theorem lineOf_byteLength (before rest : List Char) :
    ∃ front, before = front ++ lastLine before ∧
      (LineIndex.ofText (before ++ rest)).lineOf (byteLength before) = before.count '\n' ∧
      (LineIndex.ofText (before ++ rest)).starts.getD (before.count '\n') 0 = byteLength front := by
  obtain ⟨front, hbefore, hlast⟩ := getLast?_starts before
  obtain ⟨starts, hstarts⟩ := List.getLast?_eq_some_iff.mp hlast
  have hlength : starts.length = before.count '\n' := by
    have := congrArg List.length hstarts
    rw [List.length_cons, length_startsAfterFeeds, List.length_append, List.length_singleton] at this
    omega
  have htable : (LineIndex.ofText (before ++ rest)).starts =
      (starts ++ [byteLength front] ++ startsAfterFeeds (byteLength before) rest).toArray := by
    rw [LineIndex.ofText, startsAfterFeeds_append, ← List.cons_append, hstarts, Nat.zero_add]
  have hfront : ∀ entry ∈ starts ++ [byteLength front], entry ≤ byteLength before := by
    rw [← hstarts]
    intro entry hentry
    rcases List.mem_cons.mp hentry with rfl | hentry
    · exact Nat.zero_le _
    · have := mem_startsAfterFeeds hentry
      omega
  have hback : ∀ entry ∈ startsAfterFeeds (byteLength before) rest, byteLength before < entry :=
    fun entry hentry => (mem_startsAfterFeeds hentry).1
  refine ⟨front, hbefore, ?_, ?_⟩
  · rw [LineIndex.lineOf, htable, binarySearch_append hfront hback, ← hlength]
    by_cases hend : byteLength front = byteLength before
    · rw [if_pos hend]
    · rw [if_neg hend]
      rfl
  · rw [htable, ← hlength]
    simp

/-- The position between two characters is where the ones before it lead. -/
theorem position_byteLength (before rest : List Char) :
    position (before ++ rest) (byteLength before) = before.foldl Position.past .first := by
  obtain ⟨front, hbefore, hline, hstart⟩ := lineOf_byteLength before rest
  have hstop : min (byteLength before) (byteLength (before ++ rest)) = byteLength before := by
    rw [byteLength_append]
    omega
  have hlast : fromByte (byteLength front) before = lastLine before :=
    (congrArg (fromByte (byteLength front)) hbefore).trans (fromByte_append front _)
  have hslice : slice? (byteLength front) (byteLength before) (before ++ rest) = some (lastLine before) := by
    rw [slice?, takeBytes_append, if_pos rfl, hlast]
  simp only [position, LineIndex.position, LineIndex.ofText] at hline hstart ⊢
  rw [hstop, hline, hstart, hslice, foldl_past, Nat.add_comm 1, Nat.add_comm 1]

/-- An offset past the end is taken for the end. -/
theorem position_past_end (text : List Char) {offset : Nat} (h : byteLength text ≤ offset) :
    position text offset = position text (byteLength text) := by
  have hstop : min offset (byteLength text) = min (byteLength text) (byteLength text) := by omega
  simp only [position, LineIndex.position, LineIndex.ofText, hstop]

/-! ## The order of positions -/

/-- The first position comes before the second one in a text. -/
def Position.Precedes (p q : Position) : Prop :=
  p.line < q.line ∨ p.line = q.line ∧ p.column < q.column

variable {p q : Position}

theorem Position.Precedes.trans {r : Position} (hpq : p.Precedes q) (hqr : q.Precedes r) :
    p.Precedes r := by
  unfold Precedes at *
  omega

theorem Position.Precedes.asymm (h : p.Precedes q) : ¬ q.Precedes p := by
  unfold Precedes at *
  omega

theorem Position.Precedes.ne (h : p.Precedes q) : p ≠ q := by
  rintro rfl
  exact h.asymm h

theorem Position.precedes_past (p : Position) (c : Char) : p.Precedes (p.past c) := by
  unfold past
  split
  · exact .inl (Nat.lt_succ_self _)
  · exact .inr ⟨rfl, Nat.lt_succ_self _⟩

theorem Position.Precedes.foldl (p : Position) {cs : List Char} (h : cs ≠ []) :
    p.Precedes (cs.foldl Position.past p) := by
  induction cs generalizing p with
  | nil => exact absurd rfl h
  | cons c cs ih =>
    cases cs with
    | nil => exact p.precedes_past c
    | cons d cs => exact (p.precedes_past c).trans (ih _ (List.cons_ne_nil _ _))

end PugComponents.Text
