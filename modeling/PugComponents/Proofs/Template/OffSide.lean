import Mathlib.Logic.Equiv.Fin.Basic
import PugComponents.Proofs.Template.Heads

/- The off-side rule. In a template whose lines hold nothing but tag names, the
   parent of a line is the nearest line before it that is indented less, and a
   line is faulty if it is not indented as the first line with the same parent.
   Both are said of the list of lines alone (`parent?`, `firstSibling`). A block
   is read line by line; what it gives is compared with a pass over the lines
   that remembers those before (`withEarlier`), whose state plays the part of
   the stack of open tags. -/
namespace PugComponents.Template

open Text

/-! ## The rule -/

/-- The nearest line before the `i`-th that is indented less. -/
def parent? (lines : List Line) (i : Fin lines.length) : Option (Fin lines.length) :=
  Fin.findRev? fun j => j < i && lines[j].indent < lines[i].indent

/-- The first line with the parent of the `i`-th. -/
def firstSibling (lines : List Line) (i : Fin lines.length) : Fin lines.length :=
  (Fin.find? fun j => parent? lines j == parent? lines i).getD i

/-- Nothing but the name of a tag. -/
def Line.IsBareTag (line : Line) : Prop :=
  Marker.leading? line.text = some (.tagName, line.text.length)

instance (line : Line) : Decidable line.IsBareTag := inferInstanceAs (Decidable (_ = _))

/-- A tag with nothing but a name. -/
def Line.bareTag (line : Line) : Node :=
  .tag (String.ofList line.text) [] [] [] false line.span

mutual

/-- The tags of a tree from the outside in and from the first to the last, without what is in them.
Each comes with the span of the tag around it. -/
def outline (around : Option Span) : Node → List (Option Span × Node)
  | .tag name attributes spreads children selfClosing span =>
    (around, .tag name attributes spreads [] selfClosing span) :: outlines (some span) children
  | node => [(around, node)]

/-- The tags of a list of trees. -/
def outlines (around : Option Span) : List Node → List (Option Span × Node)
  | [] => []
  | node :: nodes => outline around node ++ outlines around nodes

end

variable {lines : List Line}

theorem parent?_eq_some_iff {i j : Fin lines.length} :
    parent? lines i = some j ↔ j < i ∧ lines[j].indent < lines[i].indent ∧
      ∀ k, j < k → k < i → lines[i].indent ≤ lines[k].indent := by
  simp only [parent?, Fin.findRev?_eq_some_iff, Bool.and_eq_true, decide_eq_true_eq,
    Bool.and_eq_false_iff, decide_eq_false_iff_not, Nat.not_lt, and_assoc, ← imp_iff_not_or]

theorem parent?_eq_none_iff {i : Fin lines.length} :
    parent? lines i = none ↔ ∀ j, j < i → lines[i].indent ≤ lines[j].indent := by
  simp only [parent?, Fin.findRev?_eq_none_iff, Bool.and_eq_false_iff, decide_eq_false_iff_not,
    Nat.not_lt, ← imp_iff_not_or]

/-- The line after a parent is the first one in it. -/
theorem firstSibling_of_parent? {i j : Fin lines.length} (h : parent? lines i = some j) :
    (firstSibling lines i).val = j.val + 1 := by
  obtain ⟨hlt, hless, hbetween⟩ := parent?_eq_some_iff.mp h
  have hltv : j.val < i.val := hlt
  let next : Fin lines.length := ⟨j.val + 1, by omega⟩
  have hnext : parent? lines next = some j := by
    refine parent?_eq_some_iff.mpr ⟨Fin.lt_def.mpr (Nat.lt_succ_self _), ?_, ?_⟩
    · by_cases hi : next = i
      · rwa [hi]
      · have hne : j.val + 1 ≠ i.val := fun heq => hi (Fin.ext heq)
        have hnexti : next < i := Fin.lt_def.mpr (by show j.val + 1 < i.val; omega)
        have := hbetween next (Fin.lt_def.mpr (Nat.lt_succ_self _)) hnexti
        omega
    · intro k hjk hk
      simp only [next, Fin.lt_def] at hjk hk
      omega
  have hfind : (Fin.find? fun k => parent? lines k == parent? lines i) = some next := by
    rw [Fin.find?_eq_some_iff, h]
    refine ⟨by rw [hnext, beq_self_eq_true], fun k hk => ?_⟩
    -- The parent of a line comes before the line.
    rw [beq_eq_false_iff_ne]
    intro hparent
    have := (parent?_eq_some_iff.mp hparent).1
    simp only [next, Fin.lt_def] at hk this
    omega
  rw [firstSibling, hfind, Option.getD_some]

/-- The first line of all is the first one without a parent. -/
theorem firstSibling_of_no_parent {i : Fin lines.length} (h : parent? lines i = none) :
    (firstSibling lines i).val = 0 := by
  let first : Fin lines.length := ⟨0, i.pos⟩
  have hfirst : parent? lines first = none := by
    rw [parent?_eq_none_iff]
    intro j hj
    exact absurd hj (Nat.not_lt_zero j)
  have hfind : (Fin.find? fun k => parent? lines k == parent? lines i) = some first := by
    rw [Fin.find?_eq_some_iff, h]
    exact ⟨by rw [hfirst, beq_self_eq_true], fun k hk => absurd hk (Nat.not_lt_zero k)⟩
  rw [firstSibling, hfind, Option.getD_some]

/-! ## A pass that remembers the lines before -/

/-- What `f` gives for each line, from the lines before it and itself. The lines before come latest
first. -/
def withEarlier {β : Type} (f : List Line → Line → List β) : List Line → List Line → List β
  | _, [] => []
  | earlier, line :: rest => f earlier line ++ withEarlier f (line :: earlier) rest

theorem withEarlier_append {β : Type} (f : List Line → Line → List β) (earlier a b : List Line) :
    withEarlier f earlier (a ++ b) =
      withEarlier f earlier a ++ withEarlier f (a.reverse ++ earlier) b := by
  induction a generalizing earlier with
  | nil => rfl
  | cons line a ih => simp [withEarlier, ih]

theorem withEarlier_eq_flatMap {β : Type} (f : List Line → Line → List β) (earlier lines : List Line) :
    withEarlier f earlier lines = (List.finRange lines.length).flatMap fun (i : Fin lines.length) =>
      f ((lines.take i).reverse ++ earlier) lines[i] := by
  induction lines generalizing earlier with
  | nil => rfl
  | cons line lines ih =>
    rw [withEarlier, ih]
    show _ = (List.finRange (lines.length + 1)).flatMap _
    rw [List.finRange_succ, List.flatMap_cons, List.flatMap_map]
    simp

/-- The tag that a line is in and the tag it writes. -/
def outlineOf (earlier : List Line) (line : Line) : List (Option Span × Node) :=
  [((earlier.find? (·.indent < line.indent)).map Line.span, line.bareTag)]

/-- The line that sets the indentation of a line: the first since the last that is indented less. -/
def opening (earlier : List Line) (line : Line) : Line :=
  (earlier.takeWhile (line.indent ≤ ·.indent)).getLast?.getD line

/-- The fault of a line. -/
def faultOf (earlier : List Line) (line : Line) : List Fault :=
  unevenIndent (opening earlier line).indent line

/-! ## Reading a block of bare tags -/

/-- The end of a line is no part of a tag's head. -/
theorem tagHead_of_line_nil {p : Place} (hp : p.line = []) (n : Nat) (lines : List Line) :
    tagHead n p lines = .ended .plain p lines := by
  cases n with
  | zero => rfl
  | succ n =>
    have hgroup : attributeGroup? p lines = none := by
      unfold attributeGroup?
      rw [hp]
      rfl
    rw [tagHead, hp, hgroup]

variable {line : Line}

/-- The head of a line with nothing but the name of a tag. -/
theorem read_bareTag (hcontent : line.text = lineContent line.onward)
    (hwritten : line.isBlank = false) (htag : line.IsBareTag) (source : List Char) (n : Nat)
    (lines : List Line) :
    Head.read source (n + 1) line lines = ⟨.single line.bareTag .nodes, [], lines⟩ := by
  have hname : line.text ≠ [] := by
    intro h
    rw [Line.isBlank, h] at hwritten
    cases hwritten
  have hend : Place.line ((⟨line.start, line.onward⟩ : Place).skip line.text) = [] := by
    show lineContent (line.onward.drop line.text.length) = []
    rw [hcontent, lineContent_drop (Nat.le_refl _), List.drop_length]
  have hspan : Span.between line.start (Place.lineStop ((⟨line.start, line.onward⟩ : Place).skip
      line.text)) = line.span := by
    rw [Place.lineStop, hend]
    show Span.between line.start (line.start + byteLength line.text + 0) = line.span
    rw [Span.between, Nat.add_zero, Nat.max_eq_right (Nat.le_add_right _ _)]
    rfl
  rw [Head.read, Head.step]
  simp only [show Marker.leading? line.text = _ from htag, List.take_length]
  unfold Head.ofTag
  simp only [tagHead_of_line_nil hend, TagHead.ended]
  rw [show decide (TagEnd.plain = TagEnd.selfClosing) = false from rfl, tagTail_of_line_nil line hend,
    hspan]
  simp [tagAttributes, Line.bareTag, hname]

/-- The head of every written line is read as that of a bare tag. -/
def ReadsBareTags (head : HeadReader) (lines : List Line) : Prop :=
  ∀ line ∈ written lines, ∀ rest, head line rest = ⟨.single line.bareTag .nodes, [], rest⟩

/-- The lines `used` from the front of `lines`, which come after `earlier`, are a block in the tag of
the line `around`. -/
structure BlockRead (around : Option Line) (earlier lines used : List Line) (nodes : List Node)
    (faults : List Fault) (rest : List Line) : Prop where
  lines_eq : written lines = used ++ written rest
  under : ∀ line ∈ used, line.isUnder (around.map Line.indent) = true
  stops : ∀ line ∈ (written rest).head?, line.isUnder (around.map Line.indent) = false
  outline_eq : outlines (around.map Line.span) nodes = withEarlier outlineOf earlier used
  faults_eq : faults = withEarlier faultOf earlier used

theorem readEntry_bareTag {head : HeadReader} {after : List Line}
    (h : head line after = ⟨.single line.bareTag .nodes, [], after⟩) (afterPiped : Bool) :
    readEntry head (blockUnder head) line afterPiped after =
      let r := blockUnder head line.indent after
      ⟨⟨r.faults, .nodes [line.bareTag.addChildren r.value]⟩, r.lines, false⟩ := by
  unfold readEntry
  rw [h]
  simp only [Head.single, closePending_eq]
  rfl

variable {around : Option Line}

/-- The lines of the block and above it, as a line of the block sees them: the nearest that is
indented less is the line around, and the first of the others opened the block. -/
theorem earlier_of_block {above done : List Line} (habove : above.head? = around)
    (hunder : line.isUnder (around.map Line.indent) = true)
    (hdone : ∀ d ∈ done, line.indent ≤ d.indent) :
    (done ++ above).find? (·.indent < line.indent) = around ∧
      (done ++ above).takeWhile (line.indent ≤ ·.indent) = done := by
  have hnone : done.find? (·.indent < line.indent) = none := by
    rw [List.find?_eq_none]
    intro d hd
    have := hdone d hd
    simp only [decide_eq_true_eq]
    omega
  have hall : ∀ d ∈ done, decide (line.indent ≤ d.indent) = true := by
    intro d hd
    simpa using hdone d hd
  rw [List.find?_append, hnone, Option.none_or, List.takeWhile_append_of_pos hall]
  cases above with
  | nil => exact ⟨habove, List.append_nil _⟩
  | cons first above =>
    cases habove
    have hlt : first.indent < line.indent := by simpa [Line.isUnder] using hunder
    constructor
    · exact List.find?_cons_of_pos (by simpa using hlt)
    · rw [List.takeWhile_cons_of_neg (by simpa using hlt), List.append_nil]

/-- The lines before the `i`-th, where the block of the `i`-th starts with the line `s`. -/
theorem earlier_of_index {i s : Fin lines.length} (hs : s ≤ i)
    (hblock : ∀ k, s ≤ k → k < i → lines[i].indent ≤ lines[k].indent)
    (habove : (lines.take s).reverse.head? = around)
    (hunder : lines[i].isUnder (around.map Line.indent) = true) :
    (lines.take i).reverse.find? (·.indent < lines[i].indent) = around ∧
      opening (lines.take i).reverse lines[i] = lines[s] := by
  have hsplit : (lines.take i).reverse =
      ((lines.take i).drop s).reverse ++ (lines.take s).reverse := by
    have hcut := List.take_append_drop s.val (lines.take i)
    rw [List.take_take, Nat.min_eq_left hs] at hcut
    conv_lhs => rw [← hcut, List.reverse_append]
  have hdone : ∀ d ∈ ((lines.take i).drop s).reverse, lines[i].indent ≤ d.indent := by
    intro d hd
    obtain ⟨k, hk, rfl⟩ := List.mem_iff_getElem.mp (List.mem_reverse.mp hd)
    rw [List.length_drop, List.length_take] at hk
    rw [List.getElem_drop, List.getElem_take]
    exact hblock ⟨s + k, by omega⟩ (Fin.le_def.mpr (Nat.le_add_right _ _))
      (Fin.lt_def.mpr (by show s.val + k < i.val; omega))
  obtain ⟨hfind, htake⟩ := earlier_of_block habove hunder hdone
  rw [hsplit]
  refine ⟨hfind, ?_⟩
  rw [opening, htake, List.getLast?_reverse, List.head?_drop]
  by_cases hsi : s = i
  · subst hsi
    rw [List.getElem?_take_eq_none (Nat.le_refl _), Option.getD_none]
  · have hlt : s.val < i.val := Nat.lt_of_le_of_ne hs fun h => hsi (Fin.ext h)
    rw [List.getElem?_take_of_lt hlt, List.getElem?_eq_getElem s.isLt, Option.getD_some]
    rfl

/-- What a line sees before it, and what the rule says of it. -/
theorem earlier_eq (i : Fin lines.length) :
    (lines.take i).reverse.find? (·.indent < lines[i].indent) = (parent? lines i).map (lines[·]) ∧
      opening (lines.take i).reverse lines[i] = lines[firstSibling lines i] := by
  cases hparent : parent? lines i with
  | none =>
    have hfirst := firstSibling_of_no_parent hparent
    refine earlier_of_index ?_ ?_ ?_ rfl
    · exact Fin.le_def.mpr (by omega)
    · intro k _ hk
      exact parent?_eq_none_iff.mp hparent k hk
    · rw [hfirst]
      rfl
  | some j =>
    have hfirst := firstSibling_of_parent? hparent
    obtain ⟨hlt, hless, hbetween⟩ := parent?_eq_some_iff.mp hparent
    refine earlier_of_index ?_ ?_ ?_ ?_
    · exact Fin.le_def.mpr (by rw [hfirst]; exact hlt)
    · intro k hk hki
      exact hbetween k (Fin.lt_def.mpr (by have := Fin.le_def.mp hk; omega)) hki
    · rw [hfirst, List.head?_reverse, List.getLast?_take]
      simp
    · simpa [Line.isUnder] using hless

theorem withEarlier_outlineOf (lines : List Line) :
    withEarlier outlineOf [] lines = (List.finRange lines.length).map fun (i : Fin lines.length) =>
      ((parent? lines i).map fun j => lines[j].span, lines[i].bareTag) := by
  rw [withEarlier_eq_flatMap, List.map_eq_flatMap]
  congr 1
  funext i
  rw [List.append_nil, outlineOf, (earlier_eq i).1, Option.map_map]
  rfl

theorem withEarlier_faultOf (lines : List Line) :
    withEarlier faultOf [] lines =
      ((List.finRange lines.length).filter fun (i : Fin lines.length) =>
        lines[i].indent != lines[firstSibling lines i].indent).map fun (i : Fin lines.length) =>
          ⟨.inconsistentIndentation lines[firstSibling lines i].indent lines[i].indent,
            lines[i].span⟩ := by
  rw [withEarlier_eq_flatMap]
  induction List.finRange lines.length with
  | nil => rfl
  | cons i rest ih =>
    rw [List.flatMap_cons, ih, List.append_nil, faultOf, (earlier_eq i).2, unevenIndent]
    by_cases hsame : lines[i].indent = lines[firstSibling lines i].indent
    · rw [if_pos (by simpa using hsame), List.filter_cons_of_neg (by simpa using hsame)]
      rfl
    · rw [if_neg (by simpa using hsame), List.filter_cons_of_pos (by simpa using hsame)]
      rfl

/-- A line with the lines under it, and the rest of its block. -/
theorem BlockRead.cons {above done lines after used₁ used₂ rest₁ rest : List Line}
    {nodes₁ nodes₂ : List Node} {faults₁ faults₂ : List Fault} (habove : above.head? = around)
    (hunder : line.isUnder (around.map Line.indent) = true)
    (hdone : ∀ d ∈ done, line.indent ≤ d.indent) (hlines : written lines = line :: written after)
    (h₁ : BlockRead (some line) (line :: (done ++ above)) after used₁ nodes₁ faults₁ rest₁)
    (h₂ : BlockRead around (used₁.reverse ++ line :: done ++ above) rest₁ used₂ nodes₂ faults₂ rest) :
    BlockRead around (done ++ above) lines (line :: (used₁ ++ used₂))
      (line.bareTag.addChildren nodes₁ :: nodes₂)
      (unevenIndent ((done.getLast?.map Line.indent).getD line.indent) line ++ (faults₁ ++ faults₂))
      rest := by
  obtain ⟨hfind, htake⟩ := earlier_of_block habove hunder hdone
  have hcontext : used₁.reverse ++ line :: done ++ above = used₁.reverse ++ (line :: (done ++ above)) := by
    simp
  have houtline₂ := h₂.outline_eq
  have hfaults₂ := h₂.faults_eq
  rw [hcontext] at houtline₂ hfaults₂
  refine ⟨?_, ?_, h₂.stops, ?_, ?_⟩
  · rw [hlines, h₁.lines_eq, h₂.lines_eq]
    simp
  · intro l hl
    rcases List.mem_cons.mp hl with rfl | hl
    · exact hunder
    rcases List.mem_append.mp hl with hl | hl
    · -- A line under `line` stands under whatever `line` stands under.
      have hdeep := h₁.under l hl
      cases around with
      | none => rfl
      | some outer =>
        simp only [Option.map_some, Line.isUnder, decide_eq_true_eq] at hunder hdeep ⊢
        omega
    · exact h₂.under l hl
  · rw [withEarlier, withEarlier_append, ← h₁.outline_eq, ← houtline₂, outlineOf, hfind]
    rfl
  · rw [withEarlier, withEarlier_append, ← h₁.faults_eq, ← hfaults₂, faultOf, opening, htake]
    cases done.getLast? <;> rfl

/-- A block of bare tags obeys the off-side rule. `done` are the lines of the block that have been
read, the latest first, and `above` the lines before the block. -/
theorem entriesUnder_offSide {head : HeadReader} (hh : head.Consumes) (k : Nat) :
    ∀ (lines : List Line), lines.length < k → ReadsBareTags head lines →
    ∀ (around : Option Line) (above done : List Line), above.head? = around →
    (∀ line ∈ (written lines).head?, line.isUnder (around.map Line.indent) = true →
      ∀ d ∈ done, line.indent ≤ d.indent) →
    let r := entriesUnder head (around.map Line.indent) (done.getLast?.map Line.indent) false lines
    ∃ used nodes faults, BlockRead around (done ++ above) lines used nodes faults r.2 ∧
      ∀ acc, assemble acc r.1 = (acc.reverse ++ nodes, faults) := by
  induction k with
  | zero =>
    intro lines hk
    omega
  | succ k ih =>
    intro lines hk hread around above done habove hdone
    rw [entriesUnder_eq hh]
    cases hnest : nested? (around.map Line.indent) lines with
    | none =>
      refine ⟨[], [], [], ⟨(written_skipBlank lines).symm, by simp, ?_, rfl, rfl⟩, by simp [assemble]⟩
      rw [written_skipBlank]
      exact not_isUnder_of_nested? hnest
    | some pair =>
      obtain ⟨line, after⟩ := pair
      obtain ⟨hskip, hunder⟩ := nested?_eq_some hnest
      have hwritten := (skipBlank_eq_cons hskip).2
      have hlength := nested?_length hnest
      have hline := hread line (by rw [hwritten]; exact List.mem_cons_self ..)
      have hless : ∀ d ∈ done, line.indent ≤ d.indent := hdone line (by rw [hwritten]; rfl) hunder
      have hsub : ∀ rest, rest <:+ after → ReadsBareTags head rest := by
        intro rest hrest l hl
        refine hread l ?_
        rw [hwritten]
        exact List.mem_cons_of_mem _ ((hrest.sublist.filter _).subset hl)
      -- The lines under `line`, then the lines after them.
      obtain ⟨used₁, nodes₁, faults₁, h₁, hassemble₁⟩ :=
        ih after (by omega) (hsub _ (List.suffix_refl _)) (some line) (line :: (done ++ above)) [] rfl
          (by simp)
      have hblock : blockUnder head line.indent after =
          ⟨nodes₁, faults₁, (entriesUnder head (some line.indent) none false after).2⟩ := by
        rw [blockUnder_eq, show assemble [] (entriesUnder head (some line.indent) none false after).1 =
          (nodes₁, faults₁) from hassemble₁ []]
      have hrest := (blockUnder_consumes hh) line.indent after
      rw [hblock] at hrest
      -- The next line of the block is indented no more than any before it: it ended the lines under `line`,
      -- which are all deeper, and `line` ended those under the lines of `done`.
      have hnext : ∀ l ∈ (written (entriesUnder head (some line.indent) none false after).2).head?,
          l.isUnder (around.map Line.indent) = true →
          ∀ d ∈ used₁.reverse ++ line :: done, l.indent ≤ d.indent := by
        intro l hl _ d hd
        have hstop : l.indent ≤ line.indent := by simpa [Line.isUnder] using h₁.stops l hl
        rcases List.mem_append.mp hd with hd | hd
        · have hdeep : line.indent < d.indent := by
            simpa [Line.isUnder] using h₁.under d (List.mem_reverse.mp hd)
          omega
        · rcases List.mem_cons.mp hd with rfl | hd
          · exact hstop
          · have := hless d hd
            omega
      have hwidth : some ((done.getLast?.map Line.indent).getD line.indent) =
          (used₁.reverse ++ line :: done).getLast?.map Line.indent := by
        rw [List.getLast?_append]
        cases h : done.getLast? <;> simp [List.getLast?_cons, h]
      obtain ⟨used₂, nodes₂, faults₂, h₂, hassemble₂⟩ :=
        ih _ (Nat.lt_of_le_of_lt hrest.length_le (by omega)) (hsub _ hrest) around above
          (used₁.reverse ++ line :: done) habove hnext
      simp only [readEntry_bareTag (hline after), hblock, hwidth]
      refine ⟨_, _, _, .cons habove hunder hless hwritten h₁ h₂, ?_⟩
      intro acc
      simp only [BlockEntry.addFaults, assemble, hassemble₂]
      simp

/-! ## Templates of bare tags -/

/-- A template of bare tags has one tag for each line, in the order of the lines, in the tag of the
line's parent. Its faults are the lines that are not indented as the first line with their parent. -/
theorem parse_offSide (source : String)
    (h : ∀ line ∈ written (Line.ofSource source.toList), line.IsBareTag) :
    let lines := written (Line.ofSource source.toList)
    outlines none (Document.parse source).1.nodes =
        (List.finRange lines.length).map (fun (i : Fin lines.length) =>
          ((parent? lines i).map fun j => lines[j].span, lines[i].bareTag)) ∧
      (Document.parse source).2 =
        ((List.finRange lines.length).filter fun i =>
          lines[i].indent != lines[firstSibling lines i].indent).map fun i =>
            ⟨.inconsistentIndentation lines[firstSibling lines i].indent lines[i].indent,
              lines[i].span⟩ := by
  intro lines
  have hread : ReadsBareTags (Head.read source.toList (source.toList.length + 1))
      (Line.ofSource source.toList) := by
    intro line hline rest
    obtain ⟨hmem, hblank⟩ := List.mem_filter.mp hline
    exact read_bareTag (Line.placed_of_mem_ofSource hmem).content (by simpa using hblank)
      (h line hline) _ _ rest
  obtain ⟨used, nodes, faults, hblock, hassemble⟩ :=
    entriesUnder_offSide (Head.read_consumes _ _) _ (Line.ofSource source.toList)
      (Nat.lt_succ_self _) hread none [] [] rfl (by simp)
  have hused : used = lines := by
    -- Every line stands under no parent, so none is left.
    have hrest := hblock.stops
    have hlines : lines = used ++ _ := hblock.lines_eq
    cases hw : written _ with
    | nil => rw [hlines, hw, List.append_nil]
    | cons line rest => exact absurd (hrest line (by rw [hw]; rfl)) (by simp [Line.isUnder])
  have hparse : Document.parse source = (⟨nodes, byteLength source.toList⟩, faults) := by
    rw [parse_eq]
    simp only [show assemble [] (entriesUnder (Head.read source.toList (source.toList.length + 1)) none
      none false (Line.ofSource source.toList)).1 = (nodes, faults) from hassemble []]
  rw [hparse]
  have houtline : outlines none nodes = withEarlier outlineOf [] used := hblock.outline_eq
  have hfaults : faults = withEarlier faultOf [] used := hblock.faults_eq
  rw [hused] at houtline hfaults
  exact ⟨houtline.trans (withEarlier_outlineOf lines), hfaults.trans (withEarlier_faultOf lines)⟩

/-- Lines that step back to widths between those of the lines above. -/
def stairs : String := "a\n    b\n  c\n   d\n\n e\n"

theorem parse_stairs :
    (∀ line ∈ written (Line.ofSource stairs.toList), line.IsBareTag) ∧
      (outlines none (Document.parse stairs).1.nodes).map Prod.fst =
        [none, some ⟨0, 1⟩, some ⟨0, 1⟩, some ⟨10, 11⟩, some ⟨0, 1⟩] ∧
      (Document.parse stairs).2 =
        [⟨.inconsistentIndentation 4 2, ⟨10, 11⟩⟩, ⟨.inconsistentIndentation 4 1, ⟨19, 20⟩⟩] := by
  have hbare : ∀ line ∈ written (Line.ofSource stairs.toList), line.IsBareTag := by decide
  obtain ⟨houtline, hfaults⟩ := parse_offSide stairs hbare
  rw [houtline, hfaults]
  exact ⟨hbare, by decide, by decide⟩

end PugComponents.Template
