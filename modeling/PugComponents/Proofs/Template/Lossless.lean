import PugComponents.Proofs.Template.Coverage

/- Every reader of lines accounts for the lines it uses. A block is read entry by
   entry and a `case` branch by branch, and each of them may hold blocks and
   branches again; so the two are followed together, by induction on the number
   of lines (`readers_take`). For the whole source this says that a template
   without faults loses no line (`parse_accounts_for_lines`). -/
namespace PugComponents.Template

open Text

/-- Every head without faults covers its line and the lines that it uses up. -/
def HeadCovers (source : List Char) (head : HeadReader) : Prop :=
  ∀ line lines, line.Placed source → line.front.LinesAfter lines → (head line lines).faults = [] →
    Head.Covers source line lines (head line lines)

theorem headCovers_read (source : List Char) : HeadCovers source (Head.read source (source.length + 1)) := by
  intro line lines hplaced hafter hfaults
  refine Head.read_covers hplaced hafter ?_ hfaults
  have hlength : line.front.text.length ≤ source.length := Place.In.length_le hplaced.place
  exact Nat.lt_succ_of_le hlength

/-- Fewer than `k` lines under a parent are accounted for by their entries. -/
def EntriesTake (source : List Char) (k : Nat) (head : HeadReader) : Prop :=
  ∀ parent expected afterPiped lines, lines.length < k → lines <:+ Line.ofSource source →
    (∀ entry ∈ (entriesUnder head parent expected afterPiped lines).1, entry.faults = []) →
    Takes (Accounted source
        ((entriesUnder head parent expected afterPiped lines).1.flatMap BlockEntry.parts)) parent lines
      ((entriesUnder head parent expected afterPiped lines).1.flatMap BlockEntry.parts)
      (entriesUnder head parent expected afterPiped lines).2

theorem faults_eq_nil_of_assemble {entries : List BlockEntry} {done : List Node}
    (h : (assemble done entries).2 = []) : ∀ entry ∈ entries, entry.faults = [] := by
  intro entry hentry
  have hsub := assemble_faults hentry done
  rw [h] at hsub
  exact List.subset_nil.mp hsub

/-- The nodes of a block keep what its entries account for. -/
theorem EntriesTake.blocks {source : List Char} {k : Nat} {head : HeadReader}
    (h : EntriesTake source k head) : BlocksTake source k (blockUnder head) := by
  intro indent lines hk hsource hfaults
  rw [blockUnder_eq] at hfaults ⊢
  have htakes := h (some indent) none false lines hk hsource (faults_eq_nil_of_assemble hfaults)
  have hgrows := assemble_grows hfaults
  exact htakes.mono (fun line hline => hline.grow hgrows) hgrows

section Readers

variable {source : List Char} {head : HeadReader} {k : Nat} {line : Line} {after : List Line}

theorem placed_of_suffix (h : line :: after <:+ Line.ofSource source) : line.Placed source :=
  Line.placed_of_mem_ofSource (h.subset List.mem_cons_self)

theorem linesAfter_of_suffix (h : line :: after <:+ Line.ofSource source) :
    line.front.LinesAfter after :=
  Line.ofSource_suffix h

theorem Alternate.ofTest_span (test : Option String) (nodes : List Node) (s : Span) :
    (Alternate.ofTest test nodes s).span = s := by
  cases test <;> rfl

theorem Alternate.ofTest_inner (test : Option String) (nodes : List Node) (s : Span) :
    (Alternate.ofTest test nodes s).inner = partsOf nodes := by
  cases test <;> rfl

/-! ## Entries -/

/-- An entry without faults accounts for its line and the lines under it. -/
theorem readEntry_takes (hh : HeadCovers source head) (hc : head.Consumes)
    (hblock : BlocksTake source k (blockUnder head))
    (hbranches : BranchesTake source k (branchesUnder head))
    (hline : line :: after <:+ Line.ofSource source) (hwritten : line.isBlank = false)
    (hk : after.length < k) {afterPiped : Bool} {r : EntryReading}
    (hr : readEntry head (blockUnder head) line afterPiped after = r) (hfaults : r.entry.faults = []) :
    Accounted source r.entry.parts line ∧
      Takes (Accounted source r.entry.parts) (some line.indent) after r.entry.parts r.lines := by
  have hsuffix := hc line after
  have hcovers := hh line after (placed_of_suffix hline) (linesAfter_of_suffix hline)
  have hstop := line.start_le_stop
  subst hr
  unfold readEntry at hfaults ⊢
  generalize head line after = reading at hsuffix hcovers hfaults ⊢
  obtain ⟨value, faults, rest⟩ := reading
  have hrest : rest.length < k := Nat.lt_of_le_of_lt hsuffix.length_le hk
  cases value with
  | node pending =>
    obtain ⟨hhead, hclosed⟩ := List.append_eq_nil_iff.mp hfaults
    have hpending : pending.Covers source line after rest := hcovers hhead
    have hheading : Heading source line line after pending rest :=
      ⟨hline, hwritten, Nat.le_refl _, hpending, hsuffix⟩
    obtain ⟨htakes, part, hpart, hstart, hpartStop⟩ := hheading.takes hblock hbranches hrest
      (closePending_eq pending line.indent rest).symm hclosed
    exact ⟨.spanned hpart (by omega) hpartStop, htakes⟩
  | text nodes piped =>
    obtain ⟨hhead, hreject⟩ := List.append_eq_nil_iff.mp hfaults
    obtain ⟨⟨node, hnode, hnodeStop, hnodeStart⟩, rfl⟩ := hcovers hhead
    have hpart : ∀ feed : List Node, .node node ∈ partsOf (feed ++ nodes) :=
      fun feed => mem_partsOf.mpr ⟨node, List.mem_append_right feed hnode, .inl rfl⟩
    exact ⟨.spanned (hpart _) hnodeStart hnodeStop, rejectChildren_takes hreject _⟩
  | elseBranch test s =>
    obtain ⟨hhead, hblockFaults⟩ := List.append_eq_nil_iff.mp hfaults
    obtain ⟨rfl, rfl⟩ := hcovers hhead
    have htakes := hblock line.indent _ hrest ((List.suffix_cons line _).trans hline) hblockFaults
    have hparts : partsOf (blockUnder head line.indent rest).value ⊆
        .alternate (Alternate.ofTest test (blockUnder head line.indent rest).value line.span) ::
          (Alternate.ofTest test (blockUnder head line.indent rest).value line.span).inner := by
      rw [Alternate.ofTest_inner]
      exact List.subset_cons_self _ _
    refine ⟨.spanned List.mem_cons_self ?_ ?_,
      htakes.mono (fun other hother => hother.grow (.of_subset hparts)) (.of_subset hparts)⟩
    · rw [Part.span, Alternate.ofTest_span]
      exact hstop
    · rw [Part.span, Alternate.ofTest_span]
      exact hstop
  -- Out of a `case` a `when` is a fault, and a head that is skipped has one already.
  | whenBranch keyword s => simp at hfaults
  | skip => exact (hcovers hfaults).elim

/-- A block takes its first entry and then the others. -/
theorem entries_take_step (hh : HeadCovers source head) (hc : head.Consumes)
    (hbranches : BranchesTake source k (branchesUnder head)) (hentries : EntriesTake source k head) :
    EntriesTake source (k + 1) head := by
  intro parent expected afterPiped lines hk hsource hfaults
  rw [entriesUnder_eq hc] at hfaults ⊢
  cases hnest : nested? parent lines with
  | none => exact Takes.none hnest _
  | some pair =>
    obtain ⟨line, after⟩ := pair
    rw [hnest] at hfaults
    simp only at hfaults ⊢
    have hline := (nested?_suffix hnest).trans hsource
    have hafter := nested?_length hnest
    have hwritten := (skipBlank_eq_cons (nested?_eq_some hnest).1).1
    have hlines := readEntry_suffix hc (blockUnder_consumes hc) line afterPiped after
    generalize hr : readEntry head (blockUnder head) line afterPiped after = r at hfaults hlines ⊢
    have hentry : r.entry.faults = [] :=
      (List.append_eq_nil_iff.mp (hfaults _ List.mem_cons_self)).2
    obtain ⟨hself, hbody⟩ := readEntry_takes hh hc hentries.blocks hbranches hline hwritten (by omega)
      hr hentry
    have hlength := hlines.length_le
    have hmore := hentries parent (some (expected.getD line.indent)) r.piped r.lines (by omega)
      (hlines.trans ((List.suffix_cons line after).trans hline))
      fun entry hentry => hfaults entry (List.mem_cons_of_mem _ hentry)
    rw [List.flatMap_cons]
    refine Takes.cons hnest (hself.grow ?_) (hbody.mono (fun other h => h.grow ?_) (.of_subset fun _ h => h))
      (hmore.mono (fun other h => h.grow ?_) (.of_subset fun _ h => h))
    · exact .of_subset (List.subset_append_left _ _)
    · exact .of_subset (List.subset_append_left _ _)
    · exact .of_subset (List.subset_append_right _ _)

/-! ## Branches -/

theorem Branch.ofBlock_span (test : Option String) (s : Span) (nodes : Option (List Node)) :
    (Branch.ofBlock test s nodes).span = s := by
  cases nodes <;> rfl

theorem Branch.ofBlock_inner (test : Option String) (s : Span) (nodes : Option (List Node)) :
    (Branch.ofBlock test s nodes).inner = partsOf (nodes.getD []) := by
  cases nodes <;> rfl

/-- The block of a branch accounts for the lines under the branch. -/
theorem branchBlock_takes (hh : HeadCovers source head) (hc : head.Consumes)
    (hblock : BlocksTake source k (blockUnder head))
    (hbranches : BranchesTake source k (branchesUnder head))
    (hline : line :: after <:+ Line.ofSource source) (hwritten : line.isBlank = false)
    (hk : after.length < k) {rest : List Char} (hrest : rest <:+ line.text)
    {r : Reading (Option (List Node))}
    (hr : branchBlock (closeUnder head) head (blockUnder head) line rest after = r)
    (hfaults : r.faults = []) :
    Takes (Accounted source (partsOf (r.value.getD []))) (some line.indent) after
      (partsOf (r.value.getD [])) r.lines := by
  by_cases hinline : inlineBranch rest = []
  · rw [branchBlock_under hinline] at hr
    split at hr
    · rename_i hnest
      subst hr
      exact Takes.none hnest _
    · subst hr
      exact hblock line.indent after hk ((List.suffix_cons line after).trans hline) hfaults
  · rw [branchBlock_inline hinline] at hr
    have hplaced := placed_of_suffix hline
    have hend := (inlineBranch_suffix rest).trans hrest
    have hfront : line.text.take (line.text.length - (inlineBranch rest).length) <+: line.front.line := by
      rw [Place.line, ← hplaced.content]
      exact List.take_prefix _ _
    have hafter := (Place.Reaches.skip hfront after).follow (linesAfter_of_suffix hline)
    -- The node after the colon is read as a line that starts behind the branch's keyword.
    have hsub : line.start ≤ (line.fromEnd (inlineBranch rest)).start := Nat.le_add_right _ _
    have hcovers := hh _ after (hplaced.fromEnd hend) hafter
    have hsuffix := hc (line.fromEnd (inlineBranch rest)) after
    generalize line.fromEnd (inlineBranch rest) = sub at hr hsub hcovers hsuffix
    generalize head sub after = reading at hr hcovers hsuffix
    obtain ⟨value, faults, lines⟩ := reading
    have hlines : lines.length < k := Nat.lt_of_le_of_lt hsuffix.length_le hk
    subst hr
    cases value with
    | node pending =>
      obtain ⟨hhead, hclosed⟩ := List.append_eq_nil_iff.mp hfaults
      have hpending : pending.Covers source sub after lines := hcovers hhead
      have hheading : Heading source line sub after pending lines :=
        ⟨hline, hwritten, hsub, hpending, hsuffix⟩
      exact (hheading.takes hblock hbranches hlines rfl hclosed).1
    | text nodes piped =>
      obtain ⟨hhead, hreject⟩ := List.append_eq_nil_iff.mp hfaults
      obtain ⟨-, rfl⟩ := hcovers hhead
      exact rejectChildren_takes hreject _
    | elseBranch | whenBranch | skip => simp [inlineBlock] at hfaults

variable {parent : Nat} {lines : List Line}

/-- A comment among the later branches stands among all of them. -/
theorem CommentAmong.lift {Ok : Line → Prop} {mid : List Line} {a b : List Part} {comment : Line}
    (h : CommentAmong parent mid b comment)
    (hnest : nested? (some parent) lines = some (line, after))
    (hbody : Takes Ok (some line.indent) after a mid) :
    CommentAmong parent lines (a ++ b) comment := by
  have hskip := (nested?_eq_some hnest).1
  have hwritten := (skipBlank_eq_cons hskip).2
  obtain ⟨hmid, hcomment⟩ := mem_written.mp h.mem
  -- The next line after the first branch is indented no more than that branch.
  have hindent : comment.indent ≤ line.indent := by
    cases hnext : (written mid).head? with
    | none =>
      have hmem := h.mem
      rw [List.head?_eq_none_iff.mp hnext] at hmem
      cases hmem
    | some next =>
      have hstop := hbody.stops next hnext
      have hfirst := h.first next hnext
      simp only [Line.isUnder, decide_eq_false_iff_not] at hstop
      omega
  refine ⟨?_, h.isComment, h.deeper, ?_, ?_⟩
  · rw [hwritten]
    exact List.mem_cons_of_mem line (mem_written.mpr ⟨hbody.suffix.subset hmid, hcomment⟩)
  · rw [hwritten]
    rintro first ⟨⟩
    exact hindent
  · rw [hwritten]
    intro other hother hbefore
    rcases List.mem_cons.mp hother with rfl | hother
    · exact .inl hindent
    · rcases hbody.used other hother with hleft | ⟨-, hdeep | hcontinues⟩
      · have hdirect := h.direct other (mem_written.mpr ⟨hleft, (mem_written.mp hother).2⟩) hbefore
        exact hdirect.imp_right fun h => h.grow (.of_subset (List.subset_append_right a b))
      · simp only [Line.isUnder, decide_eq_true_eq] at hdeep
        exact .inl (by omega)
      · exact .inr (hcontinues.grow (.of_subset (List.subset_append_left a b)))

theorem AccountedAmong.lift {Ok : Line → Prop} {mid : List Line} {a b : List Part} {other : Line}
    (h : AccountedAmong source parent mid b other)
    (hnest : nested? (some parent) lines = some (line, after))
    (hbody : Takes Ok (some line.indent) after a mid) :
    AccountedAmong source parent lines (a ++ b) other := by
  rcases h with h | ⟨comment, hcomment, hother⟩
  · exact .inl (h.grow (.of_subset (List.subset_append_right a b)))
  · exact .inr ⟨comment, hcomment.lift hnest hbody, hother⟩

/-- A comment that is the first of the lines stands among them. -/
theorem commentAmong_first (hnest : nested? (some parent) lines = some (line, after))
    (hsource : lines <:+ Line.ofSource source) (hcomment : line.isComment = true)
    (parts : List Part) : CommentAmong parent lines parts line := by
  obtain ⟨hskip, hunder⟩ := nested?_eq_some hnest
  have hwritten := (skipBlank_eq_cons hskip).2
  refine ⟨?_, hcomment, of_decide_eq_true hunder, ?_, ?_⟩
  · rw [hwritten]
    exact List.mem_cons_self
  · rw [hwritten]
    rintro first ⟨⟩
    exact Nat.le_refl _
  · rw [hwritten]
    intro other hother hbefore
    rcases List.mem_cons.mp hother with rfl | hother
    · omega
    · have hlt := start_lt_of_mem_after ((nested?_suffix hnest).trans hsource) (mem_written.mp hother).1
      omega

theorem isComment_of_branchHead (h : branchHead line.text = .ignored) : line.isComment = true := by
  unfold branchHead at h
  unfold Line.isComment
  split at h
  · simp only at h
    split at h <;> cases h
  · cases h
  · rename_i hlead
    rw [hlead]
  · rename_i hlead
    rw [hlead]
  · cases h

/-- The lines under a comment are nested in it. -/
theorem skipChildren_takes (hline : line :: after <:+ Line.ofSource source) (parts : List Part) :
    Takes (fun other => other.NestedIn source line) (some line.indent) after parts
      (skipChildren line.indent after) := by
  have hsplit : after.takeWhile (Line.isChild line.indent) ++ skipChildren line.indent after = after :=
    List.takeWhile_append_dropWhile
  have hbody : ∀ other ∈ after.takeWhile (Line.isChild line.indent), other.isChild line.indent = true :=
    fun other hother => List.all_eq_true.mp List.all_takeWhile other hother
  refine Takes.children hsplit.symm hbody ?_ (skipChildren_stops _ _) parts
  intro other hother hwritten
  have hmem : other ∈ after := (List.takeWhile_prefix _).subset hother
  refine ⟨start_lt_of_mem_after hline hmem, ?_⟩
  intro between hbetween hafter hle
  obtain ⟨hsource, hbetweenWritten⟩ := mem_written.mp hbetween
  have hleft := mem_after hline hsource hafter
  have hsuffix : after <:+ Line.ofSource source := (List.suffix_cons line after).trans hline
  rw [← hsplit] at hleft hsuffix
  exact deeper_of_children hsuffix hbody hother hleft hbetweenWritten hle

/-- The branches of a `case` take the first line and then the others. -/
theorem branches_take_step (hh : HeadCovers source head) (hc : head.Consumes)
    (hblock : BlocksTake source k (blockUnder head))
    (hbranches : BranchesTake source k (branchesUnder head)) :
    BranchesTake source (k + 1) (branchesUnder head) := by
  intro parent lines hk hsource hfaults
  rw [branchesUnder_eq hc] at hfaults ⊢
  cases hnest : nested? (some parent) lines with
  | none => exact Takes.none hnest _
  | some pair =>
    obtain ⟨line, after⟩ := pair
    rw [hnest] at hfaults
    simp only at hfaults ⊢
    have hline := (nested?_suffix hnest).trans hsource
    have hafter := nested?_length hnest
    have hwritten := (skipBlank_eq_cons (nested?_eq_some hnest).1).1
    cases hhead : branchHead line.text with
    | fault cause =>
      rw [hhead] at hfaults
      cases hfaults
    | ignored =>
      rw [hhead] at hfaults
      simp only at hfaults ⊢
      have hlines := skipChildren_suffix line.indent after
      have hlength := hlines.length_le
      have hbody := skipChildren_takes hline []
      have hmore := hbranches parent _ (by omega)
        (hlines.trans ((List.suffix_cons line after).trans hline)) hfaults
      have hcomment := commentAmong_first hnest hsource (isComment_of_branchHead hhead)
        (branchParts (branchesUnder head parent (skipChildren line.indent after)).value)
      exact Takes.cons hnest (.inr ⟨line, hcomment, .inl rfl⟩)
        (hbody.mono (fun other h => .inr ⟨line, hcomment, .inr h⟩) (.of_subset fun _ h => h))
        (hmore.mono (fun other h => h.lift hnest hbody) (.of_subset fun _ h => h))
    | branch test rest =>
      rw [hhead] at hfaults
      simp only at hfaults ⊢
      have hlines := branchBlock_suffix (closeUnder_suffix hc) hc (blockUnder_consumes hc) line rest after
      generalize hr : branchBlock (closeUnder head) head (blockUnder head) line rest after = r
        at hfaults hlines ⊢
      obtain ⟨hblockFaults, hmoreFaults⟩ := List.append_eq_nil_iff.mp hfaults
      have hlength := hlines.length_le
      have hinner := branchBlock_takes hh hc hblock hbranches hline hwritten (by omega)
        (branchHead_suffix hhead) hr hblockFaults
      have hmore := hbranches parent r.lines (by omega)
        (hlines.trans ((List.suffix_cons line after).trans hline)) hmoreFaults
      let branch := Branch.ofBlock test line.span r.value
      have hspan : branch.span = line.span := Branch.ofBlock_span _ _ _
      have hbranch : partsOf (r.value.getD []) ⊆ .branch branch :: branch.inner := by
        rw [Branch.ofBlock_inner]
        exact List.subset_cons_self _ _
      have hbody := hinner.mono (fun other h => h.grow (.of_subset hbranch)) (.of_subset hbranch)
      refine Takes.cons hnest (.inl (.spanned List.mem_cons_self ?_ ?_))
        (hbody.mono (fun other h => .inl (h.grow (.of_subset (List.subset_append_left _ _))))
          (.of_subset fun _ h => h))
        (hmore.mono (fun other h => h.lift hnest hbody) (.of_subset fun _ h => h))
      · rw [Part.span, hspan]
        exact line.start_le_stop
      · rw [Part.span, hspan]
        exact line.start_le_stop

/-- The readers of blocks and of branches account for the lines they use. -/
theorem readers_take (hh : HeadCovers source head) (hc : head.Consumes) (k : Nat) :
    EntriesTake source k head ∧ BranchesTake source k (branchesUnder head) := by
  induction k with
  | zero =>
    refine ⟨?_, ?_⟩
    · intro parent expected afterPiped lines hk
      omega
    · intro parent lines hk
      omega
  | succ k ih =>
    exact ⟨entries_take_step hh hc ih.2 ih.1, branches_take_step hh hc ih.1.blocks ih.2⟩

end Readers

/-- At the top level no line is left. -/
theorem not_mem_of_stops {rest : List Line} {line : Line}
    (h : ∀ line ∈ (written rest).head?, line.isUnder none = false) (hline : line.isBlank = false) :
    line ∉ rest := by
  intro hmem
  cases hrest : written rest with
  | nil =>
    have hwritten := mem_written.mpr ⟨hmem, hline⟩
    rw [hrest] at hwritten
    cases hwritten
  | cons first others =>
    have hfirst := h first (by rw [hrest]; rfl)
    cases hfirst

/-- In a template without faults every line that is not blank is accounted for in the tree. -/
theorem parse_accounts_for_lines (source : String) (h : (Document.parse source).2 = []) :
    ∀ line ∈ writtenLines source.toList,
      Accounted source.toList (partsOf (Document.parse source).1.nodes) line := by
  intro line hline
  rw [parse_eq] at h ⊢
  simp only at h ⊢
  obtain ⟨hentries, -⟩ := readers_take (headCovers_read source.toList)
    (Head.read_consumes source.toList (source.toList.length + 1))
    ((Line.ofSource source.toList).length + 1)
  have htakes := hentries none none false _ (Nat.lt_succ_self _) (List.suffix_refl _)
    (faults_eq_nil_of_assemble h)
  rcases htakes.used line hline with hrest | ⟨haccounted, -⟩
  · exact absurd hrest (not_mem_of_stops htakes.stops (mem_written.mp hline).2)
  · -- An `else` goes into the conditional before it, which the parts of the entries do not show yet.
    have hgrows := assemble_grows h
    rw [partsOf, List.nil_append] at hgrows
    exact haccounted.grow hgrows

/-- A text block under a head of two lines, and a comment with a line under it among branches. -/
theorem parse_accounts_for_block_and_comment :
    (Document.parse "p(a=1\nb=2).\n    x\n    y\ncase z\n  when 1: q\n  //c\n    d").2 = [] ∧
      ∀ line ∈ writtenLines "p(a=1\nb=2).\n    x\n    y\ncase z\n  when 1: q\n  //c\n    d".toList,
        Accounted "p(a=1\nb=2).\n    x\n    y\ncase z\n  when 1: q\n  //c\n    d".toList
          (partsOf (Document.parse
            "p(a=1\nb=2).\n    x\n    y\ncase z\n  when 1: q\n  //c\n    d").1.nodes) line :=
  ⟨by decide +kernel, parse_accounts_for_lines _ (by decide +kernel)⟩

end PugComponents.Template
