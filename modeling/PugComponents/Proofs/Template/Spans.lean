import PugComponents.Proofs.Template.HeadSpans

/- Where the tree of a source stands in it. A node is closed with the lines under
   it, which come behind its own; so a block is a run of items, and so are the
   branches of a `case`. The two are followed together, by induction on the number
   of lines (`readers_run`). For the whole source this gives the spans of all items
   outside text blocks, and their order (`parse_spans_sound`). -/
namespace PugComponents.Template

open Text

section

variable {source : List Char} {line first : Line} {lines after rest : List Line}

/-! ## The lines behind a node -/

/-- The lines that are left behind a node are those that start behind its span. -/
theorem linesBehind_eq (hfirst : first :: after <:+ Line.ofSource source) (hrest : rest <:+ after)
    {offset : Nat} (hstart : first.start ≤ offset)
    (hused : ∀ other ∈ after, other ∈ rest ∨ other.start ≤ offset)
    (hleft : ∀ other ∈ rest, offset < other.start) : linesBehind source offset = rest := by
  obtain ⟨before, hbefore⟩ := hrest.trans ((List.suffix_cons first after).trans hfirst)
  have hpassed : ∀ other ∈ before, decide (other.start ≤ offset) = true := by
    intro other hother
    refine decide_eq_true ?_
    rcases Nat.lt_or_ge offset other.start with hlt | hle
    · have hmem : other ∈ Line.ofSource source := hbefore ▸ List.mem_append_left rest hother
      rcases hused other (mem_after hfirst hmem (by omega)) with hagain | hle
      · -- No line stands twice in a source.
        have hself := start_lt_of_append (show before ++ rest <:+ _ from ⟨[], hbefore⟩) hother hagain
        omega
      · exact hle
    · exact hle
  rw [linesBehind, ← hbefore, List.dropWhile_append_of_pos hpassed]
  cases rest with
  | nil => rfl
  | cons next rest =>
    refine List.dropWhile_cons_of_neg ?_
    have hnext := hleft next List.mem_cons_self
    simpa using hnext

theorem rejectChildren_faults (hlines : lines <:+ Line.ofSource source) (indent : Nat) (kind : String) :
    ∀ f ∈ (rejectChildren indent kind lines).faults, f.span.Sound source := by
  unfold rejectChildren
  split
  · exact fun _ h => (nomatch h)
  · rename_i child _ hnest
    intro f hf
    rw [List.mem_singleton.mp hf]
    exact (placed_of_suffix ((nested?_suffix hnest).trans hlines)).sound

/-! ## Closing a node -/

/-- Fewer than `k` lines are read as a run of nodes. -/
def BlocksRun (source : List Char) (k : Nat) (block : BlockReader) : Prop :=
  ∀ indent lines, lines.length < k → lines <:+ Line.ofSource source →
    Run source lines (block indent lines).lines (itemsOf source (block indent lines).value)
      (block indent lines).faults

/-- Fewer than `k` lines are read as a run of branches. -/
def BranchesRun (source : List Char) (k : Nat) (branches : Nat → List Line → Reading (List Branch)) :
    Prop :=
  ∀ indent lines, lines.length < k → lines <:+ Line.ofSource source →
    Run source lines (branches indent lines).lines (branchItems source (branches indent lines).value)
      (branches indent lines).faults

/-- A node that is read on the line `sub`, which is the line `first` or what stands behind a colon
of it. -/
structure Opened (source : List Char) (first sub : Line) (after : List Line) (pending : Pending)
    (faults : List Fault) (rest : List Line) : Prop where
  suffix : first :: after <:+ Line.ofSource source
  heads : HeadsAt source first sub.start
  located : pending.Located source sub after faults rest
  left : rest <:+ after

namespace Opened

variable {sub : Line} {pending : Pending} {faults : List Fault} {k : Nat}

theorem rest_suffix (h : Opened source first sub after pending faults rest) :
    rest <:+ Line.ofSource source :=
  h.left.trans ((List.suffix_cons first after).trans h.suffix)

variable {left : List Line}

/-- What is put into the node comes behind the items on its line. -/
theorem append (h : Opened source first sub after pending faults rest) {node : Node}
    {more : List Item} (hitems : itemsOf source [node] = itemsOf source [pending.node] ++ more)
    {inner : List Fault} (hrun : Run source rest left more inner) (hleft : left <:+ rest) :
    Run source (sub :: after) left (itemsOf source [nestIn pending.hosts node]) (faults ++ inner) := by
  have hmid : rest <:+ sub :: after := h.left.trans (List.suffix_cons sub after)
  rw [items_nestIn h.located.hosts, itemsOf_append, hitems, ← List.append_assoc, ← itemsOf_append]
  exact h.located.run.append hrun hmid hleft

/-- The text under a tag is read from the lines behind it. -/
theorem textUnder (h : Opened source first sub after pending faults rest)
    (hstop : pending.node.span.stop = (headAt source pending.node.span).place.lineStop) {raw : String}
    {start : Nat} (hraw : (takeRaw first.indent rest).value = some (raw, start)) :
    TextUnder source pending.node.span raw start := by
  have hsub := h.heads.start_le
  have hnode := h.located.start
  have hordered := h.located.ordered
  have hheads := h.located.heads first h.heads
  refine ⟨first, ⟨h.suffix.subset List.mem_cons_self, hheads, hstop⟩, ?_⟩
  rw [linesBehind_eq h.suffix h.left (by omega) h.located.used h.located.left]
  exact hraw

/-- The text of a text block belongs to the item of its tag. -/
theorem textBlock (h : Opened source first sub after pending faults rest)
    (hbody : pending.body = .textBlock) {raw : String} {start : Nat}
    (hraw : (takeRaw first.indent rest).value = some (raw, start)) (hleft : left <:+ rest) :
    Run source (sub :: after) left
      (itemsOf source [nestIn pending.hosts
        (pending.node.addChildren (interpolated raw.toList start).1)])
      (faults ++ (interpolated raw.toList start).2) := by
  have hunder := fun hstop => h.textUnder hstop hraw
  have hrun := h.located.run.widen (fun other hother => ⟨other, hother, Nat.le_refl _⟩) hleft
  have hhosts := h.located.hosts
  have hfits := h.located.fits
  obtain ⟨hosts, node, body⟩ := pending
  rw [show body = .textBlock from hbody] at hfits
  cases hfits with
  | @textBlock name attributes spreads selfClosing s hopens hstop =>
    have hown : ∀ children, itemsOf source [.tag name attributes spreads children selfClosing s] =
        [⟨s, attributes, spreads, none, children⟩] := by
      intro children
      simp [itemsOf_singleton, Node.own, Node.itemsBelow, hopens]
    rw [itemsOf_append, hown] at hrun
    rw [items_nestIn hhosts, itemsOf_append, Node.addChildren, List.nil_append, hown]
    have hsound := hrun.located _ (List.mem_append_right _ List.mem_cons_self)
    have hlocated : (⟨s, attributes, spreads, none, (interpolated raw.toList start).1⟩ : Item).Located
        source := ⟨hsound.sound, hsound.script, .inr ⟨raw, start, hunder hstop, rfl⟩⟩
    refine (hrun.withText hlocated).withFaults (List.subset_append_left _ _) ?_
    intro f hf
    rcases List.mem_append.mp hf with hold | hnew
    · exact .inl hold
    · have hread : s.IsRead (itemsOf source hosts ++ [⟨s, attributes, spreads, none,
          (interpolated raw.toList start).1⟩]) (faults ++ (interpolated raw.toList start).2) :=
        .inl ⟨_, List.mem_append_right _ (List.mem_singleton_self _), rfl⟩
      exact .inr (.inr ⟨s, raw, start, hread, hopens, hunder hstop, hnew⟩)

/-- Nothing is put into the node. -/
theorem kept (h : Opened source first sub after pending faults rest) {inner : List Fault}
    (hinner : ∀ f ∈ inner, f.span.Sound source) (hleft : left <:+ rest) :
    Run source (sub :: after) left (itemsOf source [nestIn pending.hosts pending.node])
      (faults ++ inner) := by
  exact h.append (List.append_nil _).symm (.ofFaults hinner) hleft

/-- A node with the lines under it is a run of items. -/
theorem close (h : Opened source first sub after pending faults rest) {block : BlockReader}
    {branches : Nat → List Line → Reading (List Branch)} (hb : block.Consumes)
    (hr : ∀ indent lines, (branches indent lines).lines <:+ lines)
    (hblock : BlocksRun source k block) (hbranches : BranchesRun source k branches)
    (hk : rest.length < k) {r : Reading Node}
    (hclose : closeWith branches block pending first.indent rest = r) :
    Run source (sub :: after) r.lines (itemsOf source [r.value]) (faults ++ r.faults) := by
  have hsource := h.rest_suffix
  have hfits := h.located.fits
  subst hclose
  cases hbody : pending.body with
  | branches =>
    rw [closeWith_branches hbody]
    refine h.append ?_ (hbranches _ _ hk hsource) (hr _ _)
    rw [hbody] at hfits
    generalize pending.node = node at hfits
    cases hfits with
    | branches subject old s => exact items_addBranches subject old s _
  | nodes =>
    rw [closeWith_body (by simp [hbody]), hbody]
    rw [hbody] at hfits
    exact h.append (items_addChildren hfits.isOpen _) (hblock _ _ hk hsource) (hb _ _)
  | leaf =>
    rw [closeWith_body (by simp [hbody]), hbody]
    exact h.kept (rejectChildren_faults hsource _ _) (rejectChildren_suffix _ _ _)
  | raw =>
    rw [closeWith_body (by simp [hbody]), hbody]
    rw [hbody] at hfits
    have hleft := takeRaw_suffix first.indent rest
    simp only [closeBody]
    split
    · exact h.kept (List.forall_mem_nil _) hleft
    · rename_i raw start _
      refine h.append ?_ .nil hleft
      rw [items_addRaw hfits.isUnrendered raw, List.append_nil]
  | textBlock =>
    rw [closeWith_body (by simp [hbody]), hbody]
    have hleft := takeRaw_suffix first.indent rest
    simp only [closeBody]
    split
    · exact h.kept (List.forall_mem_nil _) hleft
    · rename_i raw start hraw
      exact h.textBlock hbody hraw hleft

end Opened

/-! ## Entries -/

/-- What every head of a line says is located. -/
def HeadLocated (source : List Char) (head : HeadReader) : Prop :=
  ∀ line lines, line.Placed source → line.front.LinesAfter lines →
    Head.Located source line lines (head line lines)

/-- A further branch of a conditional has a sound span and comes first among its items. -/
def BlockEntry.BranchFirst (source : List Char) (entry : BlockEntry) : Prop :=
  ∀ alternate s, entry.sibling = .alternate alternate s →
    s.Sound source ∧ ∃ below, alternateItems source [alternate] = .plain s :: below

/-- An entry of a block is a run of items. -/
structure BlockEntry.Located (source : List Char) (lines rest : List Line) (entry : BlockEntry) :
    Prop where
  run : Run source lines rest (entry.sibling.items source) entry.faults
  branch : entry.BranchFirst source

/-- Fewer than `k` lines are read as a run of entries. -/
def EntriesRun (source : List Char) (k : Nat) (head : HeadReader) : Prop :=
  ∀ parent expected afterPiped lines, lines.length < k → lines <:+ Line.ofSource source →
    Run source lines (entriesUnder head parent expected afterPiped lines).2
        ((entriesUnder head parent expected afterPiped lines).1.flatMap (·.sibling.items source))
        ((entriesUnder head parent expected afterPiped lines).1.flatMap BlockEntry.faults) ∧
      ∀ entry ∈ (entriesUnder head parent expected afterPiped lines).1, entry.BranchFirst source

variable {head : HeadReader} {k : Nat}

/-- The nodes of a block are a run, as its entries are. -/
theorem Run.assemble {entries : List BlockEntry}
    (h : Run source lines rest (entries.flatMap (·.sibling.items source))
      (entries.flatMap BlockEntry.faults))
    (hbranch : ∀ entry ∈ entries, entry.BranchFirst source) :
    Run source lines rest (itemsOf source (Template.assemble [] entries).1)
      (Template.assemble [] entries).2 := by
  refine h.sublist (items_assemble [] _) ?_ ?_ ?_
  · intro item hitem
    rcases mem_items_assemble [] entries hitem with
      hkept | ⟨entry, hentry, alternate, s, hsibling, hbelow, f, hf, rfl, horphan⟩
    · exact .inl ⟨item, hkept, rfl⟩
    · -- The branch comes first among the items that are dropped with it.
      refine .inr ⟨f, hf, horphan, ?_⟩
      have hordered := (List.pairwise_flatMap.mp h.ordered).1 entry hentry
      obtain ⟨-, below, hplain⟩ := hbranch entry hentry alternate f.span hsibling
      rw [hsibling, Sibling.items, hplain, List.pairwise_cons] at hordered
      rw [hplain] at hbelow
      rcases List.mem_cons.mp hbelow with rfl | hbelow
      · exact Nat.le_refl _
      · exact hordered.1 item hbelow
  · intro f hf
    obtain ⟨entry, hentry, hf⟩ := List.mem_flatMap.mp hf
    exact assemble_faults hentry [] hf
  · intro f hf
    obtain ⟨entry, hentry, hf | ⟨alternate, hsibling⟩⟩ := mem_assemble_faults hf
    · exact .inl (List.mem_flatMap.mpr ⟨entry, hentry, hf⟩)
    · exact .inr (hbranch entry hentry alternate f.span hsibling).1

theorem EntriesRun.blocks (h : EntriesRun source k head) : BlocksRun source k (blockUnder head) := by
  intro indent lines hk hsource
  rw [blockUnder_eq]
  obtain ⟨hrun, hbranch⟩ := h (some indent) none false lines hk hsource
  exact hrun.assemble hbranch

/-- Two piped lines in a row are joined by a text at the start of the second. -/
theorem PiecesIn.run_feed {nodes : List Node} {faults : List Fault}
    (h : PiecesIn source line.start line.stop nodes faults) (hplaced : line.Placed source)
    (hafter : line.front.LinesAfter lines) (joined : Bool) :
    Run source (line :: lines) lines
      (itemsOf source ((if joined then [.text "\n" (Span.empty line.start)] else []) ++ nodes))
      faults := by
  have hrun : Run source (line :: lines) lines (itemsOf source nodes) faults :=
    h.run (Nat.le_refl _) (hplaced.stop_lt hafter)
  cases joined with
  | false => exact hrun
  | true =>
    exact hrun.consPlain (Span.sound_empty hplaced.within.offset) rfl (hplaced.start_lt hafter)
      (List.suffix_refl _)

theorem readEntry_located (hh : HeadLocated source head) (hc : head.Consumes)
    (hblock : BlocksRun source k (blockUnder head)) (hbranches : BranchesRun source k (branchesUnder head))
    (hline : line :: after <:+ Line.ofSource source) (hk : after.length < k) {afterPiped : Bool}
    {r : EntryReading} (hr : readEntry head (blockUnder head) line afterPiped after = r) :
    r.entry.Located source (line :: after) r.lines := by
  have hplaced := placed_of_suffix hline
  have hafter := linesAfter_of_suffix hline
  have hsuffix := hc line after
  have hlocated := hh line after hplaced hafter
  subst hr
  unfold readEntry
  generalize head line after = reading at hsuffix hlocated ⊢
  obtain ⟨value, faults, rest⟩ := reading
  have hrest : rest.length < k := Nat.lt_of_le_of_lt hsuffix.length_le hk
  have hsource : rest <:+ Line.ofSource source :=
    hsuffix.trans ((List.suffix_cons line after).trans hline)
  cases value with
  | node pending =>
    have hopened : Opened source line line after pending faults rest :=
      ⟨hline, .first, hlocated, hsuffix⟩
    refine ⟨?_, fun _ _ h => (nomatch h)⟩
    exact hopened.close (blockUnder_consumes hc) (branchesUnder_suffix hc) hblock hbranches hrest
      (closePending_eq pending line.indent rest).symm
  | text nodes piped =>
    obtain ⟨rfl, hpieces⟩ := hlocated
    refine ⟨?_, fun _ _ h => (nomatch h)⟩
    have hrun := (hpieces.run_feed hplaced hafter (piped && afterPiped)).append
      (.ofFaults (rejectChildren_faults hsource line.indent "Text")) (List.suffix_cons line _)
      (rejectChildren_suffix line.indent "Text" _)
    rwa [List.append_nil] at hrun
  | elseBranch test s =>
    obtain ⟨rfl, rfl, hfaults⟩ := hlocated
    refine ⟨?_, ?_⟩
    · show Run source _ _ (alternateItems source [Alternate.ofTest test _ line.span]) _
      rw [itemsOf_ofTest, ← List.singleton_append]
      have hown : Run source (line :: rest) rest [.plain line.span] faults :=
        (Run.ofFaults hfaults).consPlain hplaced.sound rfl (hplaced.start_lt hafter)
          (List.suffix_refl _)
      exact hown.append (hblock line.indent rest hrest hsource) (List.suffix_cons line rest)
        (blockUnder_consumes hc _ _)
    · rintro _ _ ⟨⟩
      exact ⟨hplaced.sound, _, itemsOf_ofTest test _ line.span⟩
  | whenBranch keyword s =>
    obtain ⟨rfl, rfl, hfaults⟩ := hlocated
    refine ⟨.ofFaults (List.forall_mem_append.mpr ⟨hfaults, ?_⟩), fun _ _ h => (nomatch h)⟩
    simpa using hplaced.sound
  | skip => exact ⟨.ofFaults hlocated.2, fun _ _ h => (nomatch h)⟩

theorem entries_run_step (hh : HeadLocated source head) (hc : head.Consumes)
    (hbranches : BranchesRun source k (branchesUnder head)) (hentries : EntriesRun source k head) :
    EntriesRun source (k + 1) head := by
  intro parent expected afterPiped lines hk hsource
  rw [entriesUnder_eq hc]
  cases hnest : nested? parent lines with
  | none => exact ⟨.nil, fun _ h => (nomatch h)⟩
  | some pair =>
    obtain ⟨line, after⟩ := pair
    simp only
    have hnested := nested?_suffix hnest
    have hline := hnested.trans hsource
    have hlength := nested?_length hnest
    have hlines := readEntry_suffix hc (blockUnder_consumes hc) line afterPiped after
    generalize hr : readEntry head (blockUnder head) line afterPiped after = r at hlines ⊢
    have hentry := readEntry_located hh hc hentries.blocks hbranches hline (by omega) hr
    have hshorter := hlines.length_le
    have hmore := hentries parent (some (expected.getD line.indent)) r.piped r.lines (by omega)
      (hlines.trans ((List.suffix_cons line after).trans hline))
    have hleft : (entriesUnder head parent (some (expected.getD line.indent)) r.piped r.lines).2 <:+
        r.lines := readEntries_suffix hc _ _ _ _ _
    -- A line that is indented unevenly is one more fault, at the line.
    have huneven : ∀ f ∈ unevenIndent (expected.getD line.indent) line, f.span.Sound source := by
      unfold unevenIndent
      split
      · exact fun _ h => (nomatch h)
      · simpa using (placed_of_suffix hline).sound
    have hfirst : Run source lines r.lines (r.entry.sibling.items source)
        (unevenIndent (expected.getD line.indent) line ++ r.entry.faults) := by
      refine (hentry.run.widen ?_ (List.suffix_refl _)).withFaults (List.subset_append_right _ _) ?_
      · exact fun other hother => ⟨other, hnested.subset hother, Nat.le_refl _⟩
      · intro f hf
        rcases List.mem_append.mp hf with hf | hf
        · exact .inr (.inl (huneven f hf))
        · exact .inl hf
    refine ⟨?_, List.forall_mem_cons.mpr ⟨hentry.branch, hmore.2⟩⟩
    rw [List.flatMap_cons, List.flatMap_cons]
    exact hfirst.append hmore.1 (hlines.trans ((List.suffix_cons line after).trans hnested)) hleft

/-! ## Branches -/

/-- The block of a branch stands on its line and the lines under it. -/
theorem branchBlock_run (hh : HeadLocated source head) (hc : head.Consumes)
    (hblock : BlocksRun source k (blockUnder head)) (hbranches : BranchesRun source k (branchesUnder head))
    (hline : line :: after <:+ Line.ofSource source) (hk : after.length < k) {test : Option String}
    {text : List Char} (hhead : branchHead line.text = .branch test text) {r : Reading (Option (List Node))}
    (hr : branchBlock (closeUnder head) head (blockUnder head) line text after = r) :
    Run source (line :: after) r.lines (itemsOf source (r.value.getD [])) r.faults := by
  have hsource := (List.suffix_cons line after).trans hline
  have hwiden : ∀ other ∈ after, ∃ other' ∈ line :: after, other'.start ≤ other.start :=
    fun other hother => ⟨other, List.mem_cons_of_mem line hother, Nat.le_refl _⟩
  by_cases hinline : inlineBranch text = []
  · rw [branchBlock_under hinline] at hr
    split at hr
    · subst hr
      exact .nil
    · subst hr
      exact (hblock line.indent after hk hsource).widen hwiden (List.suffix_refl _)
  · rw [branchBlock_inline hinline] at hr
    have hplaced := placed_of_suffix hline
    have hend := (inlineBranch_suffix text).trans (branchHead_suffix hhead)
    have hfront : line.text.take (line.text.length - (inlineBranch text).length) <+: line.front.line := by
      rw [Place.line, ← hplaced.content]
      exact List.take_prefix _ _
    have hsubAfter := (Place.Reaches.skip hfront after).follow (linesAfter_of_suffix hline)
    -- The node after the colon is read as a line that starts behind the branch's keyword.
    have hheads : HeadsAt source line (line.fromEnd (inlineBranch text)).start := .branch hhead hinline
    have hstart := hheads.start_le
    have hsub := hplaced.fromEnd hend
    have hlocated := hh _ after hsub hsubAfter
    have hsuffix := hc (line.fromEnd (inlineBranch text)) after
    have hlt := hsub.stop_lt hsubAfter
    generalize line.fromEnd (inlineBranch text) = sub at hr hstart hheads hsub hlocated hsuffix hlt
    generalize head sub after = reading at hr hlocated hsuffix
    obtain ⟨value, faults, rest⟩ := reading
    have hrest : rest.length < k := Nat.lt_of_le_of_lt hsuffix.length_le hk
    have hnone : ∀ {rest : List Line}, (∀ f ∈ faults, f.span.Sound source) →
        Run source (line :: after) rest [] (faults ++ [⟨.syntaxProblem .noExpansion, sub.span⟩]) := by
      intro rest hfaults
      refine .ofFaults (List.forall_mem_append.mpr ⟨hfaults, ?_⟩)
      simpa using hsub.sound
    subst hr
    cases value with
    | node pending =>
      have hopened : Opened source line sub after pending faults rest :=
        ⟨hline, hheads, hlocated, hsuffix⟩
      refine (hopened.close (blockUnder_consumes hc) (branchesUnder_suffix hc) hblock hbranches hrest
        rfl).widen ?_ (List.suffix_refl _)
      exact List.forall_mem_cons.mpr ⟨⟨line, List.mem_cons_self, hstart⟩, hwiden⟩
    | text nodes piped =>
      obtain ⟨rfl, hpieces⟩ := hlocated
      have hrun := (hpieces.run hstart hlt).append
        (.ofFaults (rejectChildren_faults hsource line.indent "Text")) (List.suffix_cons line _)
        (rejectChildren_suffix line.indent "Text" _)
      rwa [List.append_nil] at hrun
    | elseBranch test s | whenBranch keyword s => exact hnone hlocated.2.2
    | skip => exact hnone hlocated.2

theorem branches_run_step (hh : HeadLocated source head) (hc : head.Consumes)
    (hblock : BlocksRun source k (blockUnder head)) (hbranches : BranchesRun source k (branchesUnder head)) :
    BranchesRun source (k + 1) (branchesUnder head) := by
  intro parent lines hk hsource
  rw [branchesUnder_eq hc]
  cases hnest : nested? (some parent) lines with
  | none => exact .nil
  | some pair =>
    obtain ⟨line, after⟩ := pair
    simp only
    have hnested := nested?_suffix hnest
    have hline := hnested.trans hsource
    have hlength := nested?_length hnest
    have hplaced := placed_of_suffix hline
    have hskip := skipChildren_suffix line.indent after
    have hafter : after <:+ lines := (List.suffix_cons line after).trans hnested
    have hshorter := hskip.length_le
    have hwiden : ∀ {rest : List Line}, rest <:+ lines → ∀ other ∈ rest,
        ∃ other' ∈ lines, other'.start ≤ other.start :=
      fun hrest other hother => ⟨other, hrest.subset hother, Nat.le_refl _⟩
    cases hhead : branchHead line.text with
    | ignored =>
      have hmore := hbranches parent (skipChildren line.indent after) (by omega)
        (hskip.trans (hafter.trans hsource))
      exact hmore.widen (hwiden (hskip.trans hafter)) (List.suffix_refl _)
    | fault cause =>
      have hmore := hbranches parent (skipChildren line.indent after) (by omega)
        (hskip.trans (hafter.trans hsource))
      refine (hmore.widen (hwiden (hskip.trans hafter)) (List.suffix_refl _)).withFaults
        (List.subset_cons_self _ _) ?_
      intro f hf
      rcases List.mem_cons.mp hf with rfl | hf
      · exact .inr (.inl hplaced.sound)
      · exact .inl hf
    | branch test text =>
      simp only
      have hlines := branchBlock_suffix (closeUnder_suffix hc) hc (blockUnder_consumes hc) line text after
      generalize hr : branchBlock (closeUnder head) head (blockUnder head) line text after = r
        at hlines ⊢
      have hless := hlines.length_le
      have hinner := branchBlock_run hh hc hblock hbranches hline (by omega) hhead hr
      have hmore := hbranches parent r.lines (by omega) (hlines.trans (hafter.trans hsource))
      have hfirst := hinner.consPlain hplaced.sound rfl
        (hplaced.start_lt (linesAfter_of_suffix hline)) hlines
      rw [branchItems_ofBlock, ← List.cons_append]
      exact (hfirst.widen (hwiden hnested) (List.suffix_refl _)).append hmore (hlines.trans hafter)
        (branchesUnder_suffix hc _ _)

/-- The readers of blocks and of branches find runs of items. -/
theorem readers_run (hh : HeadLocated source head) (hc : head.Consumes) (k : Nat) :
    EntriesRun source k head ∧ BranchesRun source k (branchesUnder head) := by
  induction k with
  | zero =>
    refine ⟨?_, ?_⟩
    · intro parent expected afterPiped lines hk
      omega
    · intro parent lines hk
      omega
  | succ k ih => exact ⟨entries_run_step hh hc ih.2 ih.1, branches_run_step hh hc ih.1.blocks ih.2⟩

end

/-! ## The whole source -/

/-- The tree of a source is a run of items through all its lines. -/
theorem parse_run (source : String) :
    ∃ rest, Run source.toList (Line.ofSource source.toList) rest
      (itemsOf source.toList (Document.parse source).1.nodes) (Document.parse source).2 := by
  have hhead : HeadLocated source.toList (Head.read source.toList (source.toList.length + 1)) :=
    fun line lines hplaced hafter => Head.read_located _ hplaced hafter
  obtain ⟨hentries, -⟩ := readers_run hhead (Head.read_consumes source.toList _)
    ((Line.ofSource source.toList).length + 1)
  obtain ⟨hrun, hbranch⟩ := hentries none none false _ (Nat.lt_succ_self _) (List.suffix_refl _)
  rw [parse_eq]
  exact ⟨_, hrun.assemble hbranch⟩

/-- Outside the text under a tag that ends in a dot, every node, branch, attribute, spread and fault
has a sound span: the attributes of a tag or a mixin call lie in its span one behind the other, and
along the tree the spans start in the order of the source. The reading of an attribute list must not
go on inside a character. -/
theorem parse_spans_sound (source : String)
    (haligned : ∀ f ∈ (Document.parse source).2, f.Aligned source.toList) :
    (∀ item ∈ itemsOf source.toList (Document.parse source).1.nodes,
      item.span.Sound source.toList ∧ item.Chained source.toList) ∧
    (itemsOf source.toList (Document.parse source).1.nodes).Pairwise
      (fun a b => a.span.start ≤ b.span.start) ∧
    ∀ f ∈ (Document.parse source).2,
      f.span.Sound source.toList ∨ f.FromTextBlock source.toList
        (itemsOf source.toList (Document.parse source).1.nodes) (Document.parse source).2 := by
  obtain ⟨rest, hrun⟩ := parse_run source
  obtain ⟨hchained, hfaults⟩ := hrun.calm haligned
  exact ⟨fun item hitem => ⟨(hrun.located item hitem).sound, hchained item hitem⟩, hrun.ordered, hfaults⟩

/-- An attribute list with an empty name, and a text block with an interpolation that is not closed. -/
def emptyNamed : String := "p(''a b)\n  q.\n    #\x7bx\n  r(d) é#\x7be\x7d"

/-- After an empty name the list is read on at a boundary, and a text block has a fault of its own. -/
theorem emptyName_spans_sound :
    (Document.parse emptyNamed).2 =
      [⟨.unexpectedToken .attributeName "'", ⟨4, 5⟩⟩, ⟨.unclosedDelimiter '\x7b', ⟨18, 21⟩⟩] ∧
    (∀ f ∈ (Document.parse emptyNamed).2, f.Aligned emptyNamed.toList) ∧
    (∀ item ∈ itemsOf emptyNamed.toList (Document.parse emptyNamed).1.nodes,
      item.span.Sound emptyNamed.toList ∧ item.Chained emptyNamed.toList) ∧
    (itemsOf emptyNamed.toList (Document.parse emptyNamed).1.nodes).Pairwise
      (fun a b => a.span.start ≤ b.span.start) ∧
    ∀ f ∈ (Document.parse emptyNamed).2,
      f.span.Sound emptyNamed.toList ∨ f.FromTextBlock emptyNamed.toList
        (itemsOf emptyNamed.toList (Document.parse emptyNamed).1.nodes)
        (Document.parse emptyNamed).2 := by
  have hfaults : (Document.parse emptyNamed).2 =
      [⟨.unexpectedToken .attributeName "'", ⟨4, 5⟩⟩, ⟨.unclosedDelimiter '\x7b', ⟨18, 21⟩⟩] := by
    decide +kernel
  have haligned : ∀ f ∈ (Document.parse emptyNamed).2, f.Aligned emptyNamed.toList := by
    rw [hfaults]
    intro f hf found hcause
    rcases List.mem_cons.mp hf with rfl | hf
    · exact ⟨"p(''a".toList, " b)\n  q.\n    #\x7bx\n  r(d) é#\x7be\x7d".toList, by decide, by decide⟩
    · obtain rfl := List.mem_singleton.mp hf
      cases hcause
  exact ⟨hfaults, haligned, parse_spans_sound _ haligned⟩

end PugComponents.Template
