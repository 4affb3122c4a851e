import PugComponents.Proofs.Template.RespacedHeads

/- Blocks in a respaced source. All lines are indented further by the same width,
   so a line stands under the same lines as before. The blocks of a source and of
   the respaced source are read in step (`readers_respaced`): the trees are seen
   alike, and so are the faults, but for what is copied over line ends, the
   columns of includes and the widths of indentation (`parse_respaced`). -/
namespace PugComponents.Template

open Text

variable {r : Respacing} {source : List Char}

/-! ## Lines of both sources -/

/-- The last lines of the source, and the same lines of the respaced source. -/
structure Beside (r : Respacing) (source : List Char) (lines lines' : List Line) : Prop where
  alike : List.Forall₂ (Line.Respaced r) lines lines'
  within : lines <:+ Line.ofSource source
  within' : lines' <:+ Line.ofSource (r.whole source)

namespace Line.Respaced

variable {line line' : Line}

theorem isBlank (h : line.Respaced r line') : line'.isBlank = line.isBlank := by
  rw [Line.isBlank, h.text, Line.isBlank]

theorem isUnder (h : line.Respaced r line') (parent : Option Nat) :
    line'.isUnder (parent.map (· + r.width)) = line.isUnder parent := by
  cases parent with
  | none => rfl
  | some indent => simp [Line.isUnder, h.indent]

theorem isChild (h : line.Respaced r line') (indent : Nat) :
    line'.isChild (indent + r.width) = line.isChild indent := by
  simp [Line.isChild, h.isBlank, h.indent]

theorem rawLine (h : line.Respaced r line') (common : Nat) :
    rawLine (common + r.width) line' = rawLine common line := by
  rw [Template.rawLine, h.isBlank, h.indent, h.text, Nat.add_sub_add_right, Template.rawLine]

end Line.Respaced

section

variable {p q : Line → Bool} (hpq : ∀ {line line' : Line}, line.Respaced r line' → q line' = p line)
  {lines lines' : List Line}

include hpq

theorem dropWhile_respaced (h : List.Forall₂ (Line.Respaced r) lines lines') :
    List.Forall₂ (Line.Respaced r) (lines.dropWhile p) (lines'.dropWhile q) := by
  induction h with
  | nil => exact .nil
  | cons hline hrest ih =>
    rw [List.dropWhile_cons, List.dropWhile_cons, hpq hline]
    split
    · exact ih
    · exact .cons hline hrest

theorem takeWhile_respaced (h : List.Forall₂ (Line.Respaced r) lines lines') :
    List.Forall₂ (Line.Respaced r) (lines.takeWhile p) (lines'.takeWhile q) := by
  induction h with
  | nil => exact .nil
  | cons hline hrest ih =>
    rw [List.takeWhile_cons, List.takeWhile_cons, hpq hline]
    split
    · exact .cons hline ih
    · exact .nil

end

/-- What says the same of a line in both sources says the same of all lines. -/
theorem map_respaced {α : Type} {f g : Line → α}
    (hfg : ∀ {line line' : Line}, line.Respaced r line' → g line' = f line) {lines lines' : List Line}
    (h : List.Forall₂ (Line.Respaced r) lines lines') : lines'.map g = lines.map f := by
  induction h with
  | nil => rfl
  | cons hline _ ih => rw [List.map_cons, List.map_cons, hfg hline, ih]

namespace Beside

variable {lines lines' : List Line}

theorem suffix (h : Beside r source lines lines') {rest rest' : List Line}
    (halike : List.Forall₂ (Line.Respaced r) rest rest') (hrest : rest <:+ lines)
    (hrest' : rest' <:+ lines') : Beside r source rest rest' :=
  ⟨halike, hrest.trans h.within, hrest'.trans h.within'⟩

theorem skipBlank (h : Beside r source lines lines') :
    Beside r source (skipBlank lines) (skipBlank lines') :=
  h.suffix (dropWhile_respaced Line.Respaced.isBlank h.alike) (skipBlank_suffix _) (skipBlank_suffix _)

theorem skipChildren (h : Beside r source lines lines') (indent : Nat) :
    Beside r source (skipChildren indent lines) (skipChildren (indent + r.width) lines') := by
  rw [skipChildren_eq, skipChildren_eq]
  exact h.suffix (dropWhile_respaced (fun hline => hline.isChild indent) h.alike)
    (List.dropWhile_suffix _) (List.dropWhile_suffix _)

/-- The next line of both sources, and the lines after it. -/
theorem abreast {line line' : Line} (h : Beside r source (line :: lines) (line' :: lines')) :
    Abreast r source line line' lines lines' where
  alike := (List.forall₂_cons.mp h.alike).1
  placed := Line.placed_of_mem_ofSource (h.within.subset List.mem_cons_self)
  placed' := Line.placed_of_mem_ofSource (h.within'.subset List.mem_cons_self)
  follow := Line.ofSource_suffix h.within
  follow' := Line.ofSource_suffix h.within'

theorem tail {line line' : Line} (h : Beside r source (line :: lines) (line' :: lines')) :
    Beside r source lines lines' :=
  h.suffix (List.forall₂_cons.mp h.alike).2 (List.suffix_cons _ _) (List.suffix_cons _ _)

/-- The same line is next under a parent. -/
theorem nested? (h : Beside r source lines lines') (parent : Option Nat) :
    (nested? parent lines = none ∧ nested? (parent.map (· + r.width)) lines' = none) ∨
      ∃ line after line' after', nested? parent lines = some (line, after) ∧
        nested? (parent.map (· + r.width)) lines' = some (line', after') ∧
        Beside r source (line :: after) (line' :: after') := by
  have hskip := h.skipBlank
  unfold Template.nested?
  generalize Template.skipBlank lines = rest at hskip ⊢
  generalize Template.skipBlank lines' = rest' at hskip ⊢
  cases hskip.alike with
  | nil => exact .inl ⟨rfl, rfl⟩
  | @cons line line' after after' hline hafter =>
    simp only [hline.isUnder]
    split
    · exact .inr ⟨line, after, line', after', rfl, rfl, hskip⟩
    · exact .inl ⟨rfl, rfl⟩

/-- The same line is next under a line. -/
theorem child? (h : Beside r source lines lines') (indent : Nat) :
    (Template.nested? (some indent) lines = none ∧
        Template.nested? (some (indent + r.width)) lines' = none) ∨
      ∃ line after line' after', Template.nested? (some indent) lines = some (line, after) ∧
        Template.nested? (some (indent + r.width)) lines' = some (line', after') ∧
        Beside r source (line :: after) (line' :: after') :=
  h.nested? (some indent)

end Beside

/-! ## What two readers give -/

/-- What is read from both sources is seen alike, with the faults, and the same lines are left. -/
structure ReadAlike {α : Type} (r : Respacing) (source : List Char) (see : View → α → α)
    (found found' : Reading α) : Prop where
  value : see .plain found'.value = see (.respaced r source) found.value
  faults : Alike (.respaced r source) Fault.seen found.faults found'.faults
  left : Beside r source found.lines found'.lines

theorem rejectChildren_respaced {lines lines' : List Line} (h : Beside r source lines lines')
    (indent : Nat) (kind : String) :
    ReadAlike r source (fun _ => id) (rejectChildren indent kind lines)
      (rejectChildren (indent + r.width) kind lines') := by
  unfold rejectChildren
  rcases h.child? indent with ⟨hnone, hnone'⟩ | ⟨line, after, line', after', hsome, hsome', -⟩
  · rw [hnone, hnone']
    exact ⟨rfl, .nil _, h.skipBlank⟩
  · rw [hsome, hsome']
    exact ⟨rfl, rfl, h.skipChildren indent⟩

/-! ## Raw text -/

variable {lines lines' : List Line}

theorem min?_map_add (width : Nat) (indents : List Nat) :
    (indents.map (· + width)).min? = indents.min?.map (· + width) := by
  have hfold : ∀ least : Nat, (indents.map (· + width)).foldl min (least + width) =
      indents.foldl min least + width := by
    induction indents with
    | nil => exact fun _ => rfl
    | cons indent indents ih =>
      intro least
      rw [List.map_cons, List.foldl_cons, List.foldl_cons, Nat.add_min_add_right, ih]
  cases indents with
  | nil => rfl
  | cons indent indents =>
    have hleast := hfold indent
    rw [List.map_cons, List.foldl_cons, List.foldl_cons, Nat.min_self, Nat.min_self] at hleast
    exact congrArg some hleast

theorem commonIndent?_respaced (h : List.Forall₂ (Line.Respaced r) lines lines') :
    commonIndent? lines' = (commonIndent? lines).map (· + r.width) := by
  have hwritten : List.Forall₂ (Line.Respaced r) (written lines) (written lines') := by
    refine List.rel_filter ?_ h
    intro line line' hline
    simp [hline.isBlank]
  have hindents : (written lines').map Line.indent =
      ((written lines).map Line.indent).map (· + r.width) := by
    rw [List.map_map]
    exact map_respaced Line.Respaced.indent hwritten
  show ((written lines').map Line.indent).min? = _
  rw [hindents, min?_map_add]
  rfl

theorem rawLines_respaced (h : List.Forall₂ (Line.Respaced r) lines lines') (indent : Nat) :
    List.Forall₂ (Line.Respaced r) (rawLines indent lines) (rawLines (indent + r.width) lines') := by
  rw [rawLines_eq, rawLines_eq]
  have htaken := takeWhile_respaced (fun hline => hline.isChild indent) h
  exact List.rel_reverse (dropWhile_respaced Line.Respaced.isBlank (List.rel_reverse htaken))

/-- The same raw text stands under a line, or none. -/
theorem takeRaw_respaced (h : List.Forall₂ (Line.Respaced r) lines lines') (indent : Nat) :
    ((takeRaw indent lines).value = none ∧ (takeRaw (indent + r.width) lines').value = none) ∨
      ∃ raw start start', (takeRaw indent lines).value = some (raw, start) ∧
        (takeRaw (indent + r.width) lines').value = some (raw, start') := by
  have hraw := rawLines_respaced h indent
  have hcommon := commonIndent?_respaced hraw
  unfold takeRaw
  simp only [hcommon]
  generalize rawLines indent lines = body at hraw ⊢
  generalize rawLines (indent + r.width) lines' = body' at hraw ⊢
  cases hindent : commonIndent? body with
  | none => exact .inl ⟨rfl, rfl⟩
  | some common =>
    cases hraw with
    | nil => exact .inl ⟨rfl, rfl⟩
    | cons hline hrest =>
      simp only [Option.map_some]
      rw [map_respaced (fun hline => hline.rawLine common) (.cons hline hrest)]
      exact .inr ⟨_, _, _, rfl, rfl⟩

/-- Raw text takes the same lines. -/
theorem Beside.takeRaw (h : Beside r source lines lines') (indent : Nat) :
    Beside r source (takeRaw indent lines).lines (takeRaw (indent + r.width) lines').lines := by
  have hlength : (rawLines (indent + r.width) lines').length = (rawLines indent lines).length :=
    (rawLines_respaced h.alike indent).length_eq.symm
  refine h.suffix ?_ (takeRaw_suffix _ _) (takeRaw_suffix _ _)
  show List.Forall₂ _ (lines.drop _) (lines'.drop _)
  rw [hlength]
  exact List.forall₂_drop _ h.alike

/-! ## Blocks and branches -/

/-- The heads of lines are read alike. -/
def HeadsAlike (r : Respacing) (source : List Char) (head head' : HeadReader) : Prop :=
  ∀ line line' lines lines', Abreast r source line line' lines lines' →
    HeadAlike r source (head line lines) (head' line' lines')

/-- Fewer than `k` lines are read alike, under a width and under the width in the respaced source. -/
def ReadersAlike {α : Type} (r : Respacing) (source : List Char) (k : Nat) (see : View → α → α)
    (read read' : Nat → List Line → Reading α) : Prop :=
  ∀ indent lines lines', lines.length < k → Beside r source lines lines' →
    ReadAlike r source see (read indent lines) (read' (indent + r.width) lines')

/-- Nodes that are seen alike are finished alike. -/
def ClosesAlike (r : Respacing) (source : List Char) (k : Nat)
    (close close' : Pending → Nat → List Line → Reading Node) : Prop :=
  ∀ pending pending' indent lines lines', pending'.seen .plain = pending.seen (.respaced r source) →
    lines.length < k → Beside r source lines lines' →
    ReadAlike r source Node.seen (close pending indent lines)
      (close' pending' (indent + r.width) lines')

abbrev BlocksAlike (r : Respacing) (source : List Char) (k : Nat) (block block' : BlockReader) : Prop :=
  ReadersAlike r source k (fun v => List.map (Node.seen v)) block block'

abbrev BranchesAlike (r : Respacing) (source : List Char) (k : Nat)
    (read read' : Nat → List Line → Reading (List Branch)) : Prop :=
  ReadersAlike r source k (fun v => List.map (Branch.seen v)) read read'

variable {head head' : HeadReader} {block block' : BlockReader} {k : Nat}
  {branches branches' : Nat → List Line → Reading (List Branch)}
  {close close' : Pending → Nat → List Line → Reading Node}

theorem HeadsAlike.left (hh : HeadsAlike r source head head') (hsub : head.Consumes)
    (hsub' : head'.Consumes) {line line' : Line} (hline : Abreast r source line line' lines lines')
    (h : Beside r source lines lines') : Beside r source (head line lines).lines (head' line' lines').lines :=
  h.suffix (hh _ _ _ _ hline).left (hsub line lines) (hsub' line' lines')

theorem addChildren_alike {node node' : Node} (hnode : node'.seen .plain = node.seen (.respaced r source))
    {nodes nodes' : List Node} (hnodes : Alike (.respaced r source) Node.seen nodes nodes') :
    (node'.addChildren nodes').seen .plain = (node.addChildren nodes).seen (.respaced r source) := by
  rw [← Node.addChildren_seen, ← Node.addChildren_seen, hnode, hnodes]

theorem closeBody_respaced (hb : BlocksAlike r source k block block') {node node' : Node}
    (hnode : node'.seen .plain = node.seen (.respaced r source)) (body : Body) (indent : Nat)
    (hk : lines.length < k) (h : Beside r source lines lines') :
    ReadAlike r source Node.seen (closeBody block node body indent lines)
      (closeBody block' node' body (indent + r.width) lines') := by
  have hkind : node'.kind = node.kind := by
    rw [← Node.kind_seen .plain, hnode, Node.kind_seen]
  have hreject := rejectChildren_respaced h indent node.kind
  have hleft := h.takeRaw indent
  cases body with
  | nodes =>
    have hblock := hb indent lines lines' hk h
    exact ⟨addChildren_alike hnode hblock.value, hblock.faults, hblock.left⟩
  | textBlock =>
    unfold closeBody
    simp only
    rcases takeRaw_respaced h.alike indent with ⟨hnone, hnone'⟩ | ⟨raw, start, start', hsome, hsome'⟩
    · rw [hnone, hnone']
      exact ⟨hnode, .nil _, hleft⟩
    · have htext := interpolated_alike (.respaced r source) raw.toList start start'
      rw [hsome, hsome']
      exact ⟨addChildren_alike hnode htext.values, htext.faults, hleft⟩
  | raw =>
    unfold closeBody
    simp only
    rcases takeRaw_respaced h.alike indent with ⟨hnone, hnone'⟩ | ⟨raw, start, start', hsome, hsome'⟩
    · rw [hnone, hnone']
      exact ⟨hnode, .nil _, hleft⟩
    · rw [hsome, hsome']
      refine ⟨?_, .nil _, hleft⟩
      show (node'.addRaw raw).seen .plain = (node.addRaw raw).seen (.respaced r source)
      rw [← Node.addRaw_seen, ← Node.addRaw_seen, hnode]
  | branches | leaf =>
    unfold closeBody
    rw [hkind]
    exact ⟨hnode, hreject.faults, hreject.left⟩

theorem closeWith_respaced (hr : BranchesAlike r source k branches branches')
    (hb : BlocksAlike r source k block block') :
    ClosesAlike r source k (closeWith branches block) (closeWith branches' block') := by
  intro pending pending' indent lines lines' hpending hk h
  obtain ⟨hhosts, hnode, hbody⟩ := Pending.mk.inj hpending
  have hnest : ∀ {node node' : Node}, node'.seen .plain = node.seen (.respaced r source) →
      (nestIn pending'.hosts node').seen .plain = (nestIn pending.hosts node).seen (.respaced r source) := by
    intro node node' hseen
    rw [← nestIn_seen, ← nestIn_seen, hhosts, hseen]
  by_cases hcase : pending.body = .branches
  · rw [closeWith_branches hcase, closeWith_branches (hbody.trans hcase)]
    have hfound := hr indent lines lines' hk h
    refine ⟨hnest ?_, hfound.faults, hfound.left⟩
    rw [← Node.addBranches_seen, ← Node.addBranches_seen, hnode, hfound.value]
  · rw [closeWith_body hcase, closeWith_body (fun heq => hcase (hbody.symm.trans heq)), hbody]
    have hfound := closeBody_respaced hb hnode pending.body indent hk h
    exact ⟨hnest hfound.value, hfound.faults, hfound.left⟩

/-- What stands at the end of a line, in both sources. -/
theorem Abreast.fromEnd {line line' : Line} (h : Abreast r source line line' lines lines')
    {inline : List Char} (hinline : inline <:+ line.text) :
    Abreast r source (line.fromEnd inline) (line'.fromEnd inline) lines lines' := by
  have hfront := h.placed.take_isPrefix (line.text.length - inline.length)
  have hfront' := h.placed'.take_isPrefix (line'.text.length - inline.length)
  have hinline' : inline <:+ line'.text := h.alike.text.symm ▸ hinline
  refine ⟨⟨h.alike.indent, rfl, ?_⟩, h.placed.fromEnd hinline, h.placed'.fromEnd hinline', ?_, ?_⟩
  · have hskip : (line'.fromEnd inline).front =
        line'.front.skip (line.text.take (line.text.length - inline.length)) := by
      rw [← h.alike.text]
      rfl
    rw [hskip]
    exact h.alike.place.passLine hfront
  · exact (Place.Reaches.skip hfront lines).follow h.follow
  · exact (Place.Reaches.skip hfront' lines').follow h.follow'

theorem inlineBlock_respaced (hc : ClosesAlike r source k close close') (indent : Nat) (sub sub' : Line)
    {found found' : Reading Head} (hfound : HeadAlike r source found found') (hk : found.lines.length < k)
    (h : Beside r source found.lines found'.lines) :
    ReadAlike r source (fun v => Option.map (List.map (Node.seen v))) (inlineBlock close indent sub found)
      (inlineBlock close' (indent + r.width) sub' found') := by
  obtain ⟨value, faults, rest⟩ := found
  obtain ⟨value', faults', rest'⟩ := found'
  obtain ⟨hvalue, hfaults, -⟩ := hfound
  simp only at hvalue hfaults h hk
  cases hvalue with
  | @node pending pending' hpending =>
    have hclosed := hc pending pending' indent rest rest' hpending hk h
    exact ⟨congrArg (some [·]) hclosed.value, hfaults.append hclosed.faults, hclosed.left⟩
  | text hnodes piped =>
    have hreject := rejectChildren_respaced h indent "Text"
    exact ⟨congrArg some hnodes, hfaults.append hreject.faults, hreject.left⟩
  | elseBranch | whenBranch | skip => exact ⟨rfl, hfaults.append rfl, h.skipChildren indent⟩

theorem branchBlock_respaced (hc : ClosesAlike r source k close close')
    (hh : HeadsAlike r source head head') (hsub : head.Consumes) (hsub' : head'.Consumes)
    (hb : BlocksAlike r source k block block') {line line' : Line}
    (hline : Abreast r source line line' lines lines') {rest : List Char} (hrest : rest <:+ line.text)
    (hk : lines.length < k) (h : Beside r source lines lines') :
    ReadAlike r source (fun v => Option.map (List.map (Node.seen v)))
      (branchBlock close head block line rest lines)
      (branchBlock close' head' block' line' rest lines') := by
  by_cases hinline : inlineBranch rest = []
  · rw [branchBlock_under hinline, branchBlock_under hinline, hline.alike.indent]
    rcases h.child? line.indent with ⟨hnone, hnone'⟩ | ⟨_, _, _, _, hsome, hsome', -⟩
    · rw [hnone, hnone']
      exact ⟨rfl, .nil _, h.skipBlank⟩
    · have hblock := hb line.indent lines lines' hk h
      rw [hsome, hsome']
      exact ⟨congrArg some hblock.value, hblock.faults, hblock.left⟩
  · rw [branchBlock_inline hinline, branchBlock_inline hinline, hline.alike.indent]
    have hinner := hline.fromEnd ((inlineBranch_suffix rest).trans hrest)
    exact inlineBlock_respaced hc line.indent _ _ (hh _ _ _ _ hinner)
      (Nat.lt_of_le_of_lt (hsub _ lines).length_le hk) (hh.left hsub hsub' hinner h)

/-- An entry of a block, in both sources. -/
structure EntryAlike (r : Respacing) (source : List Char) (found found' : EntryReading) : Prop where
  entry : found'.entry.seen .plain = found.entry.seen (.respaced r source)
  left : Beside r source found.lines found'.lines
  piped : found'.piped = found.piped

theorem readEntry_respaced (hh : HeadsAlike r source head head') (hsub : head.Consumes)
    (hsub' : head'.Consumes) (hc : ClosesAlike r source k (closeUnder head) (closeUnder head'))
    (hb : BlocksAlike r source k (blockUnder head) (blockUnder head')) {line line' : Line}
    (hline : Abreast r source line line' lines lines') (afterPiped : Bool) (hk : lines.length < k)
    (h : Beside r source lines lines') :
    EntryAlike r source (readEntry head (blockUnder head) line afterPiped lines)
      (readEntry head' (blockUnder head') line' afterPiped lines') := by
  have hfound := hh _ _ _ _ hline
  have hrest := hh.left hsub hsub' hline h
  have hless := Nat.lt_of_le_of_lt (hsub line lines).length_le hk
  unfold readEntry
  simp only [closePending_eq, hline.alike.indent]
  generalize head line lines = found at hfound hrest hless ⊢
  generalize head' line' lines' = found' at hfound hrest ⊢
  obtain ⟨value, faults, rest⟩ := found
  obtain ⟨value', faults', rest'⟩ := found'
  obtain ⟨hvalue, hfaults, -⟩ := hfound
  simp only at hvalue hfaults hrest hless
  cases hvalue with
  | @node pending pending' hpending =>
    have hclosed := hc pending pending' line.indent rest rest' hpending hless hrest
    refine ⟨?_, hclosed.left, rfl⟩
    simp only [BlockEntry.seen, Sibling.seen, List.map_singleton, hclosed.value]
    rw [hfaults.append hclosed.faults]
  | @text nodes nodes' hnodes piped =>
    have hreject := rejectChildren_respaced hrest line.indent "Text"
    refine ⟨?_, hreject.left, rfl⟩
    -- Two pipes in a row are joined by a line feed that stands at the second one.
    have hfeed : Alike (.respaced r source) Node.seen
        (if (piped && afterPiped) = true then [.text "\n" (.empty line.start)] else [])
        (if (piped && afterPiped) = true then [.text "\n" (.empty line'.start)] else []) := by
      split <;> rfl
    simp only [BlockEntry.seen, Sibling.seen]
    rw [hfaults.append hreject.faults, hfeed.append hnodes]
  | elseBranch test s s' =>
    have hblock := hb line.indent rest rest' hless hrest
    refine ⟨?_, hblock.left, rfl⟩
    simp only [BlockEntry.seen, Sibling.seen, Alternate.ofTest_seen, hblock.value]
    rw [hfaults.append hblock.faults]
  | whenBranch keyword s s' =>
    refine ⟨?_, hrest.skipChildren line.indent, rfl⟩
    have horphan : Alike (.respaced r source) Fault.seen [⟨.orphanWhen keyword, s⟩]
        [⟨.orphanWhen keyword, s'⟩] := rfl
    simp only [BlockEntry.seen]
    rw [hfaults.append horphan]
    rfl
  | skip =>
    refine ⟨?_, hrest.skipChildren line.indent, rfl⟩
    simp only [BlockEntry.seen]
    rw [hfaults]
    rfl

/-- Fewer than `k` lines give entries that are seen alike. -/
def EntriesAlike (r : Respacing) (source : List Char) (k : Nat) (head head' : HeadReader) : Prop :=
  ∀ parent expected afterPiped lines lines', lines.length < k → Beside r source lines lines' →
    Alike (.respaced r source) BlockEntry.seen (entriesUnder head parent expected afterPiped lines).1
        (entriesUnder head' (parent.map (· + r.width)) (expected.map (· + r.width)) afterPiped lines').1 ∧
      Beside r source (entriesUnder head parent expected afterPiped lines).2
        (entriesUnder head' (parent.map (· + r.width)) (expected.map (· + r.width)) afterPiped lines').2

theorem EntriesAlike.blocks (h : EntriesAlike r source k head head') :
    BlocksAlike r source k (blockUnder head) (blockUnder head') := by
  intro indent lines lines' hk hlines
  obtain ⟨hentries, hleft⟩ := h (some indent) none false lines lines' hk hlines
  have hblock := assemble_alike (.respaced r source) hentries
  exact ⟨hblock.values, hblock.faults, hleft⟩

theorem unevenIndent_alike {line line' : Line} (h : line.Respaced r line') (width : Nat) :
    Alike (.respaced r source) Fault.seen (unevenIndent width line) (unevenIndent (width + r.width) line') := by
  have heven : (line.indent + r.width == width + r.width) = (line.indent == width) := by
    rw [Bool.eq_iff_iff, beq_iff_eq, beq_iff_eq, Nat.add_right_cancel_iff]
  unfold unevenIndent
  rw [h.indent, heven]
  split <;> rfl

theorem addFaults_alike {entry entry' : BlockEntry} (h : entry'.seen .plain = entry.seen (.respaced r source))
    {faults faults' : List Fault} (hfaults : Alike (.respaced r source) Fault.seen faults faults') :
    (entry'.addFaults faults').seen .plain = (entry.addFaults faults).seen (.respaced r source) := by
  obtain ⟨hown, hsibling⟩ := BlockEntry.mk.inj h
  have hall := hfaults.append hown
  simp only [BlockEntry.addFaults, BlockEntry.seen, hsibling]
  rw [hall]

theorem entries_step_respaced (hh : HeadsAlike r source head head') (hsub : head.Consumes)
    (hsub' : head'.Consumes) (hentries : EntriesAlike r source k head head')
    (hclose : ClosesAlike r source k (closeUnder head) (closeUnder head')) :
    EntriesAlike r source (k + 1) head head' := by
  intro parent expected afterPiped lines lines' hk h
  rw [entriesUnder_eq hsub, entriesUnder_eq hsub']
  rcases h.nested? parent with ⟨hnone, hnone'⟩ | ⟨line, after, line', after', hsome, hsome', hnext⟩
  · rw [hnone, hnone']
    exact ⟨.nil _, h.skipBlank⟩
  · have hlength := nested?_length hsome
    have hline := hnext.abreast
    have hentry := readEntry_respaced hh hsub hsub' hclose hentries.blocks hline afterPiped
      (by omega) hnext.tail
    have hrest := readEntry_suffix hsub (blockUnder_consumes hsub) line afterPiped after
    -- The first line of a block sets the width that the others are compared with.
    have hwidth : (expected.map (· + r.width)).getD line'.indent =
        expected.getD line.indent + r.width := by
      cases expected with
      | none => exact hline.alike.indent
      | some width => rfl
    obtain ⟨hmore, hleft⟩ := hentries parent (some (expected.getD line.indent))
      (readEntry head (blockUnder head) line afterPiped after).piped _ _
      (Nat.lt_of_le_of_lt hrest.length_le (by omega)) hentry.left
    rw [hsome, hsome']
    simp only [hwidth, hentry.piped]
    exact ⟨hmore.cons (addFaults_alike hentry.entry (unevenIndent_alike hline.alike _)), hleft⟩

/-- What is wrong with a line under a `case` is seen as it is. -/
theorem branchHead_fault_seen {text : List Char} {cause : Cause} (h : branchHead text = .fault cause)
    (v : View) : cause.seen v = cause := by
  unfold branchHead at h
  split at h
  · simp only at h
    split at h
    · cases h
      rfl
    · cases h
  · cases h
  · cases h
  · cases h
  · cases h
    rfl

theorem branches_step_respaced (hh : HeadsAlike r source head head') (hsub : head.Consumes)
    (hsub' : head'.Consumes)
    (hbranches : BranchesAlike r source k (branchesUnder head) (branchesUnder head'))
    (hblock : BlocksAlike r source k (blockUnder head) (blockUnder head'))
    (hclose : ClosesAlike r source k (closeUnder head) (closeUnder head')) :
    BranchesAlike r source (k + 1) (branchesUnder head) (branchesUnder head') := by
  intro indent lines lines' hk h
  rw [branchesUnder_eq hsub, branchesUnder_eq hsub']
  rcases h.child? indent with
    ⟨hnone, hnone'⟩ | ⟨line, after, line', after', hsome, hsome', hnext⟩
  · rw [hnone, hnone']
    exact ⟨rfl, .nil _, h.skipBlank⟩
  · have hlength := nested?_length hsome
    have hline := hnext.abreast
    have hskip := hnext.tail.skipChildren line.indent
    have hskipped := (skipChildren_suffix line.indent after).length_le
    rw [hsome, hsome']
    simp only [hline.alike.text, hline.alike.indent]
    cases hbranch : branchHead line.text with
    | ignored => exact hbranches indent _ _ (by omega) hskip
    | fault cause =>
      have hmore := hbranches indent _ _ (by omega) hskip
      refine ⟨hmore.value, hmore.faults.cons ?_, hmore.left⟩
      rw [Fault.seen, Fault.seen, branchHead_fault_seen hbranch, branchHead_fault_seen hbranch]
    | branch test rest =>
      have hfound := branchBlock_respaced hclose hh hsub hsub' hblock hline (branchHead_suffix hbranch)
        (by omega) hnext.tail
      have hrest := branchBlock_suffix (closeUnder_suffix hsub) hsub (blockUnder_consumes hsub) line
        rest after
      have hmore := hbranches indent _ _ (Nat.lt_of_le_of_lt hrest.length_le (by omega)) hfound.left
      refine ⟨?_, hfound.faults.append hmore.faults, hmore.left⟩
      have hbranch : (Branch.ofBlock test line'.span (branchBlock (closeUnder head') head'
          (blockUnder head') line' rest after').value).seen .plain =
          (Branch.ofBlock test line.span (branchBlock (closeUnder head) head (blockUnder head) line rest
            after).value).seen (.respaced r source) := by
        rw [Branch.ofBlock_seen, Branch.ofBlock_seen]
        exact congrArg _ hfound.value
      exact List.cons_eq_cons.mpr ⟨hbranch, hmore.value⟩

/-- Blocks, branches and nodes are read alike in both sources. -/
theorem readers_respaced (hh : HeadsAlike r source head head') (hsub : head.Consumes)
    (hsub' : head'.Consumes) (k : Nat) : EntriesAlike r source k head head' := by
  suffices h : EntriesAlike r source k head head' ∧
      BranchesAlike r source k (branchesUnder head) (branchesUnder head') from h.1
  induction k with
  | zero => exact ⟨fun _ _ _ _ _ hk => by omega, fun _ _ _ hk => by omega⟩
  | succ k ih =>
    obtain ⟨hentries, hbranches⟩ := ih
    have hclose := closeWith_respaced hbranches hentries.blocks
    exact ⟨entries_step_respaced hh hsub hsub' hentries hclose,
      branches_step_respaced hh hsub hsub' hbranches hentries.blocks hclose⟩

/-- The trees of a source and of the respaced source are seen alike, and so are their faults. -/
theorem parse_respaced (source : String) (hfits : r.Fits source.toList) :
    Alike (.respaced r source.toList) Node.seen (Document.parse source).1.nodes
        (Document.parse (r.wholeString source)).1.nodes ∧
      Alike (.respaced r source.toList) Fault.seen (Document.parse source).2
        (Document.parse (r.wholeString source)).2 := by
  have hheads : HeadsAlike r source.toList
      (Head.read source.toList (source.toList.length + 1))
      (Head.read (r.whole source.toList) ((r.whole source.toList).length + 1)) := by
    intro line line' lines lines' h
    have hless : line.front.text.length ≤ source.toList.length := Place.In.length_le h.placed.place
    have hless' : line'.front.text.length ≤ (r.whole source.toList).length :=
      Place.In.length_le h.placed'.place
    exact read_respaced h (Nat.lt_succ_of_le hless) (Nat.lt_succ_of_le hless')
  have hlines : Beside r source.toList (Line.ofSource source.toList)
      (Line.ofSource (r.whole source.toList)) :=
    ⟨ofSource_respaced hfits, List.suffix_refl _, List.suffix_refl _⟩
  obtain ⟨hentries, -⟩ := readers_respaced hheads (Head.read_consumes _ _) (Head.read_consumes _ _)
    _ none none false _ _ (Nat.lt_succ_self _) hlines
  have hblock := assemble_alike (.respaced r source.toList) hentries
  rw [parse_eq, parse_eq, Respacing.wholeString, String.toList_ofList]
  exact ⟨hblock.values, hblock.faults⟩

end PugComponents.Template
