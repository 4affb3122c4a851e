import PugComponents.Proofs.Template.Blocks
import PugComponents.Proofs.Template.Lines

/- Heads of lines. A parenthesised group may reach into the lines after its own;
   a head uses up those lines and gives back the rest, never lines that it was
   not given (`read_consumes`). -/
namespace PugComponents.Template

open Text

variable {p : Place}

theorem parenthesised?_suffix {after : Place} {lines rest : List Line} {inner : List Char}
    (h : parenthesised? p lines = some (inner, after, rest)) : rest <:+ lines := by
  obtain ⟨pair, -, heq⟩ := Option.map_eq_some_iff.mp h
  cases heq
  exact List.dropWhile_suffix _

theorem attributeGroup?_suffix {lines : List Line} {g : Groups}
    (h : attributeGroup? p lines = some g) : g.lines <:+ lines := by
  unfold attributeGroup? at h
  split at h
  · split at h
    · cases h
      exact List.suffix_refl lines
    · rename_i hgroup
      cases h
      exact parenthesised?_suffix hgroup
  · split at h
    · simp only at h
      split at h
      · cases h
        exact List.suffix_refl lines
      · rename_i hgroup
        cases h
        exact parenthesised?_suffix hgroup
    · cases h

theorem attributeGroups_suffix (n : Nat) (p : Place) (lines : List Line) :
    (attributeGroups n p lines).lines <:+ lines := by
  induction n generalizing p lines with
  | zero => exact List.suffix_refl lines
  | succ n ih =>
    unfold attributeGroups
    split
    · exact List.suffix_refl lines
    · rename_i g hg
      split
      · exact (ih g.place g.lines).trans (attributeGroup?_suffix hg)
      · exact attributeGroup?_suffix hg

theorem tagHead_suffix (n : Nat) (p : Place) (lines : List Line) :
    (tagHead n p lines).lines <:+ lines := by
  fun_induction tagHead n p lines with
  | case1 | case2 | case3 | case5 | case7 | case8 => exact List.suffix_refl _
  | case4 _ _ _ _ _ _ _ ih => exact ih
  | case6 _ _ _ _ _ _ _ ih => exact ih
  | case9 n p lines g hg more _ _ _ ih =>
    have hgroup := attributeGroup?_suffix hg
    show more.lines <:+ lines
    unfold more
    split
    · exact ih.trans hgroup
    · exact hgroup

/-! ## Tags -/

/-- The place of what follows the name of a tag. -/
def Line.afterName (line : Line) (name : List Char) : Place :=
  (⟨line.start, line.onward⟩ : Place).skip name

namespace TagHead

/-- The tag with this head. -/
def tag (head : TagHead) (line : Line) (name : List Char) (children : List Node) : Node :=
  .tag (if name.isEmpty then "div" else String.ofList name)
    (tagAttributes (classNames head.parts) head.parts) head.spreads children
    (head.ending = .selfClosing) (Span.between line.start head.place.lineStop)

/-- What the lines under a tag with this head are. -/
def body (head : TagHead) : Body :=
  match head.ending with
  | .plain => .nodes
  | .textBlock => .textBlock
  | .selfClosing => .leaf

/-- The tag with this head and the head after its colon. -/
def expanded (head : TagHead) (line : Line) (name : List Char) (sub : Line) (inner : Reading Head) :
    Reading Head :=
  let before := head.faults ++ inner.faults
  match inner.value with
  | .node pending =>
    ⟨.node { pending with hosts := head.tag line name [] :: pending.hosts }, before, inner.lines⟩
  | .text nodes _ => ⟨.single (head.tag line name nodes) head.body, before, inner.lines⟩
  | _ =>
    ⟨.single (head.tag line name []) head.body,
      before ++ [⟨.syntaxProblem .noExpansion, sub.span⟩], inner.lines⟩

/-- The tag with this head and what follows it. -/
def followed (head : TagHead) (line : Line) (name : List Char)
    (expand : Line → List Line → Reading Head) (tail : Head.Tail × List Fault) : Reading Head :=
  match tail.1 with
  | .children nodes =>
    ⟨.single (head.tag line name nodes) head.body, head.faults ++ tail.2, head.lines⟩
  | .expansion sub => head.expanded line name sub (expand sub head.lines)

theorem expanded_lines (head : TagHead) (line : Line) (name : List Char) (sub : Line)
    (inner : Reading Head) : (head.expanded line name sub inner).lines = inner.lines := by
  unfold expanded
  simp only
  split <;> rfl

end TagHead

theorem tagTail_of_line_nil (line : Line) (hp : p.line = []) :
    Head.tagTail line false p = (.children [], []) := by
  unfold Head.tagTail
  rw [hp]
  rfl

namespace Head

/-- A tag is read in three steps: its head, what follows it on the line, and the two together. -/
theorem ofTag_eq (expand : HeadReader) (line : Line) (name : List Char) (lines : List Line) :
    ofTag expand line name lines =
      let head := tagHead ((line.afterName name).text.length + 1) (line.afterName name) lines
      head.followed line name expand
        (tagTail line (head.ending = .selfClosing) head.place) := rfl

/-- The head of a mixin call, from the place after its arguments. -/
def callFrom (line : Line) (name : String) (arguments : Option String) (p : Place)
    (lines : List Line) : Reading Head :=
  let groups := attributeGroups (p.text.length + 1) p lines
  let junk := trim groups.place.line
  let stop := groups.place.lineStop
  let faults : List Fault :=
    if junk.isEmpty then []
    else [⟨.invalidMixin (.afterCall (String.ofList junk)), Span.between groups.place.offset stop⟩]
  ⟨single (.mixinCall name arguments groups.attributes groups.spreads []
    (Span.between line.start stop)) .nodes, groups.faults ++ faults, groups.lines⟩

/-- A mixin call is read in two steps: its arguments, and what follows them. -/
theorem ofMixinCall_eq (line : Line) (length : Nat) (lines : List Line) :
    ofMixinCall line length lines =
      let name := String.ofList ((line.text.take length).drop 1)
      let start := line.afterName (line.text.take length)
      if startsWith start.line ['('] then
        match parenthesised? start lines with
        | none => ⟨.skip, [unclosedGroup start], lines⟩
        | some (inner, after, rest) => callFrom line name (some (String.ofList (trim inner))) after rest
      else callFrom line name none start lines := rfl

theorem ofMixinCall_suffix (line : Line) (length : Nat) (lines : List Line) :
    (ofMixinCall line length lines).lines <:+ lines := by
  rw [ofMixinCall_eq]
  simp only
  split
  · split
    · exact List.suffix_refl lines
    · rename_i hgroup
      exact (attributeGroups_suffix _ _ _).trans (parenthesised?_suffix hgroup)
  · exact attributeGroups_suffix _ _ _

theorem ofTag_suffix {expand : HeadReader} (he : expand.Consumes) (line : Line) (name : List Char)
    (lines : List Line) : (ofTag expand line name lines).lines <:+ lines := by
  rw [ofTag_eq]
  have hhead := tagHead_suffix ((line.afterName name).text.length + 1) (line.afterName name) lines
  unfold TagHead.followed
  simp only
  split
  · exact hhead
  · rw [TagHead.expanded_lines]
    exact (he _ _).trans hhead

theorem step_suffix {expand : HeadReader} (he : expand.Consumes) (source : List Char) (line : Line)
    (lines : List Line) : (step source expand line lines).lines <:+ lines := by
  unfold step
  simp only
  split
  · exact List.suffix_refl lines
  · split
    · exact ofTag_suffix he line _ lines
    · exact ofTag_suffix he line _ lines
    · exact ofTag_suffix he line _ lines
    all_goals first
      | exact List.suffix_refl lines
      | exact ofMixinCall_suffix line _ lines

/-- A head uses up lines from the front of those it is given. -/
theorem read_consumes (source : List Char) (n : Nat) : HeadReader.Consumes (read source n) := by
  intro line lines
  induction n generalizing line lines with
  | zero => exact List.suffix_refl lines
  | succ n ih => exact step_suffix ih source line lines

theorem read_keyword {line : Line} {keyword : Keyword} {length : Nat}
    (h : Marker.leading? line.text = some (.keyword keyword, length)) (source : List Char) (n : Nat)
    (lines : List Line) :
    read source (n + 1) line lines =
      let r := ofKeyword source line keyword
        ((⟨line.start, line.text⟩ : Place).skip (line.text.take length))
      ⟨r.1, r.2, lines⟩ := by
  rw [read, step, h]

end Head

/-! ## Branches on one line -/

/-- What stands at the end of a line, as a line of its own. -/
def Line.fromEnd (line : Line) (inline : List Char) : Line :=
  { line with
    start := line.start + byteLength (line.text.take (line.text.length - inline.length))
    text := inline
    onward := line.onward.drop (line.text.take (line.text.length - inline.length)).length }

theorem Line.Placed.fromEnd {source : List Char} {line : Line} (h : line.Placed source)
    {inline : List Char} (hinline : inline <:+ line.text) : (line.fromEnd inline).Placed source := by
  obtain ⟨front, hfront⟩ := hinline
  have htake : line.text.take (line.text.length - inline.length) = front := by
    rw [← hfront, List.length_append, Nat.add_sub_cancel, List.take_left]
  have hprefix : front <+: lineContent line.onward := by
    rw [← h.content, ← hfront]
    exact List.prefix_append _ _
  refine ⟨?_, ?_⟩
  · show inline = lineContent (line.onward.drop (line.text.take _).length)
    rw [htake, lineContent_drop hprefix.length_le, ← h.content, ← hfront, List.drop_left]
  · obtain ⟨before, hsource, hstart⟩ := h.place
    obtain ⟨rest, hrest⟩ := hprefix.trans (lineContent_isPrefix _)
    refine ⟨before ++ front, ?_, ?_⟩
    · rw [hsource, Line.fromEnd, htake, ← hrest, List.drop_left, List.append_assoc]
    · rw [Line.fromEnd, htake, hstart, byteLength_append]

theorem consFirst_suffix {c : Char} {r : List Char × List Char} {cs : List Char} (h : r.2 <:+ cs) :
    (consFirst c r).2 <:+ c :: cs :=
  h.trans (List.suffix_cons c cs)

/-- What follows the test of a branch stands at the end of its line. -/
theorem cutAtExpansion_suffix (depth ternaries : Nat) (quoting : Quoting) (cs : List Char) :
    (cutAtExpansion depth ternaries quoting cs).2 <:+ cs := by
  fun_induction cutAtExpansion depth ternaries quoting cs with
  | case1 | case3 => exact List.suffix_refl _
  | case2 _ _ _ _ _ _ _ _ ih | case4 _ _ _ _ _ _ _ _ _ ih | case5 _ _ _ _ _ _ _ _ ih
  | case6 _ _ _ _ _ _ _ _ ih | case7 _ _ _ _ _ _ ih => exact consFirst_suffix ih

variable {rest : List Char}

theorem branchHead_suffix {text : List Char} {test : Option String}
    (h : branchHead text = .branch test rest) : rest <:+ text := by
  unfold branchHead at h
  split at h
  · simp only at h
    split at h
    · cases h
    · cases h
      exact (cutAtExpansion_suffix _ _ _ _).trans (List.drop_suffix _ _)
  · cases h
    exact (List.dropWhile_suffix _).trans (List.drop_suffix _ _)
  · cases h
  · cases h
  · cases h

theorem inlineBranch_suffix (rest : List Char) : inlineBranch rest <:+ rest := by
  unfold inlineBranch
  split
  · exact (List.dropWhile_suffix _).trans (List.suffix_cons _ _)
  · exact List.nil_suffix

/-- The block of a branch from the head after its colon, which stands on the line `sub`. -/
def inlineBlock (close : Pending → Nat → List Line → Reading Node) (indent : Nat) (sub : Line)
    (r : Reading Head) : Reading (Option (List Node)) :=
  match r.value with
  | .node pending =>
    let closed := close pending indent r.lines
    ⟨some [closed.value], r.faults ++ closed.faults, closed.lines⟩
  | .text nodes _ =>
    let rejected := rejectChildren indent "Text" r.lines
    ⟨some nodes, r.faults ++ rejected.faults, rejected.lines⟩
  | _ => ⟨none, r.faults ++ [⟨.syntaxProblem .noExpansion, sub.span⟩], skipChildren indent r.lines⟩

theorem branchBlock_inline (h : inlineBranch rest ≠ [])
    (close : Pending → Nat → List Line → Reading Node) (head : HeadReader) (block : BlockReader)
    (line : Line) (lines : List Line) :
    branchBlock close head block line rest lines =
      inlineBlock close line.indent (line.fromEnd (inlineBranch rest))
        (head (line.fromEnd (inlineBranch rest)) lines) := by
  unfold branchBlock
  split
  · exact absurd ‹_› h
  · rfl

theorem branchBlock_under (h : inlineBranch rest = [])
    (close : Pending → Nat → List Line → Reading Node) (head : HeadReader) (block : BlockReader)
    (line : Line) (lines : List Line) :
    branchBlock close head block line rest lines =
      match nested? (some line.indent) lines with
      | none => ⟨none, [], skipBlank lines⟩
      | some _ =>
        ⟨some (block line.indent lines).value, (block line.indent lines).faults,
          (block line.indent lines).lines⟩ := by
  unfold branchBlock
  split
  · rfl
  · exact absurd h ‹_›

end PugComponents.Template
