import PugComponents.Proofs.Template.Unwrapped

/- Templates that are indented further. Spaces in front of every line of a template
   change its tree only in what tags and mixin calls copy over the end of a line.
   If none of them goes over a line end, the tree stays the same but for its spans
   and the columns of its includes, and the faults stay the same but for the widths
   that they name (`parse_indented`). One fault also quotes from the source: the
   name of an attribute without a value, which may hold line ends. It is reported
   for tags that are not kept in the tree too, such as those under an `else` without
   an `if`, so that the name that is quoted has to be excepted
   (`quoted_name_is_indented`). -/
namespace PugComponents.Template

open Text

/-! ## Indented sources -/

/-- The text with spaces after each line feed. -/
def spacedFeeds (width : Nat) (text : List Char) : List Char :=
  text.flatMap fun c => if c == '\n' then '\n' :: List.replicate width ' ' else [c]

/-- The source with spaces in front of each of its lines. -/
def indented (width : Nat) (source : String) : String :=
  String.ofList (List.replicate width ' ' ++ spacedFeeds width source.toList)

theorem indented_eq_wholeString (width : Nat) (source : String) :
    indented width source = (⟨false, width⟩ : Respacing).wholeString source := rfl

/-- Where no carriage returns are written, none can be in the way. -/
theorem fits_spaces (width : Nat) (text : List Char) : (⟨false, width⟩ : Respacing).Fits text :=
  fun hreturns => nomatch hreturns

/-! ## Trees without spans and columns -/

/-- Neither spans nor the columns of includes are shown, and all else is shown as it is. -/
def View.bare : View := { View.plain with column := fun _ => 0 }

/-- The node without its spans and the columns of its includes. -/
def Node.bare (node : Node) : Node := node.seen .bare

/-- Trees that are seen alike are the same without spans and columns, if what is copied is. -/
theorem Alike.bare {v : View} {nodes nodes' : List Node} (h : Alike v Node.seen nodes nodes')
    (hwraps : Unwrapped v (partsOf nodes)) : nodes'.map Node.bare = nodes.map Node.bare :=
  h.columns (fun _ => rfl) hwraps

/-! ## Faults -/

/-- The cause in a source that is indented further. -/
def Cause.deeper (width : Nat) : Cause → Cause
  | .inconsistentIndentation expected found => .inconsistentIndentation (expected + width) (found + width)
  | cause => cause

/-- The cause in a source with spaces in front of each line, which stand in a quoted name too. -/
def Cause.indented (width : Nat) : Cause → Cause
  | .syntaxProblem (.noAttributeValue name) =>
    .syntaxProblem (.noAttributeValue (String.ofList (spacedFeeds width name.toList)))
  | cause => cause.deeper width

theorem Cause.seen_copying (width : Nat) (cause : Cause) :
    cause.seen (.copying ⟨false, width⟩) = cause.indented width := by
  cases cause with
  | syntaxProblem problem => cases problem <;> rfl
  | _ => rfl

/-! ## The parse of an indented source -/

/-- A template in which every tag and every mixin stands on one line has the same tree with spaces in
front of its lines, but for spans and the columns of includes. It has the same faults, but that the
widths they name are greater and that the name of an attribute without a value is quoted with the
spaces after its line feeds. -/
theorem parse_indented (source : String) (width : Nat)
    (hlines : ∀ part ∈ partsOf (Document.parse source).1.nodes,
      part.isTagOrMixin = true → '\n' ∉ part.span.text source.toList) :
    (Document.parse (indented width source)).1.nodes.map Node.bare =
        (Document.parse source).1.nodes.map Node.bare ∧
      (Document.parse (indented width source)).2.map Fault.cause =
        (Document.parse source).2.map fun fault => fault.cause.indented width := by
  obtain ⟨hnodes, hfaults⟩ := parse_respaced source (fits_spaces width source.toList)
  rw [← indented_eq_wholeString] at hnodes hfaults
  refine ⟨hnodes.bare (unwrapped_respaced hlines), ?_⟩
  rw [hfaults.causes]
  exact List.map_congr_left fun fault _ => fault.cause.seen_copying width

/-- A tag and a mixin call with attributes, an include, and a line that is indented less than the line
before it but starts no block that is open. -/
theorem parse_indented_uneven :
    (∀ part ∈ partsOf (Document.parse "a(b=1)\n    c\n  include d\n+e(f)(g)\n  h").1.nodes,
      part.isTagOrMixin = true →
        '\n' ∉ part.span.text "a(b=1)\n    c\n  include d\n+e(f)(g)\n  h".toList) ∧
      (Document.parse (indented 3 "a(b=1)\n    c\n  include d\n+e(f)(g)\n  h")).1.nodes.map Node.bare =
        (Document.parse "a(b=1)\n    c\n  include d\n+e(f)(g)\n  h").1.nodes.map Node.bare ∧
      (Document.parse (indented 3 "a(b=1)\n    c\n  include d\n+e(f)(g)\n  h")).2.map Fault.cause =
        [.inconsistentIndentation 7 5] := by
  have hlines : ∀ part ∈ partsOf (Document.parse "a(b=1)\n    c\n  include d\n+e(f)(g)\n  h").1.nodes,
      part.isTagOrMixin = true →
        '\n' ∉ part.span.text "a(b=1)\n    c\n  include d\n+e(f)(g)\n  h".toList := by
    decide +kernel
  have hfaults : (Document.parse "a(b=1)\n    c\n  include d\n+e(f)(g)\n  h").2.map
      (fun fault => fault.cause.indented 3) = [.inconsistentIndentation 7 5] := by
    decide +kernel
  obtain ⟨hnodes, hcauses⟩ := parse_indented _ 3 hlines
  exact ⟨hlines, hnodes, hcauses.trans hfaults⟩

/-- No node is kept under an `else` without an `if`, but the name of the attribute that has no value
is quoted as it is written, with the spaces after its line feed. -/
theorem quoted_name_is_indented :
    (∀ part ∈ partsOf (Document.parse "else\n  a('b\nc'=)").1.nodes,
      part.isTagOrMixin = true → '\n' ∉ part.span.text "else\n  a('b\nc'=)".toList) ∧
      (Document.parse (indented 2 "else\n  a('b\nc'=)")).2.map Fault.cause ≠
        (Document.parse "else\n  a('b\nc'=)").2.map fun fault => fault.cause.deeper 2 := by
  decide +kernel

end PugComponents.Template
