import PugComponents.Proofs.Template.Unwrapped

/- Templates with carriage returns at their line ends. A carriage return before a line
   feed is no part of its line, so that it changes the tree of a template only in what
   tags and mixin calls copy over the end of a line. If none of them goes over a line
   end, the tree stays the same but for its spans, and the faults have the same causes
   (`parse_withReturns`). As with indentation, the name of an attribute without a value
   has to be excepted: it is quoted as it is written, also for a tag that is not kept in
   the tree (`quoted_name_has_return`). -/
namespace PugComponents.Template

open Text

/-! ## Sources with carriage returns -/

/-- The source with a carriage return before each line feed. -/
def withReturns (source : String) : String :=
  String.ofList (source.toList.flatMap fun c => if c == '\n' then ['\r', '\n'] else [c])

theorem withReturns_eq_string (source : String) :
    withReturns source = (⟨true, 0⟩ : Respacing).string source := rfl

theorem withReturns_eq_wholeString (source : String) :
    withReturns source = (⟨true, 0⟩ : Respacing).wholeString source := rfl

/-- The node without its spans. -/
def Node.spanless (node : Node) : Node := node.seen .plain

/-- The cause in a source with carriage returns, which stand in a quoted name too. -/
def Cause.withReturns : Cause → Cause
  | .syntaxProblem (.noAttributeValue name) =>
    .syntaxProblem (.noAttributeValue (Template.withReturns name))
  | cause => cause

theorem Cause.seen_returns (cause : Cause) : cause.seen (.copying ⟨true, 0⟩) = cause.withReturns := by
  cases cause with
  | syntaxProblem problem =>
    cases problem with
    | noAttributeValue name =>
      rw [Cause.withReturns, withReturns_eq_string]
      rfl
    | _ => rfl
  | _ => rfl

/-! ## The parse of a source with carriage returns -/

/-- A template without carriage returns in which every tag and every mixin stands on one line has the
same tree with carriage returns before its line feeds, but for the spans. It has the same faults, but
that the name of an attribute without a value is quoted with the carriage returns in it. -/
theorem parse_withReturns (source : String) (hreturns : '\r' ∉ source.toList)
    (hlines : ∀ part ∈ partsOf (Document.parse source).1.nodes,
      part.isTagOrMixin = true → '\n' ∉ part.span.text source.toList) :
    (Document.parse (withReturns source)).1.nodes.map Node.spanless =
        (Document.parse source).1.nodes.map Node.spanless ∧
      (Document.parse (withReturns source)).2.map Fault.cause =
        (Document.parse source).2.map fun fault => fault.cause.withReturns := by
  have hfits : (⟨true, 0⟩ : Respacing).Fits source.toList := fun _ => hreturns
  obtain ⟨hnodes, hfaults⟩ := parse_respaced source hfits
  rw [← withReturns_eq_wholeString] at hnodes hfaults
  constructor
  · -- Nothing stands behind the line feeds, so that columns stay, too.
    have hcolumns : (View.respaced ⟨true, 0⟩ source.toList).KeepsColumns id := fun _ => rfl
    exact hnodes.columns hcolumns (unwrapped_respaced hlines)
  · rw [hfaults.causes]
    exact List.map_congr_left fun fault _ => fault.cause.seen_returns

/-- A tag with text of several lines under it, an include, a mixin call and an attribute without a
value. -/
def textBlockSource : String := "a(b=1).\n  c\n\n    d\ninclude e\n+f(g)(h=)\n  i"

/-- Both trees are the same, and both parses find the attribute without a value. -/
theorem textBlockSource_withReturns :
    '\r' ∉ textBlockSource.toList ∧
      (∀ part ∈ partsOf (Document.parse textBlockSource).1.nodes,
        part.isTagOrMixin = true → '\n' ∉ part.span.text textBlockSource.toList) ∧
      (Document.parse (withReturns textBlockSource)).1.nodes.map Node.spanless =
        (Document.parse textBlockSource).1.nodes.map Node.spanless ∧
      (Document.parse (withReturns textBlockSource)).2.map Fault.cause =
        [.syntaxProblem (.noAttributeValue "h")] := by
  have hreturns : '\r' ∉ textBlockSource.toList := by decide
  have hlines : ∀ part ∈ partsOf (Document.parse textBlockSource).1.nodes,
      part.isTagOrMixin = true → '\n' ∉ part.span.text textBlockSource.toList := by
    decide +kernel
  have hfaults : (Document.parse textBlockSource).2.map (fun fault => fault.cause.withReturns) =
      [.syntaxProblem (.noAttributeValue "h")] := by
    decide +kernel
  obtain ⟨hnodes, hcauses⟩ := parse_withReturns _ hreturns hlines
  exact ⟨hreturns, hlines, hnodes, hcauses.trans hfaults⟩

/-- No node is kept under an `else` without an `if`, but the name of the attribute that has no value
is quoted as it is written, with the carriage return before its line feed. -/
theorem quoted_name_has_return :
    '\r' ∉ "else\n  a('b\nc'=)".toList ∧
      (∀ part ∈ partsOf (Document.parse "else\n  a('b\nc'=)").1.nodes,
        part.isTagOrMixin = true → '\n' ∉ part.span.text "else\n  a('b\nc'=)".toList) ∧
      (Document.parse (withReturns "else\n  a('b\nc'=)")).2.map Fault.cause ≠
        (Document.parse "else\n  a('b\nc'=)").2.map Fault.cause := by
  decide +kernel

end PugComponents.Template
