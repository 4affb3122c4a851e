import PugComponents.Proofs.Template.Parts
import PugComponents.Proofs.Template.RespacedBlocks

/- Trees whose tags and mixins stand on one line each. What a view changes in such a
   tree are the spans and the columns of includes, since nothing is copied over the end
   of a line. So two trees that are seen alike are the same without their spans, but for
   what the view does to columns (`Alike.columns`). Faults that are seen alike have the
   causes that are seen (`Alike.causes`). -/
namespace PugComponents.Template

open Text

/-- Spans are not shown, columns are shown as `f` has them, and all else is shown as it is. -/
def View.columns (f : Nat → Nat) : View := { View.plain with column := f }

/-- A tag, or the definition or a call of a mixin. -/
def Part.isTagOrMixin : Part → Bool
  | .node n => n.kind == "Tag" || n.kind == "Mixin"
  | _ => false

variable {v : View}

/-- No tag and no mixin among the parts has a span over the end of a line. -/
def Unwrapped (v : View) (parts : List Part) : Prop :=
  ∀ part ∈ parts, part.isTagOrMixin = true → v.wraps part.span = false

variable {parts parts' : List Part}

theorem Unwrapped.mono (h : Unwrapped v parts') (hsub : parts ⊆ parts') : Unwrapped v parts :=
  fun part hpart => h part (hsub hpart)

theorem Unwrapped.tail {part : Part} (h : Unwrapped v (part :: parts)) : Unwrapped v parts :=
  h.mono (List.subset_cons_self part parts)

theorem Unwrapped.left (h : Unwrapped v (parts ++ parts')) : Unwrapped v parts :=
  h.mono (List.subset_append_left parts parts')

theorem Unwrapped.right (h : Unwrapped v (parts ++ parts')) : Unwrapped v parts' :=
  h.mono (List.subset_append_right parts parts')

/-- In the respaced source, too, a span goes over the end of a line if its text holds a line feed. -/
theorem unwrapped_respaced {r : Respacing} {source : List Char} {nodes : List Node}
    (h : ∀ part ∈ partsOf nodes, part.isTagOrMixin = true → '\n' ∉ part.span.text source) :
    Unwrapped (.respaced r source) (partsOf nodes) := by
  intro part hpart hkind
  show (part.span.text source).contains '\n' = false
  simpa using h part hpart hkind

/-! ## Attributes and spreads -/

variable {s : Span}

theorem View.within_id (h : v.wraps s = false) : (v.within s).copied = id := by
  rw [View.within, h]
  rfl

theorem Attribute.seen_seen {w : View} (h : w.copied = id) (a : Attribute) :
    (a.seen w).seen v = a.seen v := by
  obtain ⟨name, value, escaped, span⟩ := a
  cases value <;> simp [Attribute.seen, AttributeValue.seen, h]

theorem Spread.seen_seen {w : View} (h : w.copied = id) (s : Spread) :
    (s.seen w).seen v = s.seen v := by
  simp [Spread.seen, h]

/-- Nothing that a view changes on one line is shown without spans. -/
theorem attributes_seen_seen (h : v.wraps s = false) (w : View) (attributes : List Attribute) :
    (attributes.map (Attribute.seen (v.within s))).map (Attribute.seen w) =
      attributes.map (Attribute.seen w) := by
  rw [List.map_map]
  exact List.map_congr_left fun a _ => a.seen_seen (View.within_id h)

theorem spreads_seen_seen (h : v.wraps s = false) (w : View) (spreads : List Spread) :
    (spreads.map (Spread.seen (v.within s))).map (Spread.seen w) = spreads.map (Spread.seen w) := by
  rw [List.map_map]
  exact List.map_congr_left fun spread _ => spread.seen_seen (View.within_id h)

/-! ## Trees -/

/-- Through `f` a column looks as it did before the view changed it. -/
def View.KeepsColumns (v : View) (f : Nat → Nat) : Prop := ∀ column, f (v.column column) = f column

variable {f : Nat → Nat}

mutual

/-- A view of a node whose tags and mixins stand on one line each changes spans and columns only. -/
theorem Node.columns_seen (hf : v.KeepsColumns f) : (node : Node) → Unwrapped v (.node node :: node.inner) →
    (node.seen v).seen (.columns f) = node.seen (.columns f)
  | .code _ _ nodes _, h | .group nodes _, h | .namedBlock _ _ nodes _, h | .each _ _ _ nodes _, h
  | .whileLoop _ nodes _, h | .mixinDefinition _ _ nodes _, h => by
    simp only [Node.seen, columns_seenNodes hf nodes h.tail]
  | .caseOf _ branches _, h => congrArg (Node.caseOf _ · _) (columns_seenBranches hf branches h.tail)
  | .conditional _ consequent alternates _, h =>
    congrArg₂ (Node.conditional _ · · _) (columns_seenNodes hf consequent h.tail.left)
      (columns_seenAlternates hf alternates h.tail.right)
  | .mixinCall name arguments attributes spreads block s, h => by
    have hs : v.wraps s = false := h _ List.mem_cons_self rfl
    have hblock := columns_seenNodes hf block h.tail
    have harguments : arguments.map (v.within s).copied = arguments := by
      rw [View.within_id hs, Option.map_id_apply]
    simp only [Node.seen, harguments, hblock]
    exact congrArg₂ (Node.mixinCall name _ · · _ _) (attributes_seen_seen hs _ attributes)
      (spreads_seen_seen hs _ spreads)
  | .tag name attributes spreads children selfClosing s, h => by
    have hs : v.wraps s = false := h _ List.mem_cons_self rfl
    simp only [Node.seen, columns_seenNodes hf children h.tail]
    exact congrArg₂ (Node.tag name · · _ _ _) (attributes_seen_seen hs _ attributes)
      (spreads_seen_seen hs _ spreads)
  | .includeFile _ column _, _ => congrArg (Node.includeFile _ · _) (hf column)
  | .text .., _ | .comment .., _ | .doctype .., _ | .mixinBlock .., _ | .interpolatedTag .., _
  | .rawInclude .., _ | .extendsFile .., _ | .filter .., _ => rfl

theorem Branch.columns_seen (hf : v.KeepsColumns f) : (branch : Branch) → Unwrapped v branch.inner →
    (branch.seen v).seen (.columns f) = branch.seen (.columns f)
  | .bare .., _ => rfl
  | .block _ nodes _, h => congrArg (Branch.block _ · _) (columns_seenNodes hf nodes h)

theorem Alternate.columns_seen (hf : v.KeepsColumns f) :
    (branch : Alternate) → Unwrapped v branch.inner →
    (branch.seen v).seen (.columns f) = branch.seen (.columns f)
  | .orElse nodes _, h | .orIf _ nodes _, h => by
    simp only [Alternate.seen, columns_seenNodes hf nodes h]

theorem columns_seenNodes (hf : v.KeepsColumns f) : (nodes : List Node) → Unwrapped v (partsOf nodes) →
    seenNodes (.columns f) (seenNodes v nodes) = seenNodes (.columns f) nodes
  | [], _ => rfl
  | node :: nodes, h =>
    have happend : Unwrapped v ((.node node :: node.inner) ++ partsOf nodes) := h
    congrArg₂ List.cons (node.columns_seen hf happend.left) (columns_seenNodes hf nodes happend.right)

theorem columns_seenBranches (hf : v.KeepsColumns f) :
    (branches : List Branch) → Unwrapped v (branchParts branches) →
    seenBranches (.columns f) (seenBranches v branches) = seenBranches (.columns f) branches
  | [], _ => rfl
  | branch :: branches, h =>
    congrArg₂ List.cons (branch.columns_seen hf h.tail.left) (columns_seenBranches hf branches h.tail.right)

theorem columns_seenAlternates (hf : v.KeepsColumns f) :
    (branches : List Alternate) → Unwrapped v (alternateParts branches) →
    seenAlternates (.columns f) (seenAlternates v branches) = seenAlternates (.columns f) branches
  | [], _ => rfl
  | branch :: branches, h =>
    congrArg₂ List.cons (branch.columns_seen hf h.tail.left)
      (columns_seenAlternates hf branches h.tail.right)

end

/-- Trees that are seen alike are the same without spans, if what is copied is. -/
theorem Alike.columns (hf : v.KeepsColumns f) {nodes nodes' : List Node} (h : Alike v Node.seen nodes nodes')
    (hwraps : Unwrapped v (partsOf nodes)) :
    nodes'.map (Node.seen (.columns f)) = nodes.map (Node.seen (.columns f)) := by
  have hplain : Unwrapped .plain (partsOf nodes') := fun _ _ _ => rfl
  calc nodes'.map (Node.seen (.columns f))
      = (nodes'.map (Node.seen .plain)).map (Node.seen (.columns f)) := by
        simpa using (columns_seenNodes (v := .plain) (fun _ => rfl) nodes' hplain).symm
    _ = (nodes.map (Node.seen v)).map (Node.seen (.columns f)) := by rw [h]
    _ = nodes.map (Node.seen (.columns f)) := by simpa using columns_seenNodes hf nodes hwraps

/-! ## Faults -/

theorem Cause.seen_plain (cause : Cause) : cause.seen .plain = cause := by
  cases cause with
  | syntaxProblem problem => cases problem <;> rfl
  | _ => rfl

/-- Faults that are seen alike have the causes that are seen. -/
theorem Alike.causes {faults faults' : List Fault} (h : Alike v Fault.seen faults faults') :
    faults'.map Fault.cause = faults.map fun fault => fault.cause.seen v := by
  have hcauses := congrArg (List.map Fault.cause) h
  simpa [Function.comp_def, Fault.seen, Cause.seen_plain] using hcauses

end PugComponents.Template
