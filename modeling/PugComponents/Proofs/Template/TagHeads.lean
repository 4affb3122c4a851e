import PugComponents.Proofs.Template.HeadSpans
import PugComponents.Proofs.Template.NodeProperties

/- The attributes of a tag are written in its head. The head stands where the span
   of the tag starts, and can be read again from there, whatever lines follow;
   so the attributes of every tag of a document are those of the head at its span
   (`parse_tag_attributes`): the plain attributes as they are written, and all
   class names together as one attribute. -/
namespace PugComponents.Template

open Text

/-- The attributes that the parts of a head make up. -/
def TagHead.attributes (head : TagHead) : List Attribute := tagAttributes (classNames head.parts) head.parts

theorem TagHead.attributes_alone (head : TagHead) : head.alone.attributes = head.attributes := rfl

/-- If the node is a tag, its attributes are those of the head that stands where its span starts. -/
def Node.WrittenAt (source : List Char) : Node → Prop
  | .tag _ attributes _ _ _ s => attributes = (headAt source s).attributes
  | _ => True

/-- What is put into a tag is not an attribute of it. -/
theorem Node.WrittenAt.lasting (source : List Char) : Node.Lasting (Node.WrittenAt source) where
  inline := by
    intro node h
    cases node with
    | tag => exact h.elim
    | _ => trivial
  addChildren := by
    intro node new h
    cases node <;> exact h
  addRaw := by
    intro node raw h
    cases node <;> exact h
  addBranches := by
    intro node new h
    cases node <;> exact h
  attach _ h := h

theorem Node.Bare.writtenAt {node : Node} (h : node.Bare) (source : List Char) :
    node.WrittenAt source := by
  cases node with
  | tag => exact h.elim
  | _ => trivial

/-- A tag has the attributes of its head. -/
theorem tag_writtenAt {source : List Char} {line : Line} (lines : List Line) (children : List Node)
    (hplaced : line.Placed source) :
    ((line.tagHead lines).tag line (tagNameAt line.text) children).WrittenAt source := by
  have hhead := fun s hs => congrArg TagHead.attributes (headAt_eq (s := s) hplaced hs lines)
  simp only [TagHead.attributes_alone] at hhead
  exact (hhead _ rfl).symm

/-- Every tag of a document has the attributes of the head at its span. -/
theorem parse_tag_attributes {source name : String} {attributes : List Attribute}
    {spreads : List Spread} {children : List Node} {selfClosing : Bool} {s : Span}
    (h : .node (.tag name attributes spreads children selfClosing s) ∈
      partsOf (Document.parse source).1.nodes) :
    attributes = (headAt source.toList s).attributes :=
  parse_all (Node.WrittenAt.lasting source.toList) source
    (Head.read_all (Node.WrittenAt.lasting source.toList) tag_writtenAt
      (fun _ _ _ _ _ _ hnode => hnode.writtenAt source.toList) _) _ h

end PugComponents.Template
