import PugComponents.Proofs.Component.Traces

/- Empty fragments as arms of conditionals. The branches of an `if` are never
   empty fragments, since a branch that renders nothing is `null`. The slot of a
   layout has no such case: if all that stands in a block vanishes, the arm for its
   content is an empty fragment. `emptyArms_convert`: these are the only ones, one
   for each such block of the document. -/
namespace PugComponents.Jsx

/-- The conditional that a part is, if one of its arms is an empty fragment. -/
def Part.emptyArm? : Part → Option Expr
  | .expr (.conditional test consequent alternate) =>
    if consequent.isEmptyFragment || alternate.isEmptyFragment then
      some (.conditional test consequent alternate)
    else none
  | _ => none

/-- The conditionals in a module that have an empty fragment for an arm. -/
def Program.emptyArms (p : Program) : List Expr := p.parts.filterMap Part.emptyArm?

theorem Part.emptyArm?_of_isFrame {part : Part} (h : part.isFrame = true) : part.emptyArm? = none := by
  unfold emptyArm?
  split
  · rename_i test consequent alternate
    simp only [isFrame, Bool.and_eq_true, Bool.not_eq_true'] at h
    simp [h]
  · rfl

end PugComponents.Jsx

namespace PugComponents.Component

open scoped List
open Jsx
open Link (roleOf)
open Script (SnippetReader)
open Template (Node Document preorder)

/-! ## Nodes that vanish -/

mutual

/-- Nothing is left of the node in a layout, below the top level. -/
def vanishes (reader : SnippetReader) : Node → Bool
  | .doctype .. | .mixinCall .. | .includeFile .. | .rawInclude .. | .extendsFile .. => true
  | .code value kind _ _ =>
    decide (kind = .run) &&
      match reader.statements value with
      | .ok statements => statements.isEmpty
      | .error _ => false
  | .group nodes _ => allVanish reader nodes
  | _ => false

/-- Nothing is left of the nodes. -/
def allVanish (reader : SnippetReader) : List Node → Bool
  | [] => true
  | node :: rest => vanishes reader node && allVanish reader rest

end

/-- The slot of a block whose content vanishes. -/
def hollowSlot? (reader : SnippetReader) : Node → Option Expr
  | .namedBlock name _ nodes _ =>
    if !nodes.isEmpty && allVanish reader nodes then some (slotChoice name []) else none
  | _ => none

/-- The targets have no children. -/
def isHollow (targets : List Target) : Bool := targets.all fun t => t.imported?.isSome

theorem childrenOf_isEmpty (targets : List Target) :
    (childrenOf targets).isEmpty = isHollow targets := by
  induction targets with
  | nil => rfl
  | cons t targets ih =>
    cases t with
    | imported i => simpa [childrenOf, isHollow, Target.imported?] using ih
    | _ => simp [childrenOf, isHollow, Target.imported?]

theorem isHollow_append (a b : List Target) : isHollow (a ++ b) = (isHollow a && isHollow b) :=
  List.all_append

mutual

theorem lowerNode_hollow {reader : SnippetReader} (node : Node) {l : Lowered}
    (h : (lowerNode ⟨reader, true⟩ false node).result = .ok l) :
    isHollow l.targets = vanishes reader node := by
  match node with
  | .text value span =>
    obtain rfl := lowerNode_eq_ok h
    show isHollow [if _ then _ else _] = false
    split <;> rfl
  | .code value kind block span =>
    rw [lowerNode] at h
    rw [vanishes]
    rcases lowerCode_eq_ok h with ⟨rfl, statements, hstatements, rfl⟩ | ⟨hkind, e, -, rfl⟩
    · change reader.statements value = .ok statements at hstatements
      rw [hstatements]
      cases statements <;> rfl
    · rw [decide_eq_false hkind]
      rfl
  | .group nodes span =>
    obtain ⟨ts, hts, rfl⟩ := lowerNode_eq_ok h
    rw [vanishes]
    exact lowerNodes_hollow nodes hts
  | .namedBlock name mode nodes span =>
    rcases lowerNode_eq_ok h with ⟨hplain, -⟩ | ⟨-, -, rfl⟩ | ⟨-, -, ts, -, rfl⟩
    · cases hplain
    · rfl
    · rfl
  | .comment .. | .doctype .. | .extendsFile .. | .rawInclude .. | .mixinCall .. =>
    obtain rfl := lowerNode_eq_ok h
    rfl
  | .caseOf .. | .each .. | .tag .. =>
    obtain ⟨_, _, -, -, rfl⟩ := lowerNode_eq_ok h
    rfl
  | .conditional .. =>
    obtain ⟨_, _, _, -, -, -, rfl⟩ := lowerNode_eq_ok h
    rfl
  | .mixinDefinition .. | .interpolatedTag .. =>
    obtain ⟨_, -, rfl⟩ := lowerNode_eq_ok h
    rfl
  | .includeFile .. =>
    rcases lowerNode_eq_ok h with ⟨htop, -⟩ | ⟨-, rfl⟩
    · cases htop
    · rfl
  | .whileLoop .. | .mixinBlock .. | .filter .. =>
    exact (lowerNode_eq_ok h).elim

/-- Nodes leave no children exactly if they vanish. -/
theorem lowerNodes_hollow {reader : SnippetReader} (nodes : List Node) {ts : List Target}
    (h : (lowerNodes ⟨reader, true⟩ false nodes).result = .ok ts) :
    isHollow ts = allVanish reader nodes := by
  match nodes with
  | [] =>
    obtain rfl := lowerNodes_eq_ok h
    rfl
  | node :: rest =>
    obtain ⟨l, more, hl, hmore, rfl⟩ := lowerNodes_eq_ok h
    rw [isHollow_append, lowerNode_hollow node hl, lowerNodes_hollow rest hmore, allVanish]

end

/-! ## Programs -/

theorem emptyArm?_slotChoice (name : String) (children : List Child) :
    Part.emptyArm? (.expr (slotChoice name children)) =
      if children.isEmpty then some (slotChoice name children) else none := by
  cases children <;> rfl

theorem hollowSlot?_untraced {reader : SnippetReader} {node : Node} (h : leavesTrace true node = false) :
    hollowSlot? reader node = none := by
  unfold hollowSlot?
  split
  · rw [leavesTrace, Bool.true_and] at h
    simp [h]
  · rfl

/-- Empty arms, in a layout and in any other file. -/
def emptyArmTrace (reader : SnippetReader) (layout : Bool) : Trace ⟨reader, layout⟩ Expr where
  ofPart := Part.emptyArm?
  ofNode node := if layout then hollowSlot? reader node else none
  frame _ h := Part.emptyArm?_of_isFrame h
  untraced node h := by
    cases layout with
    | false => rfl
    | true => exact hollowSlot?_untraced h
  slot name mode nodes span targets hlayout hnodes htargets := by
    obtain rfl : layout = true := hlayout
    have hempty : nodes.isEmpty = false := by simpa using hnodes
    have hhollow := lowerNodes_hollow nodes htargets
    rw [← childrenOf_isEmpty] at hhollow
    rw [emptyArm?_slotChoice, if_pos rfl, hollowSlot?, ← hhollow, hempty, Bool.not_false, Bool.true_and]
    split
    · rename_i hchildren
      rw [List.isEmpty_iff.mp hchildren]
    · rfl
  mixin _ _ _ _ _ := by
    cases layout <;> rfl

variable {reader : SnippetReader} {file : Option String} {d : Document} {m : Module}

/-- Only a layout has empty arms. -/
theorem emptyArmTrace_found_of_not_layout (nodes : List Node) :
    (emptyArmTrace reader false).found nodes = [] :=
  List.filterMap_eq_nil_iff.mpr fun _ _ => rfl

/-- **Empty fragments as arms.** In the program of any document, the conditionals with an empty fragment
for an arm are the slots of a layout's blocks whose content vanishes, one for each such block; all
other arms are not empty. -/
theorem emptyArms_convert (reader : SnippetReader) (file : Option String) (d : Document) (m : Module)
    (h : (convert reader file d).result = .ok m) :
    m.program.emptyArms ~
      if roleOf d = .layout then (preorder d.nodes).filterMap (hollowSlot? reader) else [] := by
  by_cases hfiller : ∃ base, (contextOf file d).role = .slotFiller base
  · obtain ⟨base, hrole⟩ := hfiller
    have hnone : m.program.emptyArms = [] := by
      apply List.eq_nil_iff_forall_not_mem.mpr
      intro e he
      rcases (emptyArmTrace reader false).traced_slotFiller hrole h he with
        ⟨o, -, hnode⟩ | ⟨block, -, init, hpart⟩
      · cases hnode
      · cases hpart
    rw [role_contextOf] at hrole
    rw [hnone, hrole]
    exact List.Perm.refl _
  · have hrole : ∀ base, (contextOf file d).role ≠ .slotFiller base := fun base hbase =>
      hfiller ⟨base, hbase⟩
    have htraced := (emptyArmTrace reader ((contextOf file d).role = .layout)).traced_component hrole h
    refine htraced.trans ?_
    rw [role_contextOf]
    by_cases hlayout : roleOf d = .layout
    · rw [decide_eq_true hlayout, if_pos hlayout]
      exact List.Perm.refl _
    · rw [decide_eq_false hlayout, if_neg hlayout, emptyArmTrace_found_of_not_layout]

/-- A block that only includes a file, which is not rendered there, and one with a text. -/
def hollowContent : Document :=
  ⟨[.namedBlock "content" .replace [.includeFile ⟨"nav", none⟩ 3 ⟨16, 27⟩] ⟨0, 13⟩,
    .namedBlock "foot" .replace [.text "x" ⟨41, 42⟩] ⟨28, 38⟩], 43⟩

theorem hollowContent_emptyArm : ∃ m, (convert noScript none hollowContent).result = .ok m ∧
    m.program.emptyArms =
      [.conditional (.ident "Content") (.markup (.selfClosing "Content")) (.fragment [])] := by
  have harms := emptyArms_convert noScript none hollowContent _ rfl
  exact ⟨_, rfl, List.perm_singleton.mp harms⟩

end PugComponents.Component
