import PugComponents.Proofs.Component.Assemblies
import PugComponents.Proofs.Distinct
import PugComponents.Proofs.Jsx.Parts

/- The slots of a layout. Two walks over a template have to agree: one collects
   the names of the declared blocks, from which the parameter of the component is
   made, the other lowers the blocks to the slots that the component renders.
   Lowering goes into mixin definitions and the collection does not.
   `slot_bound_iff`: every block that is lowered shows its slot in the program,
   and the slot is bound unless the block stands in a mixin definition and no
   declared block has the same component. -/
namespace PugComponents.Component

open Component.Lower
open Jsx
open Link (slotName blockNames blockNamesOf blockNamesOfAlternates blockNamesOfBranches slotsOf)
open Script (SnippetReader)
open Template (Node Branch Alternate Document)

/-! ## Blocks that are lowered -/

/-- A named block that lowering comes to. -/
structure LoweredBlock where
  name : String
  /-- The block has content, which is rendered if nothing fills the slot. -/
  hasContent : Bool
  /-- The block stands in a mixin definition. -/
  inMixin : Bool
  deriving DecidableEq, Repr

mutual

/-- The named blocks of a node that lowering comes to, in the order of the source. -/
def loweredBlocks : Node → List LoweredBlock
  | .namedBlock name _ nodes _ =>
    ⟨name, !nodes.isEmpty, false⟩ :: loweredBlocksOf nodes
  | .group nodes _ => loweredBlocksOf nodes
  | .tag _ _ _ children _ _ => loweredBlocksOf children
  | .each _ _ _ body _ => loweredBlocksOf body
  | .conditional _ consequent alternates _ =>
    loweredBlocksOf consequent ++ loweredBlocksOfAlternates alternates
  | .caseOf _ branches _ => loweredBlocksOfBranches branches
  | .mixinDefinition _ _ body _ => (loweredBlocksOf body).map ({ · with inMixin := true })
  | _ => []

/-- The named blocks of nodes. -/
def loweredBlocksOf : List Node → List LoweredBlock
  | [] => []
  | node :: rest => loweredBlocks node ++ loweredBlocksOf rest

/-- The named blocks in the further branches of a conditional, which end with an `else`. -/
def loweredBlocksOfAlternates : List Alternate → List LoweredBlock
  | [] => []
  | .orElse nodes _ :: _ => loweredBlocksOf nodes
  | .orIf _ nodes _ :: rest => loweredBlocksOf nodes ++ loweredBlocksOfAlternates rest

/-- The named blocks in the branches of a `case`. -/
def loweredBlocksOfBranches : List Branch → List LoweredBlock
  | [] => []
  | .bare .. :: rest => loweredBlocksOfBranches rest
  | .block _ nodes _ :: rest => loweredBlocksOf nodes ++ loweredBlocksOfBranches rest

end

variable {parts : List Part}

namespace LoweredBlock

/-- The slot of a block is among the parts: the component alone, or behind a test of whether it is
there. -/
def ShownIn (b : LoweredBlock) (parts : List Part) : Prop :=
  if b.hasContent then
    ∃ children, .expr (.conditional (.ident (slotName b.name))
      (.markup (.selfClosing (slotName b.name))) (.fragment children)) ∈ parts
  else .markup (.selfClosing (slotName b.name)) ∈ parts

theorem ShownIn.mono {b : LoweredBlock} {more : List Part} (h : b.ShownIn parts)
    (hsub : parts ⊆ more) : b.ShownIn more := by
  by_cases hcontent : b.hasContent = true
  · rw [ShownIn, if_pos hcontent] at *
    obtain ⟨children, h⟩ := h
    exact ⟨children, hsub h⟩
  · rw [ShownIn, if_neg hcontent] at *
    exact hsub h

end LoweredBlock

/-! ## Every block that is lowered shows its slot -/

/-- The targets show the slots of these blocks. -/
def ShowsSlots (targets : List Target) (blocks : List LoweredBlock) : Prop :=
  ∀ b ∈ blocks, b.ShownIn (targets.flatMap targetParts)

namespace ShowsSlots

variable {targets more : List Target} {blocks others : List LoweredBlock}

theorem nil : ShowsSlots targets [] := fun _ h => nomatch h

theorem append (h : ShowsSlots targets blocks) (h' : ShowsSlots more others) :
    ShowsSlots (targets ++ more) (blocks ++ others) := by
  intro b hb
  rw [List.flatMap_append]
  rcases List.mem_append.mp hb with hb | hb
  · exact (h b hb).mono (List.subset_append_left _ _)
  · exact (h' b hb).mono (List.subset_append_right _ _)

/-- The slots are shown by whatever has the targets as children. -/
theorem children (h : ShowsSlots targets blocks) (hsub : childParts (childrenOf targets) ⊆ parts) :
    ∀ b ∈ blocks, b.ShownIn parts :=
  fun b hb => (h b hb).mono (List.Subset.trans (targetParts_subset targets).1 hsub)

/-- The slots are shown by whatever has the targets as its body. -/
theorem body (h : ShowsSlots targets blocks) (hsub : bodyParts (bodyOf targets) ⊆ parts) :
    ∀ b ∈ blocks, b.ShownIn parts :=
  fun b hb => (h b hb).mono (List.Subset.trans (targetParts_subset targets).2 hsub)

theorem emptySlot (name : String) :
    ShowsSlots [Component.slot (slotName name) none] [⟨name, false, false⟩] := by
  intro b hb
  obtain rfl := List.mem_singleton.mp hb
  simp [LoweredBlock.ShownIn, Component.slot, targetParts, childParts, Markup.selfClosing, markupParts]

/-- A slot with content shows itself behind a test, and the slots of its content. -/
theorem slot (h : ShowsSlots targets blocks) (name : String) :
    ShowsSlots [Component.slot (slotName name) (some (childrenOf targets))]
      (⟨name, true, false⟩ :: blocks) := by
  intro b hb
  cases hb with
  | head =>
    rw [LoweredBlock.ShownIn, if_pos rfl]
    exact ⟨childrenOf targets, by simp [Component.slot, targetParts, childParts, exprParts]⟩
  | tail _ hb =>
    refine h.children ?_ b hb
    refine List.Subset.trans (childParts_subset_fragment _) fun p hp => ?_
    simp [Component.slot, targetParts, childParts, exprParts, hp]

end ShowsSlots

/-- The fragment of a branch holds the parts of the branch. -/
theorem childParts_subset_branchValue (children : List Child) :
    childParts children ⊆ exprParts (branchValue children) := by
  unfold branchValue
  split
  · rename_i h
    rw [List.isEmpty_iff.mp h]
    exact List.nil_subset _
  · exact childParts_subset_fragment children

theorem caseParts_switchCase (test : Option Expr) (body : List Stmt) (rest : List SwitchCase) :
    bodyParts body ++ caseParts rest ⊆ caseParts (switchCase test body :: rest) := by
  cases test with
  | none => exact fun _ h => h
  | some e =>
    simp only [switchCase, caseParts, List.append_assoc]
    exact List.subset_append_right _ _

variable {setting : Setting}

mutual

/-- The targets of a node show the slots of the blocks in it. -/
theorem lowerNode_showsSlots (hlayout : setting.layout = true) (top : Bool) (node : Node)
    {l : Lowered} (h : (lowerNode setting top node).result = .ok l) :
    ShowsSlots l.targets (loweredBlocks node) := by
  match node with
  | .namedBlock name mode nodes span =>
    rw [loweredBlocks]
    rcases lowerNode_eq_ok h with ⟨hplain, -⟩ | ⟨-, rfl, rfl⟩ | ⟨-, hnodes, ts, hts, rfl⟩
    · rw [hlayout] at hplain
      cases hplain
    · exact .emptySlot name
    · rw [List.isEmpty_eq_false_iff.mpr hnodes]
      exact (lowerNodes_showsSlots hlayout false nodes hts).slot name
  | .group nodes span =>
    obtain ⟨ts, hts, rfl⟩ := lowerNode_eq_ok h
    rw [loweredBlocks]
    exact lowerNodes_showsSlots hlayout false nodes hts
  | .tag name attributes spreads children selfClosing span =>
    obtain ⟨list, ts, hlist, hts, rfl⟩ := lowerNode_eq_ok h
    rw [loweredBlocks]
    refine (lowerNodes_showsSlots hlayout false children hts).children fun p hp => ?_
    simp [Lowered.targets, targetParts, childParts, markupParts, hp]
  | .each collection item key body span =>
    obtain ⟨value, ts, hvalue, hts, rfl⟩ := lowerNode_eq_ok h
    rw [loweredBlocks]
    refine (lowerNodes_showsSlots hlayout false body hts).children ?_
    refine List.Subset.trans (childParts_subset_fragment _) fun p hp => ?_
    simp [Lowered.targets, targetParts, childParts, mapCall, markupParts, exprParts, argumentParts,
      hp]
  | .conditional test consequent alternates span =>
    obtain ⟨value, ts, other, hvalue, hts, hother, rfl⟩ := lowerNode_eq_ok h
    rw [loweredBlocks]
    intro b hb
    rcases List.mem_append.mp hb with hb | hb
    · refine (lowerNodes_showsSlots hlayout false consequent hts).children ?_ b hb
      refine List.Subset.trans (childParts_subset_branchValue _) fun p hp => ?_
      simp [Lowered.targets, targetParts, exprParts, hp]
    · refine (lowerAlternates_showsSlots hlayout alternates hother b hb).mono fun p hp => ?_
      simp [Lowered.targets, targetParts, exprParts, hp]
  | .caseOf subject branches span =>
    obtain ⟨value, cases', hvalue, hcases, rfl⟩ := lowerNode_eq_ok h
    rw [loweredBlocks]
    intro b hb
    refine (lowerBranches_showsSlots hlayout branches hcases b hb).mono fun p hp => ?_
    simp [Lowered.targets, targetParts, childParts, switchCall, markupParts, Expr.invoked, exprParts,
      bodyParts, stmtParts, hp]
  | .mixinDefinition name arguments body span =>
    obtain ⟨ts, hts, rfl⟩ := lowerNode_eq_ok h
    rw [loweredBlocks]
    intro b hb
    obtain ⟨b', hb', rfl⟩ := List.mem_map.mp hb
    have hshown : b'.ShownIn _ :=
      (lowerNodes_showsSlots hlayout false body hts).body (List.Subset.refl _) b' hb'
    refine hshown.mono fun p hp => ?_
    simp [Lowered.targets, targetParts, stmtParts, exprParts, hp]
  | .text .. | .code .. | .comment .. | .doctype .. | .mixinCall .. | .interpolatedTag ..
  | .includeFile .. | .rawInclude .. | .extendsFile .. | .whileLoop .. | .mixinBlock .. | .filter .. =>
    exact .nil

/-- The targets of nodes show the slots of the blocks in them. -/
theorem lowerNodes_showsSlots (hlayout : setting.layout = true) (top : Bool)
    (nodes : List Node) {ts : List Target} (h : (lowerNodes setting top nodes).result = .ok ts) :
    ShowsSlots ts (loweredBlocksOf nodes) := by
  match nodes with
  | [] => exact .nil
  | node :: rest =>
    obtain ⟨l, more, hl, hmore, rfl⟩ := lowerNodes_eq_ok h
    rw [loweredBlocksOf]
    exact (lowerNode_showsSlots hlayout top node hl).append
      (lowerNodes_showsSlots hlayout top rest hmore)

/-- The value of further branches shows the slots of the blocks in them. -/
theorem lowerAlternates_showsSlots (hlayout : setting.layout = true)
    (alternates : List Alternate) {e : Expr}
    (h : (lowerAlternates setting alternates).result = .ok e) :
    ∀ b ∈ loweredBlocksOfAlternates alternates, b.ShownIn (exprParts e) := by
  match alternates with
  | [] => rw [loweredBlocksOfAlternates]; exact fun _ hb => nomatch hb
  | .orElse nodes _ :: _ =>
    obtain ⟨ts, hts, rfl⟩ := lowerAlternates_eq_ok h
    rw [loweredBlocksOfAlternates]
    exact (lowerNodes_showsSlots hlayout false nodes hts).children
      (childParts_subset_branchValue _)
  | .orIf test nodes span :: rest =>
    obtain ⟨value, ts, other, hvalue, hts, hother, rfl⟩ := lowerAlternates_eq_ok h
    rw [loweredBlocksOfAlternates]
    intro b hb
    rcases List.mem_append.mp hb with hb | hb
    · refine (lowerNodes_showsSlots hlayout false nodes hts).children ?_ b hb
      refine List.Subset.trans (childParts_subset_branchValue _) fun p hp => ?_
      simp [exprParts, hp]
    · refine (lowerAlternates_showsSlots hlayout rest hother b hb).mono fun p hp => ?_
      simp [exprParts, hp]

/-- The cases of a `switch` show the slots of the blocks in the branches. -/
theorem lowerBranches_showsSlots (hlayout : setting.layout = true)
    (branches : List Branch) {cases' : List SwitchCase}
    (h : (lowerBranches setting branches).result = .ok cases') :
    ∀ b ∈ loweredBlocksOfBranches branches, b.ShownIn (caseParts cases') := by
  match branches with
  | [] => rw [loweredBlocksOfBranches]; exact fun _ hb => nomatch hb
  | .bare test span :: rest =>
    obtain ⟨value, more, hvalue, hmore, rfl⟩ := lowerBranches_eq_ok h
    rw [loweredBlocksOfBranches]
    intro b hb
    refine (lowerBranches_showsSlots hlayout rest hmore b hb).mono ?_
    exact List.Subset.trans (List.subset_append_right _ _) (caseParts_switchCase value [] more)
  | .block test nodes span :: rest =>
    obtain ⟨value, ts, more, hvalue, hts, hmore, rfl⟩ := lowerBranches_eq_ok h
    rw [loweredBlocksOfBranches]
    have hcase := caseParts_switchCase value (bodyOf ts) more
    intro b hb
    rcases List.mem_append.mp hb with hb | hb
    · exact (lowerNodes_showsSlots hlayout false nodes hts).body
        (List.Subset.trans (List.subset_append_left _ _) hcase) b hb
    · exact (lowerBranches_showsSlots hlayout rest hmore b hb).mono
        (List.Subset.trans (List.subset_append_right _ _) hcase)

end

/-! ## Blocks outside mixin definitions are declared -/

mutual

theorem declared_of_loweredBlocks (node : Node) :
    ∀ b ∈ loweredBlocks node, b.inMixin = false → b.name ∈ blockNames node := by
  intro b hb hout
  match node with
  | .namedBlock name _ nodes _ =>
    rw [loweredBlocks] at hb
    rw [blockNames]
    cases hb with
    | head => exact List.mem_cons_self
    | tail _ hb => exact List.mem_cons_of_mem _ (declared_of_loweredBlocksOf nodes b hb hout)
  | .group nodes _ | .tag _ _ _ nodes _ _ | .each _ _ _ nodes _ =>
    rw [loweredBlocks] at hb
    rw [blockNames]
    exact declared_of_loweredBlocksOf nodes b hb hout
  | .conditional _ consequent alternates _ =>
    rw [loweredBlocks] at hb
    rw [blockNames]
    rcases List.mem_append.mp hb with hb | hb
    · exact List.mem_append_left _ (declared_of_loweredBlocksOf consequent b hb hout)
    · exact List.mem_append_right _ (declared_of_loweredBlocksOfAlternates alternates b hb hout)
  | .caseOf _ branches _ =>
    rw [loweredBlocks] at hb
    rw [blockNames]
    exact declared_of_loweredBlocksOfBranches branches b hb hout
  | .mixinDefinition _ _ body _ =>
    rw [loweredBlocks] at hb
    obtain ⟨b', _, rfl⟩ := List.mem_map.mp hb
    cases hout
  | .text .. | .code .. | .comment .. | .doctype .. | .mixinCall .. | .interpolatedTag ..
  | .includeFile .. | .rawInclude .. | .extendsFile .. | .whileLoop .. | .mixinBlock .. | .filter .. =>
    exact nomatch hb

theorem declared_of_loweredBlocksOf (nodes : List Node) :
    ∀ b ∈ loweredBlocksOf nodes, b.inMixin = false → b.name ∈ blockNamesOf nodes := by
  intro b hb hout
  match nodes with
  | [] => exact nomatch hb
  | node :: rest =>
    rw [loweredBlocksOf] at hb
    rw [blockNamesOf]
    rcases List.mem_append.mp hb with hb | hb
    · exact List.mem_append_left _ (declared_of_loweredBlocks node b hb hout)
    · exact List.mem_append_right _ (declared_of_loweredBlocksOf rest b hb hout)

theorem declared_of_loweredBlocksOfAlternates (alternates : List Alternate) :
    ∀ b ∈ loweredBlocksOfAlternates alternates, b.inMixin = false →
      b.name ∈ blockNamesOfAlternates alternates := by
  intro b hb hout
  match alternates with
  | [] => exact nomatch hb
  | .orElse nodes _ :: _ =>
    rw [loweredBlocksOfAlternates] at hb
    rw [blockNamesOfAlternates]
    exact declared_of_loweredBlocksOf nodes b hb hout
  | .orIf _ nodes _ :: rest =>
    rw [loweredBlocksOfAlternates] at hb
    rw [blockNamesOfAlternates]
    rcases List.mem_append.mp hb with hb | hb
    · exact List.mem_append_left _ (declared_of_loweredBlocksOf nodes b hb hout)
    · exact List.mem_append_right _ (declared_of_loweredBlocksOfAlternates rest b hb hout)

theorem declared_of_loweredBlocksOfBranches (branches : List Branch) :
    ∀ b ∈ loweredBlocksOfBranches branches, b.inMixin = false →
      b.name ∈ blockNamesOfBranches branches := by
  intro b hb hout
  match branches with
  | [] => exact nomatch hb
  | .bare .. :: rest =>
    rw [loweredBlocksOfBranches] at hb
    rw [blockNamesOfBranches]
    exact declared_of_loweredBlocksOfBranches rest b hb hout
  | .block _ nodes _ :: rest =>
    rw [loweredBlocksOfBranches] at hb
    rw [blockNamesOfBranches]
    rcases List.mem_append.mp hb with hb | hb
    · exact List.mem_append_left _ (declared_of_loweredBlocksOf nodes b hb hout)
    · exact List.mem_append_right _ (declared_of_loweredBlocksOfBranches rest b hb hout)

end

/-! ## The component of a layout -/

theorem bodyParts_mem {s : Stmt} {body : List Stmt} (h : s ∈ body) : stmtParts s ⊆ bodyParts body := by
  induction body with
  | nil => cases h
  | cons first rest ih =>
    rw [bodyParts]
    cases h with
    | head => exact List.subset_append_left _ _
    | tail _ h => exact List.Subset.trans (ih h) (List.subset_append_right _ _)

theorem childParts_mem {c : Child} {children : List Child} (h : c ∈ children) :
    childParts [c] ⊆ childParts children := by
  induction children with
  | nil => cases h
  | cons first rest ih =>
    rw [childParts_cons first rest]
    cases h with
    | head => exact List.subset_append_left _ _
    | tail _ h => exact List.Subset.trans (ih h) (List.subset_append_right _ _)

theorem childParts_subset_returnValue (children : List Child) :
    childParts children ⊆ exprParts (returnValue children) := by
  unfold returnValue
  split
  · exact List.nil_subset _
  · simp [childParts, exprParts]
  · exact childParts_subset_fragment _

/-- The body of a component holds the parts of its targets. -/
theorem targetParts_subset_component (targets : List Target) :
    targets.flatMap targetParts ⊆ bodyParts (targets.filterMap Target.statement? ++
      [.result (returnValue (targets.filterMap Target.rendered?))]) := by
  intro p hp
  obtain ⟨t, ht, hp⟩ := List.mem_flatMap.mp hp
  rw [bodyParts_append]
  have hrendered (c : Child) (hc : t.rendered? = some c) (hp : p ∈ childParts [c]) :
      p ∈ bodyParts [.result (returnValue (targets.filterMap Target.rendered?))] := by
    have hmem : c ∈ targets.filterMap Target.rendered? := List.mem_filterMap.mpr ⟨t, ht, hc⟩
    simp only [bodyParts, stmtParts, List.append_nil, List.mem_cons]
    exact .inr (childParts_subset_returnValue _ (childParts_mem hmem hp))
  cases t with
  | child c => exact List.mem_append_right _ (hrendered c rfl hp)
  | bare e =>
    refine List.mem_append_right _ (hrendered (.container e) rfl ?_)
    simpa [targetParts, childParts] using hp
  | statement s =>
    exact List.mem_append_left _ (bodyParts_mem (List.mem_filterMap.mpr ⟨_, ht, rfl⟩) hp)
  | imported i => cases hp
  | placeholder => cases hp

/-- What a layout is converted to: its only parameter pairs the declared blocks with their slots. -/
theorem convert_layout {reader : SnippetReader} {file : Option String} {d : Document} {m : Module}
    (hrole : (contextOf file d).role = .layout) (h : (convert reader file d).result = .ok m) :
    ∃ targets, (lowerNodes ⟨reader, true⟩ true d.nodes).result = .ok targets ∧
      m.program.params = [.destructured ((slotsOf d).map fun name => (name, slotName name))] ∧
      m.program.body = targets.filterMap Target.statement? ++
        [.result (returnValue (targets.filterMap Target.rendered?))] := by
  obtain ⟨x, targets, rfl, htargets, -, hprogram⟩ := convert_component (ne_slotFiller (.inr hrole)) h
  rw [hprogram]
  refine ⟨targets, ?_, ?_, rfl⟩
  · simpa [hrole] using htargets
  · simp [moduleOf, paramsOf, hrole, slots_contextOf]

/-- **When the slots of a layout are bound.** A layout has one parameter. Every block that is lowered
shows its slot in the component, and the slot is bound by the parameter unless the block stands in a
mixin definition and its component is that of no declared block. -/
theorem slot_bound_iff (reader : SnippetReader) (file : Option String) (d : Document) (m : Module)
    (hrole : (contextOf file d).role = .layout) (h : (convert reader file d).result = .ok m) :
    ∃ bindings, m.program.params = [.destructured bindings] ∧
      ∀ b ∈ loweredBlocksOf d.nodes, b.ShownIn m.program.parts ∧
        (slotName b.name ∈ bindings.map (·.2) ↔
          (b.inMixin = true → ∃ name ∈ blockNamesOf d.nodes, slotName name = slotName b.name)) := by
  obtain ⟨targets, htargets, hparams, hbody⟩ := convert_layout hrole h
  refine ⟨_, hparams, fun b hb => ⟨?_, ?_⟩⟩
  · have hshown := lowerNodes_showsSlots rfl true d.nodes htargets b hb
    rw [Program.parts, hbody]
    exact hshown.mono (targetParts_subset_component targets)
  · have hbound : slotName b.name ∈
        ((slotsOf d).map fun name => (name, slotName name)).map (·.2) ↔
          ∃ name ∈ blockNamesOf d.nodes, slotName name = slotName b.name := by
      simp [slotsOf, mem_distinct]
    rw [hbound]
    cases hin : b.inMixin with
    | true => simp
    | false =>
      have hdeclared := declared_of_loweredBlocksOf d.nodes b hb hin
      simpa using ⟨b.name, hdeclared, rfl⟩

/-- Refuses every snippet. -/
def noScript : SnippetReader where
  expression _ := .error .malformed
  statements _ := .error .malformed

/-- A layout with a block at its top level, and another one with content in a mixin definition. -/
def asideInMixin : Document :=
  ⟨[.namedBlock "content" .replace [] ⟨0, 13⟩,
    .mixinDefinition "card" none
      [.namedBlock "aside" .replace [.tag "p" [] [] [.text "x" ⟨45, 46⟩] false ⟨43, 46⟩] ⟨27, 38⟩]
      ⟨14, 24⟩], 47⟩

/-- The slot of a block in a mixin definition is shown but not bound. -/
theorem asideInMixin_unbound : (contextOf none asideInMixin).role = .layout ∧
    ∃ m, (convert noScript none asideInMixin).result = .ok m ∧
      ∃ bindings, m.program.params = [.destructured bindings] ∧
        (⟨"aside", true, true⟩ : LoweredBlock).ShownIn m.program.parts ∧
        slotName "aside" ∉ bindings.map (·.2) := by
  obtain ⟨bindings, hparams, hblocks⟩ := slot_bound_iff noScript none asideInMixin _ rfl rfl
  obtain ⟨hshown, hbound⟩ := hblocks ⟨"aside", true, true⟩ (by decide)
  refine ⟨rfl, _, rfl, bindings, hparams, hshown, fun hmem => ?_⟩
  exact absurd (hbound.mp hmem rfl) (by decide)

end PugComponents.Component
