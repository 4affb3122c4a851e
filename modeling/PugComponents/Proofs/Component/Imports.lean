import PugComponents.Proofs.Component.Records
import PugComponents.Proofs.Template.TopLevel

/- The imports of a module. An import that lowering finds directly in a document
   stays among the targets, one from further below goes to the journal, and the
   module lists the former first. In a document that was read from a source the
   two are told apart by where the reference stands: there are no anonymous groups,
   and a file that is converted without slots has no block at its top level, so no
   node directly in the document gives its own targets to the document
   (`importsOf_lowerNodes`). -/
namespace PugComponents.Component

open Component.Lower (result_bind_eq_ok result_pure_eq_ok result_fail_ne_ok)
open Jsx (Import)
open Link (blockNamesOf importOf roleOf slotsOf)
open Script (SnippetReader)
open Template (Node Document preorder map_node_occurrences direct_mem_occurrences
  parse_ungrouped)

/-! ## Imports among the targets of a document -/

/-- The step gives these imports to the list that its node stands in. -/
def Gives (x : Lower Lowered) (is : List Import) : Prop :=
  ∀ l, x.result = .ok l → importsOf l.targets = is

namespace Gives

variable {is : List Import}

theorem pure {l : Lowered} (h : importsOf l.targets = is) : Gives (Pure.pure l) is := by
  intro l' hl
  rw [← result_pure_eq_ok.mp hl, h]

theorem bind {α : Type} {x : Lower α} {f : α → Lower Lowered} (hf : ∀ a, Gives (f a) is) :
    Gives (x >>= f) is := by
  intro l hl
  obtain ⟨a, -, hl⟩ := result_bind_eq_ok.mp hl
  exact hf a l hl

theorem fail (e : Failure) : Gives (.fail e) is := fun _ h => absurd h result_fail_ne_ok

end Gives

/-- The targets of the node are not spliced into the list that the node stands in. -/
structure Whole (setting : Setting) (node : Node) : Prop where
  ungrouped : node.Ungrouped
  /-- A named block is rendered as a slot. -/
  slot : setting.layout = true ∨ standsOutside node = true

variable {setting : Setting}

/-- A node gives its own import, if it is one, and no other. -/
theorem lowerNode_gives {node : Node} (hwhole : Whole setting node) (top : Bool) :
    Gives (lowerNode setting top node) (importAt? ⟨node, top⟩).toList := by
  cases node with
  | text value _ =>
    rw [lowerNode]
    apply Gives.pure
    split <;> rfl
  | code value kind block span =>
    rw [lowerNode]
    exact fun _ => importsOf_code
  | group nodes _ => exact hwhole.ungrouped.elim
  | namedBlock name _ nodes _ =>
    have hlayout : setting.layout = true := hwhole.slot.resolve_right nofun
    rw [lowerNode, if_neg (by simp [hlayout])]
    split
    · exact .pure (importsOf_slot _ _)
    · exact .bind fun _ => .bind fun _ => .pure (importsOf_slot _ _)
  | comment | doctype | extendsFile => rw [lowerNode]; exact .pure rfl
  | caseOf | mixinDefinition => rw [lowerNode]; exact .bind fun _ => .bind fun _ => .pure rfl
  | conditional =>
    rw [lowerNode]
    exact .bind fun _ => .bind fun _ => .bind fun _ => .bind fun _ => .pure rfl
  | each | tag => rw [lowerNode]; exact .bind fun _ => .bind fun _ => .bind fun _ => .pure rfl
  | whileLoop | mixinBlock | filter => rw [lowerNode]; exact .fail _
  | mixinCall | interpolatedTag | rawInclude => rw [lowerNode]; exact .bind fun _ => .pure rfl
  | includeFile file column span =>
    rw [lowerNode]
    split
    · rename_i hfirst
      have himport : importAt? ⟨.includeFile file column span, top⟩ = some (importOf file) := if_pos hfirst
      rw [himport]
      exact .pure rfl
    · rename_i hother
      have himport : importAt? ⟨.includeFile file column span, top⟩ = none := if_neg hother
      rw [himport]
      exact .bind fun _ => .pure rfl

/-- The imports among the targets of nodes are their own, in the same order. -/
theorem importsOf_lowerNodes {top : Bool} {nodes : List Node} (hwhole : ∀ node ∈ nodes, Whole setting node)
    {targets : List Target} (h : (lowerNodes setting top nodes).result = .ok targets) :
    importsOf targets = nodes.filterMap fun node => importAt? ⟨node, top⟩ := by
  induction nodes generalizing targets with
  | nil =>
    rw [lowerNodes] at h
    rw [← result_pure_eq_ok.mp h]
    rfl
  | cons node rest ih =>
    rw [lowerNodes] at h
    obtain ⟨l, hl, h⟩ := result_bind_eq_ok.mp h
    obtain ⟨_, -, h⟩ := result_bind_eq_ok.mp h
    obtain ⟨more, hmore, h⟩ := result_bind_eq_ok.mp h
    have hfirst := lowerNode_gives (hwhole node List.mem_cons_self) top l hl
    have hrest := ih (fun other hother => hwhole other (List.mem_cons_of_mem _ hother)) hmore
    calc importsOf targets
      _ = importsOf (l.targets ++ more) := by rw [result_pure_eq_ok.mp h]
      _ = importsOf l.targets ++ importsOf more := List.filterMap_append
      _ = (importAt? ⟨node, top⟩).toList ++ rest.filterMap fun node => importAt? ⟨node, top⟩ := by
        rw [hfirst, hrest]
      _ = (node :: rest).filterMap fun node => importAt? ⟨node, top⟩ := by
        rw [List.filterMap_cons]
        cases importAt? ⟨node, top⟩ <;> rfl

/-! ## Blocks at the top level -/

theorem mem_blockNamesOf {name : String} {mode : Template.BlockMode} {content nodes : List Node}
    {span : Template.Span} (h : .namedBlock name mode content span ∈ nodes) :
    name ∈ blockNamesOf nodes := by
  induction nodes with
  | nil => cases h
  | cons node rest ih =>
    rw [blockNamesOf]
    cases h with
    | head => exact List.mem_append_left _ List.mem_cons_self
    | tail _ h => exact List.mem_append_right _ (ih h)

/-- A file that takes no part in composition has no block at its top level. -/
theorem standsOutside_of_standalone {d : Document} (hrole : roleOf d = .standalone) :
    ∀ node ∈ d.nodes, standsOutside node = true := by
  intro node hnode
  cases node with
  | namedBlock name mode content span =>
    exfalso
    unfold roleOf at hrole
    split at hrole
    · -- the file extends a layout, and then blocks would fill its slots
      split at hrole
      · rename_i hnone
        have hblock : (name, mode) ∈ d.namedBlocks := List.mem_filterMap.mpr ⟨_, hnode, rfl⟩
        rw [List.isEmpty_iff.mp hnone] at hblock
        cases hblock
      · cases hrole
    · split at hrole
      · rename_i hnone
        have hslot : name ∈ slotsOf d := mem_distinct.mpr (mem_blockNamesOf hnode)
        rw [List.isEmpty_iff.mp hnone] at hslot
        cases hslot
      · cases hrole
  | _ => rfl

/-! ## Imports of a module -/

/-- Layouts are imported, and templates that are included directly and in the first column. -/
theorem importAt?_eq_some {o : Template.Occurrence} {i : Import} :
    importAt? o = some i ↔
      (∃ reference span, o.node = .extendsFile reference span ∧ i = importOf reference) ∨
        ∃ reference span, o = ⟨.includeFile reference 1 span, true⟩ ∧ i = importOf reference := by
  obtain ⟨node, direct⟩ := o
  constructor
  · intro h
    unfold importAt? at h
    split at h
    · rename_i reference span hnode
      exact .inl ⟨reference, span, hnode, (Option.some.inj h).symm⟩
    · rename_i reference column span hnode
      split at h
      · rename_i hfirst
        simp only [Bool.and_eq_true, beq_iff_eq] at hfirst
        obtain ⟨hdirect, hcolumn⟩ := hfirst
        rw [hcolumn] at hnode
        exact .inr ⟨reference, span, by rw [hdirect, ← hnode], (Option.some.inj h).symm⟩
      · cases h
    · cases h
  · rintro (⟨reference, span, hnode, rfl⟩ | ⟨reference, span, ho, rfl⟩)
    · rw [importAt?, hnode]
    · rw [ho]
      rfl

/-- A document names layouts at any depth, and includes templates directly. -/
theorem exists_importAt?_iff {d : Document} {i : Import} :
    (∃ o ∈ d.occurrences, importAt? o = some i) ↔
      (∃ reference span, .extendsFile reference span ∈ preorder d.nodes ∧ i = importOf reference) ∨
        ∃ reference span, .includeFile reference 1 span ∈ d.nodes ∧ i = importOf reference := by
  simp only [importAt?_eq_some]
  constructor
  · rintro ⟨o, ho, ⟨reference, span, hnode, hi⟩ | ⟨reference, span, rfl, hi⟩⟩
    · refine .inl ⟨reference, span, ?_, hi⟩
      rw [← map_node_occurrences true d.nodes, ← hnode]
      exact List.mem_map_of_mem ho
    · exact .inr ⟨reference, span, direct_mem_occurrences.mp ho, hi⟩
  · rintro (⟨reference, span, hmem, hi⟩ | ⟨reference, span, hmem, hi⟩)
    · rw [← map_node_occurrences true d.nodes] at hmem
      obtain ⟨o, ho, hnode⟩ := List.mem_map.mp hmem
      exact ⟨o, ho, .inl ⟨reference, span, hnode, hi⟩⟩
    · exact ⟨_, direct_mem_occurrences.mpr hmem, .inr ⟨reference, span, rfl, hi⟩⟩

/-- **Imports are neither lost nor invented.** The module of a template that fills no slots imports
every layout it names, at any depth outside the blocks of mixin calls, and every template that is
included directly in the document and in the first column; it imports nothing else and nothing twice.
The imports from the nodes directly in the document come first, each where it first occurs. -/
theorem parse_convert_imports (reader : SnippetReader) (file : Option String) (source : String)
    (m : Module)
    (hrole : (contextOf file (Document.parse source).1).role = .standalone ∨
      (contextOf file (Document.parse source).1).role = .layout)
    (h : (convert reader file (Document.parse source).1).result = .ok m) :
    m.program.imports.Nodup ∧
      (∀ i, i ∈ m.program.imports ↔
        (∃ reference span, .extendsFile reference span ∈ preorder (Document.parse source).1.nodes ∧
          i = importOf reference) ∨
        ∃ reference span, .includeFile reference 1 span ∈ (Document.parse source).1.nodes ∧
          i = importOf reference) ∧
      ((Document.parse source).1.nodes.filterMap fun node => importAt? ⟨node, true⟩).eraseDups <+:
        m.program.imports := by
  have hfiller := ne_slotFiller hrole
  refine ⟨nodup_imports_convert h, ?_, ?_⟩
  · intro i
    rw [mem_imports_convert h, converted_of_component (role_contextOf file _ ▸ hfiller),
      exists_importAt?_iff]
  · obtain ⟨x, targets, rfl, htargets, -, hprogram⟩ := convert_component hfiller h
    have hwhole : ∀ node ∈ (Document.parse source).1.nodes,
        Whole ⟨reader, (contextOf file (Document.parse source).1).role = .layout⟩ node := by
      intro node hnode
      refine ⟨parse_ungrouped source node hnode, ?_⟩
      rcases hrole with hstandalone | hlayout
      · rw [role_contextOf] at hstandalone
        exact .inr (standsOutside_of_standalone hstandalone node hnode)
      · exact .inl (decide_eq_true hlayout)
    rw [hprogram, moduleOf, ← importsOf_lowerNodes hwhole htargets, ← distinct_eq_eraseDups]
    exact distinct_isPrefix_append _ _

/-- A template names a layout in a tag and one at its top level, and includes a file twice. -/
def framedTemplate : String :=
  "include nav\nul\n  extends frame\n  include item\nextends base\ninclude nav.pug\n"

theorem framedTemplate_imports :
    (contextOf none (Document.parse framedTemplate).1).role = .standalone ∧
      ∃ m, (convert noScript none (Document.parse framedTemplate).1).result = .ok m ∧
        m.program.imports = [⟨"Nav", "nav"⟩, ⟨"Base", "base"⟩, ⟨"Frame", "frame"⟩] ∧
        m.program.imports.Nodup ∧ [⟨"Nav", "nav"⟩, ⟨"Base", "base"⟩] <+: m.program.imports := by
  have hrole : (contextOf none (Document.parse framedTemplate).1).role = .standalone := by
    decide +kernel
  have himports : (convert noScript none (Document.parse framedTemplate).1).result.toOption.map
      (·.program.imports) = some [⟨"Nav", "nav"⟩, ⟨"Base", "base"⟩, ⟨"Frame", "frame"⟩] := by
    decide +kernel
  have hdirect : ((Document.parse framedTemplate).1.nodes.filterMap fun node =>
      importAt? ⟨node, true⟩).eraseDups = [⟨"Nav", "nav"⟩, ⟨"Base", "base"⟩] := by
    decide +kernel
  cases hm : (convert noScript none (Document.parse framedTemplate).1).result with
  | error e =>
    rw [hm] at himports
    cases himports
  | ok m =>
    rw [hm] at himports
    obtain ⟨hnodup, -, hfirst⟩ := parse_convert_imports noScript none framedTemplate m (.inl hrole) hm
    rw [hdirect] at hfirst
    exact ⟨hrole, m, rfl, Option.some.inj himports, hnodup, hfirst⟩

end PugComponents.Component
