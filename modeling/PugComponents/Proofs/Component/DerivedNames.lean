import PugComponents.Proofs.Component.Bindings
import PugComponents.Proofs.Component.Imports
import PugComponents.Proofs.Component.Traces
import PugComponents.Proofs.Text.BindingNames

/- The names that a module binds. All of them are made of texts of the template
   project: the component and the imports are named after files, slots after blocks,
   and functions after mixins, whose names are kept if they are identifiers. So each
   of these names is an identifier exactly if the text it is made of is nameable
   (`derivedNames_legal_iff`). -/
namespace PugComponents.Jsx

/-- The name that a part binds. -/
def Part.boundName? : Part → Option String
  | .stmt (.binding name _) => some name
  | _ => none

/-- The names that the statements of a module bind. -/
def Program.boundNames (p : Program) : List String := p.parts.filterMap Part.boundName?

/-- The keys that a parameter takes apart, with the names they are bound to. -/
def Param.bindings : Param → List (String × String)
  | .destructured bindings => bindings
  | .ident _ => []

theorem Part.boundName?_of_isFrame {part : Part} (h : part.isFrame = true) : part.boundName? = none := by
  unfold boundName?
  split
  · cases h
  · rfl

end PugComponents.Jsx

namespace PugComponents.Component

open Jsx
open Link (FileContext baseName componentName importOf slotName)
open Script (SnippetReader)
open Template (Node Document map_node_occurrences)
open Text

/-- What follows the last slash of a path. -/
def lastSegment (path : String) : String :=
  String.ofList ((splitAtChar '/' path.toList).getLast?.getD [])

/-- The name of the mixin that a node defines. -/
def mixin? : Node → Option String
  | .mixinDefinition name _ _ _ => some name
  | _ => none

/-- The names of bindings, which are those of mixins. -/
def boundNameTrace (reader : SnippetReader) (layout : Bool) : Trace ⟨reader, layout⟩ String where
  ofPart := Part.boundName?
  ofNode node := (mixin? node).map mixinName
  frame _ h := Part.boundName?_of_isFrame h
  untraced node h := by
    cases node with
    | mixinDefinition => cases h
    | _ => rfl
  slot _ _ _ _ _ _ _ _ := rfl
  mixin _ _ _ _ _ := rfl

/-- A mixin keeps a name that is an identifier, and any other one is made into a name. -/
theorem isIdentifier_mixinName (name : String) :
    isIdentifier (mixinName name).toList = true ↔ isIdentifier name.toList = true ∨ Nameable name := by
  unfold mixinName
  split
  · rename_i hlegal
    exact iff_of_true hlegal (.inl hlegal)
  · rename_i hlegal
    rw [isIdentifier_bindingName]
    exact (or_iff_right hlegal).symm

variable {reader : SnippetReader} {file : Option String} {d : Document} {m : Module}

/-- A module has the name and the parameters of its context. -/
theorem program_convert (h : (convert reader file d).result = .ok m) :
    m.program.name = (contextOf file d).identifier ∧ m.program.params = paramsOf (contextOf file d) := by
  by_cases hfiller : ∃ base, (contextOf file d).role = .slotFiller base
  · obtain ⟨base, hrole⟩ := hfiller
    obtain ⟨x, y, outside, slots, -, -, -, -, -, hprogram⟩ := convert_slotFiller hrole h
    rw [hprogram]
    exact ⟨rfl, rfl⟩
  · have hrole : ∀ base, (contextOf file d).role ≠ .slotFiller base := fun base hbase =>
      hfiller ⟨base, hbase⟩
    obtain ⟨x, targets, -, -, -, hprogram⟩ := convert_component hrole h
    rw [hprogram]
    exact ⟨rfl, rfl⟩

/-- A name that a statement binds is the name of a mixin or of a block at the top level. -/
theorem mem_boundNames_convert (h : (convert reader file d).result = .ok m) {name : String}
    (hname : name ∈ m.program.boundNames) :
    (∃ written, (∃ o ∈ converted d, mixin? o.node = some written) ∧ name = mixinName written) ∨
      ∃ block ∈ d.namedBlocks.map (·.1), name = slotName block := by
  by_cases hfiller : ∃ base, (contextOf file d).role = .slotFiller base
  · obtain ⟨base, hrole⟩ := hfiller
    rcases (boundNameTrace reader false).traced_slotFiller hrole h hname with
      ⟨o, ho, hnode⟩ | ⟨block, hblock, init, hpart⟩
    · obtain ⟨written, hwritten, rfl⟩ := Option.map_eq_some_iff.mp hnode
      exact .inl ⟨written, ⟨o, ho, hwritten⟩, rfl⟩
    · have hmem : block.1 ∈ (blockContents d.nodes).map (·.1) := List.mem_map_of_mem hblock
      rw [blockContents_names, mem_distinct] at hmem
      exact .inr ⟨block.1, hmem, (Option.some.inj hpart).symm⟩
  · have hrole : ∀ base, (contextOf file d).role ≠ .slotFiller base := fun base hbase =>
      hfiller ⟨base, hbase⟩
    have htraced := (boundNameTrace reader _).traced_component hrole h
    obtain ⟨node, hnode, hseen⟩ := List.mem_filterMap.mp (htraced.subset hname)
    obtain ⟨written, hwritten, rfl⟩ := Option.map_eq_some_iff.mp hseen
    rw [← map_node_occurrences true d.nodes] at hnode
    obtain ⟨o, ho, rfl⟩ := List.mem_map.mp hnode
    rw [converted_of_component (role_contextOf file d ▸ hrole)]
    exact .inl ⟨written, ⟨o, ho, hwritten⟩, rfl⟩

/-- **Derived names.** A name that is made of a text is an identifier exactly if the text is nameable.
So the component of a module is legal if the name of its file is nameable, an import if the last segment
of its path is, and a slot if its block is; the name of a mixin can also be an identifier as it is
written. -/
theorem derivedNames_legal_iff (reader : SnippetReader) (file : Option String) (d : Document) (m : Module)
    (h : (convert reader file d).result = .ok m) :
    (∀ text, isIdentifier (bindingName text).toList = true ↔ Nameable text) ∧
    (isIdentifier m.program.name.toList = true ↔ ∀ path ∈ file, Nameable (baseName path)) ∧
    (∀ i ∈ m.program.imports, isIdentifier i.name.toList = true ↔ Nameable (lastSegment i.path)) ∧
    (∀ p ∈ m.program.params, ∀ b ∈ p.bindings, isIdentifier b.2.toList = true ↔ Nameable b.1) ∧
    ∀ name ∈ m.program.boundNames,
      (∃ written, (∃ o ∈ converted d, mixin? o.node = some written) ∧ name = mixinName written ∧
        (isIdentifier name.toList = true ↔ isIdentifier written.toList = true ∨ Nameable written)) ∨
      ∃ block ∈ d.namedBlocks.map (·.1), name = slotName block ∧
        (isIdentifier name.toList = true ↔ Nameable block) := by
  obtain ⟨hname, hparams⟩ := program_convert h
  refine ⟨isIdentifier_bindingName, ?_, ?_, ?_, ?_⟩
  · rw [hname]
    cases file with
    | none =>
      have hidentifier : (contextOf none d).identifier = "Template" := rfl
      rw [hidentifier]
      exact iff_of_true (by decide +kernel) nofun
    | some path =>
      have hidentifier : (contextOf (some path) d).identifier = bindingName (baseName path) := by
        rw [contextOf, FileContext.ofFile, FileContext.scan, componentName]
      rw [hidentifier, isIdentifier_bindingName]
      simp
  · intro i hi
    obtain ⟨o, -, himport⟩ := (mem_imports_convert h).mp hi
    obtain ⟨reference, rfl⟩ : ∃ reference, i = importOf reference := by
      rcases importAt?_eq_some.mp himport with ⟨reference, _, _, hi⟩ | ⟨reference, _, _, hi⟩
      · exact ⟨reference, hi⟩
      · exact ⟨reference, hi⟩
    have himported : (importOf reference).name = bindingName (lastSegment (importOf reference).path) := by
      rw [importOf, componentName, baseName, lastSegment]
    rw [himported, isIdentifier_bindingName]
  · intro p hp b hb
    rw [hparams] at hp
    unfold paramsOf at hp
    split at hp
    · obtain rfl := List.mem_singleton.mp hp
      obtain ⟨slot, -, rfl⟩ := List.mem_map.mp hb
      exact isIdentifier_bindingName slot
    · cases hp
  · intro name hbound
    rcases mem_boundNames_convert h hbound with ⟨written, hwritten, rfl⟩ | ⟨block, hblock, rfl⟩
    · exact .inl ⟨written, hwritten, rfl, isIdentifier_mixinName written⟩
    · exact .inr ⟨block, hblock, rfl, isIdentifier_bindingName block⟩

/-- The digit three in another script does not start an identifier, and no underscore is put before
it. -/
theorem arabicDigit_illegal :
    ∃ m, (convert noScript (some "widgets/٣.pug") ⟨[], 0⟩).result = .ok m ∧
      m.program.name = "٣" ∧ isIdentifier m.program.name.toList = false ∧ ¬ Nameable "٣" := by
  have hlegal := (derivedNames_legal_iff noScript (some "widgets/٣.pug") ⟨[], 0⟩ _ rfl).1 "٣"
  refine ⟨_, rfl, by decide +kernel, by decide +kernel, ?_⟩
  rw [← hlegal]
  decide +kernel

end PugComponents.Component
