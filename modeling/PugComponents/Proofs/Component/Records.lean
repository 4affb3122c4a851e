import PugComponents.Proofs.Component.Accounts
import PugComponents.Proofs.Component.Slots

/- What the module of a document records of the nodes that are not rendered. The
   warnings of a file that fills no slots are those of the nodes that lowering
   skips. The imports of any file are those of the nodes that its conversion
   comes to (`mem_imports_convert`); a file that fills slots is not converted from
   top to bottom, but first the nodes outside its blocks and then what its blocks
   hold in the end. -/
namespace PugComponents.Component

open scoped List
open Jsx (Import Program)
open Link (roleOf)
open Script (SnippetReader)
open Template (Node Document Occurrence occurrences)

variable {reader : SnippetReader} {file : Option String} {d : Document} {m : Module}

/-! ## Warnings -/

/-- No occurrence is warned of as content outside blocks. -/
theorem warningAt?_cause_ne {o : Occurrence} {w : Warning} (h : warningAt? o = some w) (kind : String) :
    w.cause ≠ .outsideBlock kind := by
  unfold warningAt? at h
  split at h
  · split at h
    · cases h
    · cases h
      nofun
  · cases h
    nofun
  · cases h
    nofun
  · cases h

/-- **Nothing is skipped without a warning, and nothing else warns.** The warnings of a document that
fills no slots are those of its occurrences, in the order of the source; none is about content
outside blocks. -/
theorem convert_warns_of_skipped (reader : SnippetReader) (file : Option String) (d : Document)
    (m : Module)
    (hrole : (contextOf file d).role = .standalone ∨ (contextOf file d).role = .layout)
    (h : (convert reader file d).result = .ok m) :
    m.warnings = d.occurrences.filterMap warningAt? ∧
      ∀ w ∈ m.warnings, ∀ kind, w.cause ≠ .outsideBlock kind := by
  obtain ⟨x, targets, rfl, htargets, hwarnings, -⟩ := convert_component (ne_slotFiller hrole) h
  have heq : m.warnings = d.occurrences.filterMap warningAt? := by
    rw [hwarnings]
    exact (lowerNodes_accounts true d.nodes).warns targets htargets
  refine ⟨heq, ?_⟩
  intro w hw kind hcause
  rw [heq] at hw
  obtain ⟨o, -, ho⟩ := List.mem_filterMap.mp hw
  exact warningAt?_cause_ne ho kind hcause

/-- Files are included at the top level, in a tag, in the block of a mixin call and in a mixin. -/
def scatteredIncludes : Document :=
  ⟨[.includeFile ⟨"nav", none⟩ 1 ⟨0, 11⟩,
    .tag "ul" [] []
      [.includeFile ⟨"item", none⟩ 3 ⟨17, 29⟩,
        .mixinCall "row" none [] [] [.includeFile ⟨"cell", none⟩ 5 ⟨41, 53⟩] ⟨32, 36⟩] false ⟨12, 14⟩,
    .mixinDefinition "foot" none [.rawInclude ⟨"a.svg", none⟩ ⟨67, 80⟩] ⟨54, 64⟩], 81⟩

theorem scatteredIncludes_warn : (contextOf none scatteredIncludes).role = .standalone ∧
    ∃ m, (convert noScript none scatteredIncludes).result = .ok m ∧
      m.warnings = [⟨.includePosition "item", ⟨17, 29⟩⟩, ⟨.mixinCall "row", ⟨32, 36⟩⟩,
        ⟨.rawInclude "a.svg", ⟨67, 80⟩⟩] :=
  ⟨rfl, _, rfl, (convert_warns_of_skipped noScript none scatteredIncludes _ (.inl rfl) rfl).1⟩

/-! ## Imports -/

/-- The occurrences that the conversion of a document comes to. -/
def converted (d : Document) : List Occurrence :=
  match roleOf d with
  | .slotFiller _ =>
    occurrences true (d.nodes.filter standsOutside) ++
      (blockContents d.nodes).flatMap fun block => occurrences false block.2
  | _ => d.occurrences

theorem converted_of_slotFiller {base : String} (hrole : roleOf d = .slotFiller base) :
    converted d = occurrences true (d.nodes.filter standsOutside) ++
      (blockContents d.nodes).flatMap fun block => occurrences false block.2 := by
  unfold converted
  rw [hrole]

/-- A document that fills no slots is converted from top to bottom. -/
theorem converted_of_component (hrole : ∀ base, roleOf d ≠ .slotFiller base) :
    converted d = d.occurrences := by
  unfold converted
  split
  · rename_i base hbase
    exact absurd hbase (hrole base)
  · rfl

section

variable {setting : Setting}

/-- The nodes outside blocks leave their imports, whether or not they are warned of. -/
theorem lowerOutside_hoists (nodes : List Node) :
    Hoists (lowerOutside setting nodes) importsOf
      ((occurrences true (nodes.filter standsOutside)).filterMap importAt?) := by
  induction nodes with
  | nil => exact (Accounts.pure rfl).hoists
  | cons node rest ih =>
    cases hnode : standsOutside node with
    | false =>
      rw [lowerOutside_block hnode, List.filter_cons_of_neg (by simp [hnode])]
      exact ih
    | true =>
      have hcons : occurrences true ((node :: rest).filter standsOutside) =
          occurrences true [node] ++ occurrences true (rest.filter standsOutside) := by
        rw [List.filter_cons_of_pos hnode]
        simp
      rw [lowerOutside_cons hnode, hcons, List.filterMap_append]
      apply (lowerNodes_accounts true [node]).hoists.bind
      intro targets
      have hwarn : Hoists (warnIgnored node targets) (fun _ => []) [] := by
        unfold warnIgnored
        split <;> exact fun _ _ => List.Perm.refl _
      exact hwarn.bind fun _ => ih.map (importsOf targets) fun _ => List.filterMap_append

theorem lowerBlock_accounts (name : String) (content : List Node) :
    Accounts (lowerBlock setting name content) (fun _ => []) (occurrences false content) :=
  (lowerNodes_accounts false content).place_map journal_asBody fun _ => rfl

/-- Blocks leave what the occurrences in their contents stand for. -/
theorem lowerBlocks_accounts (contents : BlockContents) :
    Accounts (lowerBlocks setting contents) (fun _ => [])
      (contents.flatMap fun block => occurrences false block.2) :=
  .mapM contents fun block => lowerBlock_accounts block.1 block.2

end

/-- The imports of a module are those of the occurrences, in some order and without repetitions. -/
theorem imports_convert (h : (convert reader file d).result = .ok m) :
    ∃ is, m.program.imports = distinct is ∧ is ~ (converted d).filterMap importAt? := by
  by_cases hfiller : ∃ base, (contextOf file d).role = .slotFiller base
  · obtain ⟨base, hrole⟩ := hfiller
    obtain ⟨x, y, outside, slots, rfl, rfl, houtside, hslots, -, hprogram⟩ :=
      convert_slotFiller hrole h
    refine ⟨_, congrArg Program.imports hprogram, ?_⟩
    rw [role_contextOf] at hrole
    rw [converted_of_slotFiller hrole, List.filterMap_append, ← List.append_assoc]
    exact (lowerOutside_hoists d.nodes outside houtside).append
      ((lowerBlocks_accounts _).hoists slots hslots)
  · have hrole : ∀ base, (contextOf file d).role ≠ .slotFiller base := fun base hbase =>
      hfiller ⟨base, hbase⟩
    obtain ⟨x, targets, rfl, htargets, -, hprogram⟩ := convert_component hrole h
    refine ⟨_, ?_, (lowerNodes_accounts true d.nodes).hoists targets htargets |>.trans ?_⟩
    · rw [hprogram]
      rfl
    · rw [converted_of_component (role_contextOf file d ▸ hrole)]
      exact List.Perm.refl _

/-- A module imports what the occurrences that its conversion comes to stand for. -/
theorem mem_imports_convert (h : (convert reader file d).result = .ok m) {i : Import} :
    i ∈ m.program.imports ↔ ∃ o ∈ converted d, importAt? o = some i := by
  obtain ⟨is, himports, hperm⟩ := imports_convert h
  rw [himports, mem_distinct, hperm.mem_iff, List.mem_filterMap]

/-- A module imports nothing twice. -/
theorem nodup_imports_convert (h : (convert reader file d).result = .ok m) :
    m.program.imports.Nodup := by
  obtain ⟨is, himports, -⟩ := imports_convert h
  rw [himports]
  exact nodup_distinct is

end PugComponents.Component
