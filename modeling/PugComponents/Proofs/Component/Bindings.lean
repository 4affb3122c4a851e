import Mathlib.Data.List.Nodup
import PugComponents.Proofs.Component.Records

/- The names that the scopes of a generated module bind. Repetitions are removed
   before the names are made: imports are told apart by their path too, slots by
   the names of their blocks. Different files can export components of one name,
   and different blocks can have components of one name; then a scope binds a name
   twice. The conditions under which that does not happen are exact. -/
namespace PugComponents.Component

open Jsx (Program Import)
open Link (slotName blockNamesOf slotsOf)
open Script (SnippetReader)
open Template (Node BlockMode Document)

/-- The imports that a document asks for. -/
def namedImports (d : Document) : List Import := (converted d).filterMap importAt?

/-- Different imports have different names if their names tell their paths. -/
theorem nodup_names_iff {name : String} {imports : List Import} (h : imports.Nodup) :
    (name :: imports.map (·.name)).Nodup ↔
      (∀ i ∈ imports, i.name ≠ name) ∧
        ∀ i ∈ imports, ∀ j ∈ imports, i.name = j.name → i.path = j.path := by
  have hsame (i j : Import) (hname : i.name = j.name) : i = j ↔ i.path = j.path := by
    obtain ⟨_, _⟩ := i
    obtain ⟨_, _⟩ := j
    cases hname
    simp
  rw [List.nodup_cons, List.nodup_map_iff_inj_on h, List.mem_map]
  apply and_congr
  · simp only [not_exists, not_and]
  · constructor
    · intro hinj i hi j hj hname
      exact (hsame i j hname).mp (hinj i hi j hj hname)
    · intro hpaths i hi j hj hname
      exact (hsame i j hname).mpr (hpaths i hi j hj hname)

/-! ## Slots that are filled -/

theorem addBlock_names (name : String) (mode : BlockMode) (new : List Node)
    (contents : BlockContents) :
    (addBlock name mode new contents).map (·.1) =
      contents.map (·.1) ++ if name ∈ contents.map (·.1) then [] else [name] := by
  induction contents with
  | nil => rfl
  | cons first rest ih =>
    obtain ⟨other, content⟩ := first
    by_cases hsame : other = name
    · simp [addBlock, hsame]
    · have hmem : name ∈ ((other, content) :: rest).map (·.1) ↔ name ∈ rest.map (·.1) := by
        simp [Ne.symm hsame]
      simp only [addBlock, beq_iff_eq, hsame, if_false, hmem]
      rw [List.map_cons, List.map_cons, ih, List.cons_append]

/-- The contents of blocks are kept under the names of the blocks, each where it first occurs. -/
theorem blockContents_names (d : Document) :
    (blockContents d.nodes).map (·.1) = distinct (d.namedBlocks.map (·.1)) := by
  obtain ⟨nodes, length⟩ := d
  simp only [Document.namedBlocks]
  induction nodes using List.reverseRecOn with
  | nil => rfl
  | append_singleton nodes node ih =>
    simp only [blockContents, List.foldl_append, List.filterMap_append, List.map_append] at ih ⊢
    cases node with
    | namedBlock name mode new span =>
      show (addBlock name mode new _).map (·.1) = distinct (_ ++ [name])
      rw [addBlock_names, ih, distinct_concat]
      simp only [mem_distinct]
    | _ =>
      show _ = distinct (_ ++ [])
      rw [List.append_nil]
      exact ih

/-- The constants of blocks are named after the blocks. -/
theorem names_slotConstants {contents : BlockContents} {lowered : List (List Target)}
    {P : String × List Node → List Target → Prop} (h : List.Forall₂ P contents lowered) :
    (contents.zipWith (fun block ts => (slotName block.1, bodyOf ts)) lowered).map (·.1) =
      (contents.map (·.1)).map slotName := by
  induction h with
  | nil => rfl
  | cons _ _ ih => rw [List.zipWith_cons_cons, List.map_cons, List.map_cons, List.map_cons, ih]

/-! ## Scopes -/

/-- The names made from names without repetitions are different if no two names make the same. -/
theorem nodup_slotNames_iff (names : List String) :
    ((distinct names).map slotName).Nodup ↔
      ∀ a ∈ names, ∀ b ∈ names, slotName a = slotName b → a = b := by
  rw [List.nodup_map_iff_inj_on (nodup_distinct names)]
  simp only [mem_distinct]

/-- **When a scope binds a name once.** The imports of a module and its component have different
names exactly when no import that the document asks for has the name of the component and imports of
the same name have the same path. The parameter of a layout binds different names exactly when the
declared blocks have different components, and a file that fills slots declares different constants
exactly when the blocks at its top level have different components. -/
theorem scopes_bind_once_iff (reader : SnippetReader) (file : Option String) (d : Document)
    (m : Module) (h : (convert reader file d).result = .ok m) :
    ((m.program.name :: m.program.imports.map (·.name)).Nodup ↔
      (∀ i ∈ namedImports d, i.name ≠ m.program.name) ∧
        ∀ i ∈ namedImports d, ∀ j ∈ namedImports d, i.name = j.name → i.path = j.path) ∧
    ((contextOf file d).role = .layout →
      ∃ bindings, m.program.params = [.destructured bindings] ∧
        ((bindings.map (·.2)).Nodup ↔
          ∀ a ∈ blockNamesOf d.nodes, ∀ b ∈ blockNamesOf d.nodes, slotName a = slotName b → a = b)) ∧
    ∀ base, (contextOf file d).role = .slotFiller base →
      ∃ statements slots result,
        m.program.body = statements ++ List.map slotConstant slots ++ [.result result] ∧
        slots.map (·.1) = (d.namedBlocks.map (·.1)).eraseDups.map slotName ∧
        ((slots.map (·.1)).Nodup ↔
          ∀ a ∈ d.namedBlocks.map (·.1), ∀ b ∈ d.namedBlocks.map (·.1),
            slotName a = slotName b → a = b) := by
  refine ⟨?_, ?_, ?_⟩
  · have hmem (i : Import) : i ∈ m.program.imports ↔ i ∈ namedImports d := by
      rw [mem_imports_convert h, namedImports, List.mem_filterMap]
    rw [nodup_names_iff (nodup_imports_convert h)]
    simp only [hmem]
  · intro hrole
    obtain ⟨targets, -, hparams, -⟩ := convert_layout hrole h
    refine ⟨_, hparams, ?_⟩
    rw [List.map_map, slotsOf]
    exact nodup_slotNames_iff _
  · intro base hrole
    obtain ⟨x, y, outside, slots, -, rfl, -, hslots, -, hprogram⟩ := convert_slotFiller hrole h
    obtain ⟨lowered, hlowered, rfl⟩ := lowerBlocks_eq_ok hslots
    have hdistinct := names_slotConstants hlowered
    rw [blockContents_names] at hdistinct
    refine ⟨_, _, _, congrArg Program.body hprogram, ?_, ?_⟩
    · rw [hdistinct, distinct_eq_eraseDups]
    · rw [hdistinct]
      exact nodup_slotNames_iff _

/-- A layout includes a file of its own name and declares blocks that differ in their separators. -/
def clashingLayout : Document :=
  ⟨[.includeFile ⟨"partials/nav", none⟩ 1 ⟨0, 20⟩, .namedBlock "side-bar" .replace [] ⟨21, 35⟩,
    .namedBlock "side_bar" .replace [] ⟨36, 50⟩], 51⟩

/-- A file fills slots whose names differ in the case of a letter. -/
def clashingFiller : Document :=
  ⟨[.extendsFile ⟨"base", none⟩ ⟨0, 12⟩, .namedBlock "nav" .replace [] ⟨13, 22⟩,
    .namedBlock "Nav" .replace [] ⟨23, 32⟩], 33⟩

theorem clashingScopes_bind_twice :
    (∃ m, (convert noScript (some "views/nav.pug") clashingLayout).result = .ok m ∧
      ¬(m.program.name :: m.program.imports.map (·.name)).Nodup ∧
      ∃ bindings, m.program.params = [.destructured bindings] ∧ ¬(bindings.map (·.2)).Nodup) ∧
    ∃ m, (convert noScript none clashingFiller).result = .ok m ∧
      ∃ statements slots result,
        m.program.body = statements ++ List.map slotConstant slots ++ [.result result] ∧
        ¬(slots.map (·.1)).Nodup := by
  constructor
  · obtain ⟨hnames, hlayout, -⟩ :=
      scopes_bind_once_iff noScript (some "views/nav.pug") clashingLayout _ rfl
    obtain ⟨bindings, hparams, hbindings⟩ := hlayout (by decide)
    refine ⟨_, rfl, ?_, bindings, hparams, ?_⟩
    · rw [hnames]
      decide
    · rw [hbindings]
      decide
  · obtain ⟨-, -, hfiller⟩ := scopes_bind_once_iff noScript none clashingFiller _ rfl
    obtain ⟨statements, slots, result, hbody, -, hslots⟩ := hfiller "Base" (by decide)
    refine ⟨_, rfl, statements, slots, result, hbody, ?_⟩
    rw [hslots]
    decide

end PugComponents.Component
