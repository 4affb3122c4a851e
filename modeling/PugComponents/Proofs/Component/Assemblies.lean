import PugComponents.Component.Module
import PugComponents.Proofs.Lowering

/- What a document is converted to. There are two ways of assembling a module, and
   each has one statement that says all of it: `convert_component` for a document
   that fills no slots, whose nodes are lowered from top to bottom, and
   `convert_slotFiller` for one that fills slots, where first the nodes outside the
   blocks are lowered and then what the blocks hold in the end. -/
namespace PugComponents.Component

open Component.Lower (bind_ok result_bind_eq_ok result_pure_eq_ok result_mapM_eq_ok)
open Jsx (Stmt)
open Link (Role roleOf slotName slotsOf)
open Script (SnippetReader)
open Template (Node Document)

/-! ## Contexts -/

theorem role_contextOf (file : Option String) (d : Document) : (contextOf file d).role = roleOf d := by
  cases file <;> rfl

theorem slots_contextOf (file : Option String) (d : Document) : (contextOf file d).slots = slotsOf d := by
  cases file <;> rfl

theorem ne_slotFiller {role : Role} (h : role = .standalone ∨ role = .layout) (base : String) :
    role ≠ .slotFiller base := by
  rcases h with rfl | rfl
  · nofun
  · nofun

/-! ## Nodes outside blocks -/

section

variable {setting : Setting}

/-- The node is no named block. -/
def standsOutside : Node → Bool
  | .namedBlock .. => false
  | _ => true

/-- A block is passed over outside blocks. -/
theorem lowerOutside_block {node : Node} (hnode : standsOutside node = false) (rest : List Node) :
    lowerOutside setting (node :: rest) = lowerOutside setting rest := by
  unfold standsOutside at hnode
  split at hnode
  · rw [lowerOutside]
  · cases hnode

/-- Any other node is lowered there, and warned of if it is ignored. -/
theorem lowerOutside_cons {node : Node} (hnode : standsOutside node = true) (rest : List Node) :
    lowerOutside setting (node :: rest) = (do
      let targets ← lowerNodes setting true [node]
      warnIgnored node targets
      let more ← lowerOutside setting rest
      pure (targets ++ more)) := by
  rw [lowerOutside]
  rintro name mode nodes span rfl
  cases hnode

theorem result_warnIgnored (node : Node) (targets : List Target) :
    (warnIgnored node targets).result = .ok () := by
  unfold warnIgnored
  split <;> rfl

theorem lowerOutside_cons_eq_ok {node : Node} (hnode : standsOutside node = true) {rest : List Node}
    {ts : List Target} (h : (lowerOutside setting (node :: rest)).result = .ok ts) :
    ∃ first more, (lowerNodes setting true [node]).result = .ok first ∧
      (lowerOutside setting rest).result = .ok more ∧ ts = first ++ more := by
  rw [lowerOutside_cons hnode] at h
  obtain ⟨first, hfirst, h⟩ := result_bind_eq_ok.mp h
  obtain ⟨_, -, h⟩ := result_bind_eq_ok.mp h
  obtain ⟨more, hmore, h⟩ := result_bind_eq_ok.mp h
  exact ⟨first, more, hfirst, hmore, (result_pure_eq_ok.mp h).symm⟩

theorem lowerNodes_cons {top : Bool} {node : Node} {rest : List Node} {first more : List Target}
    (hfirst : (lowerNodes setting top [node]).result = .ok first)
    (hmore : (lowerNodes setting top rest).result = .ok more) :
    (lowerNodes setting top (node :: rest)).result = .ok (first ++ more) := by
  obtain ⟨l, none, hl, hnone, rfl⟩ := lowerNodes_eq_ok hfirst
  obtain rfl : none = [] := lowerNodes_eq_ok hnone
  rw [lowerNodes, List.append_nil]
  exact result_bind_eq_ok.mpr
    ⟨l, hl, result_bind_eq_ok.mpr ⟨_, rfl, result_bind_eq_ok.mpr ⟨more, hmore, rfl⟩⟩⟩

/-- The targets outside blocks are those of the nodes there, one after the other. -/
theorem lowerNodes_of_lowerOutside {nodes : List Node} {ts : List Target}
    (h : (lowerOutside setting nodes).result = .ok ts) :
    (lowerNodes setting true (nodes.filter standsOutside)).result = .ok ts := by
  induction nodes generalizing ts with
  | nil =>
    rw [lowerOutside] at h
    rw [List.filter_nil, lowerNodes]
    exact h
  | cons node rest ih =>
    cases hnode : standsOutside node with
    | false =>
      rw [lowerOutside_block hnode] at h
      rw [List.filter_cons_of_neg (by simp [hnode])]
      exact ih h
    | true =>
      obtain ⟨first, more, hfirst, hmore, rfl⟩ := lowerOutside_cons_eq_ok hnode h
      rw [List.filter_cons_of_pos hnode]
      exact lowerNodes_cons hfirst (ih hmore)

/-! ## Blocks -/

/-- The constant that a slot is bound to. -/
def slotConstant (slot : String × List Stmt) : Stmt := .binding slot.1 (.blockArrow [] slot.2)

theorem lowerBlock_eq_ok {name : String} {content : List Node} {stmt : Stmt}
    (h : (lowerBlock setting name content).result = .ok stmt) :
    ∃ targets, (lowerNodes setting false content).result = .ok targets ∧
      stmt = slotConstant (slotName name, bodyOf targets) := by
  obtain ⟨targets, htargets, h⟩ := result_asBody_eq_ok h
  exact ⟨targets, htargets, (result_pure_eq_ok.mp h).symm⟩

/-- The constants of blocks hold what their contents are lowered to. -/
theorem lowerBlocks_eq_ok {contents : BlockContents} {slots : List Stmt}
    (h : (lowerBlocks setting contents).result = .ok slots) :
    ∃ lowered,
      List.Forall₂ (fun block ts => (lowerNodes setting false block.2).result = .ok ts) contents
        lowered ∧
      slots = List.map slotConstant
        (contents.zipWith (fun block ts => (slotName block.1, bodyOf ts)) lowered) := by
  have hall := result_mapM_eq_ok.mp h
  clear h
  induction hall with
  | nil => exact ⟨[], .nil, rfl⟩
  | cons hstmt _ ih =>
    obtain ⟨lowered, hlowered, rfl⟩ := ih
    obtain ⟨ts, hts, rfl⟩ := lowerBlock_eq_ok hstmt
    exact ⟨ts :: lowered, .cons hts hlowered, rfl⟩

end

/-! ## Modules -/

variable {reader : SnippetReader} {file : Option String} {d : Document} {m : Module}

/-- What follows a step that is given beside its journal. -/
theorem withJournal_bind_eq_ok {α β : Type} {x : Lower α} {f : α × Journal → β} {b : β}
    (h : (withJournal x >>= fun r => pure (f r)).result = .ok b) :
    ∃ a, x.result = .ok a ∧ b = f (a, x.journal) ∧
      (withJournal x >>= fun r => pure (f r)).journal = x.journal := by
  obtain ⟨r, hr, hb⟩ := result_bind_eq_ok.mp h
  rw [bind_ok hr]
  unfold withJournal at hr
  cases hx : x.result with
  | error e =>
    rw [hx] at hr
    cases hr
  | ok a =>
    rw [hx] at hr
    cases hr
    exact ⟨a, rfl, (result_pure_eq_ok.mp hb).symm, Journal.append_empty x.journal⟩

/-- A module is the program that is assembled, with the warnings that were given on the way. -/
theorem convert_eq_ok (h : (convert reader file d).result = .ok m) :
    (assemble reader (contextOf file d) d).result = .ok m.program ∧
      m.warnings = (assemble reader (contextOf file d) d).journal.warnings := by
  simp only [convert] at h
  cases hp : (assemble reader (contextOf file d) d).result with
  | error e => rw [hp] at h; cases h
  | ok program =>
    rw [hp] at h
    cases h
    exact ⟨rfl, rfl⟩

/-- What a document that fills no slots is converted to. -/
theorem convert_component (hrole : ∀ base, (contextOf file d).role ≠ .slotFiller base)
    (h : (convert reader file d).result = .ok m) :
    ∃ x targets, x = lowerNodes ⟨reader, (contextOf file d).role = .layout⟩ true d.nodes ∧
      x.result = .ok targets ∧ m.warnings = x.journal.warnings ∧
      m.program = moduleOf (contextOf file d) (importsOf targets) x.journal.imports
        (targets.filterMap Target.statement? ++
          [.result (returnValue (targets.filterMap Target.rendered?))]) := by
  obtain ⟨hprogram, hwarnings⟩ := convert_eq_ok h
  have hassemble : assemble reader (contextOf file d) d =
      assembleComponent reader (contextOf file d) d := by
    unfold assemble
    split
    · rename_i base hbase
      exact absurd hbase (hrole base)
    · rfl
  rw [hassemble] at hprogram hwarnings
  obtain ⟨targets, htargets, hprogram, hjournal⟩ := withJournal_bind_eq_ok hprogram
  refine ⟨_, targets, rfl, htargets, ?_, hprogram⟩
  rw [hwarnings]
  exact congrArg Journal.warnings hjournal

/-- What a document that fills slots is converted to. -/
theorem convert_slotFiller {base : String} (hrole : (contextOf file d).role = .slotFiller base)
    (h : (convert reader file d).result = .ok m) :
    ∃ x y outside slots, x = lowerOutside ⟨reader, false⟩ d.nodes ∧
      y = lowerBlocks ⟨reader, false⟩ (blockContents d.nodes) ∧
      x.result = .ok outside ∧ y.result = .ok slots ∧
      m.warnings = x.journal.warnings ++ y.journal.warnings ∧
      m.program = moduleOf (contextOf file d) (importsOf outside)
        (x.journal.imports ++ y.journal.imports)
        (outside.filterMap Target.statement? ++ slots ++
          [.result (.markup (.element base ((blockContents d.nodes).map fun (name, _) =>
            .value name (.ident (slotName name))) [] true))]) := by
  obtain ⟨hprogram, hwarnings⟩ := convert_eq_ok h
  rw [assemble, hrole] at hprogram hwarnings
  obtain ⟨⟨outside, slots⟩, hboth, hprogram, hjournal⟩ := withJournal_bind_eq_ok hprogram
  obtain ⟨_, houtside, hrest⟩ := result_bind_eq_ok.mp hboth
  obtain ⟨_, hslots, hpair⟩ := result_bind_eq_ok.mp hrest
  cases result_pure_eq_ok.mp hpair
  have hboth : (lowerOutside ⟨reader, false⟩ d.nodes >>= fun outside =>
      lowerBlocks ⟨reader, false⟩ (blockContents d.nodes) >>= fun slots =>
        pure (outside, slots)).journal =
      (lowerOutside ⟨reader, false⟩ d.nodes).journal.append
        (lowerBlocks ⟨reader, false⟩ (blockContents d.nodes)).journal := by
    rw [bind_ok houtside, bind_ok hslots]
    exact congrArg (Journal.append _) (Journal.append_empty _)
  rw [hboth] at hprogram hjournal
  refine ⟨_, _, outside, slots, rfl, rfl, houtside, hslots, ?_, ?_⟩
  · rw [hwarnings, ← Journal.warnings_append]
    exact congrArg Journal.warnings hjournal
  · rw [hprogram]
    rfl

end PugComponents.Component
