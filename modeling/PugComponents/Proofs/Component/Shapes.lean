import Mathlib.Data.List.Perm.Subperm
import PugComponents.Proofs.Component.Demands
import PugComponents.Proofs.Component.Records
import PugComponents.Proofs.Component.Regularity

/- The shape of the programs that are generated. Lowering makes regular targets
   (`lowerNodes_regular`); the statements among them and what is returned make up
   the component. The statements of a component come before what it renders, so its
   switches are those of the `case`s in the document, but in another order. -/
namespace PugComponents.Component

open scoped List
open Component.Lower (result_bind_eq_ok result_pure_eq_ok result_fail_ne_ok
  result_mapM_eq_ok)
open Jsx
open Link (roleOf slotName)
open Script (SnippetReader)
open Template (Node Branch Alternate Document Spread Occurrence occurrences preorder
  preorderOfBranches preorderOfAlternates map_node_occurrences)

variable {reader : SnippetReader}

/-! ## Lowering -/

theorem declarations_regular (texts : List (List Char)) :
    Regular reader (propertyParts (texts.filterMap declaration?)) [] := by
  induction texts with
  | nil => exact .nil
  | cons text rest ih =>
    cases hproperty : declaration? text with
    | none =>
      rw [List.filterMap_cons_none hproperty]
      exact ih
    | some property =>
      rw [List.filterMap_cons_some hproperty]
      unfold declaration? at hproperty
      split at hproperty
      · cases hproperty
      · split at hproperty
        · cases hproperty
        · cases hproperty
          rw [propertyParts, exprParts]
          exact ih.plain rfl

theorem lowerAttribute_regular {a : Template.Attribute} {b : Attribute}
    (h : (lowerAttribute reader a).result = .ok b) : Regular reader (attributeParts [b]) [] := by
  unfold lowerAttribute at h
  split at h
  · obtain rfl := result_pure_eq_ok.mp h
    exact .nil
  · split at h
    · rename_i declarations _
      obtain rfl := result_pure_eq_ok.mp h
      rw [attributeParts, attributeParts, List.append_nil, styleObject, exprParts]
      exact (declarations_regular _).plain rfl
    · obtain ⟨e, he, h⟩ := result_bind_eq_ok.mp h
      obtain rfl := result_pure_eq_ok.mp h
      rw [attributeParts, attributeParts, List.append_nil]
      exact .embedded he

theorem lowerSpread_regular {s : Spread} {b : Attribute} (h : (lowerSpread reader s).result = .ok b) :
    Regular reader (attributeParts [b]) [] := by
  obtain ⟨e, he, h⟩ := result_bind_eq_ok.mp h
  obtain rfl := result_pure_eq_ok.mp h
  rw [attributeParts, attributeParts, List.append_nil]
  exact .embedded he

theorem attributeParts_append (a b : List Attribute) :
    attributeParts (a ++ b) = attributeParts a ++ attributeParts b := by
  induction a with
  | nil => rfl
  | cons first a ih => cases first <;> simp [attributeParts, ih]

theorem mapM_regular {α : Type} {f : α → Lower Attribute} {xs : List α} {list : List Attribute}
    (h : (xs.mapM f).result = .ok list)
    (hf : ∀ x a, (f x).result = .ok a → Regular reader (attributeParts [a]) []) :
    Regular reader (attributeParts list) [] := by
  have hall := result_mapM_eq_ok.mp h
  clear h
  induction hall with
  | nil => exact .nil
  | @cons x a xs list ha _ ih =>
    rw [← List.singleton_append, attributeParts_append]
    exact (hf x a ha).append ih

/-- Attributes hold no function and no `switch`. -/
theorem lowerAttributes_regular {attributes : List Template.Attribute} {spreads : List Spread}
    {list : List Attribute}
    (h : (lowerAttributes reader attributes spreads).result = .ok list) :
    Regular reader (attributeParts list) [] := by
  obtain ⟨first, hfirst, h⟩ := result_bind_eq_ok.mp h
  obtain ⟨second, hsecond, h⟩ := result_bind_eq_ok.mp h
  obtain rfl := result_pure_eq_ok.mp h
  rw [attributeParts_append]
  exact (mapM_regular hfirst fun _ _ => lowerAttribute_regular).append
    (mapM_regular hsecond fun _ _ => lowerSpread_regular)

/-- Script has no block and is plain. -/
theorem lowerCode_regular {setting : Setting} {value : String} {kind : Template.CodeKind}
    {block : List Node} {span : Template.Span} {l : Lowered}
    (h : (lowerCode setting value kind block span).result = .ok l) :
    block = [] ∧ RegularTargets setting.reader l.targets [] := by
  have hblock : block = [] := by
    by_contra hblock
    rw [lowerCode, if_pos (by simpa using hblock)] at h
    exact result_fail_ne_ok h
  refine ⟨hblock, ?_⟩
  rcases lowerCode_eq_ok h with ⟨-, statements, -, rfl⟩ | ⟨-, e, he, rfl⟩
  · show RegularTargets _ (statements.map _) []
    clear h
    induction statements with
    | nil => exact .nil
    | cons s rest ih =>
      have hs : (Target.statement (embeddedStatement s)).goesOn = true := by cases s <;> rfl
      have hparts : Regular setting.reader (stmtParts (embeddedStatement s)) [] := by
        cases s with
        | expression e =>
          rw [embeddedStatement, stmtParts, exprParts]
          exact (Regular.nil.plain rfl).plain rfl
        | other source =>
          rw [embeddedStatement, stmtParts]
          exact Regular.nil.plain rfl
      exact .cons hs hparts ih
  · exact .single rfl (Regular.embedded he).container

theorem slot_regular {children : List Child} {sources : List CaseSource}
    (h : Regular reader (childParts children) sources) (name : String) :
    RegularTargets reader [slot name (some children)] sources := by
  have hname : Regular reader (exprParts (.ident name)) [] := by
    rw [exprParts]
    exact Regular.nil.plain rfl
  have hshown : Regular reader (exprParts (.markup (.selfClosing name))) [] := by
    rw [exprParts, Markup.selfClosing, markupParts, attributeParts, childParts]
    exact (Regular.nil.plain rfl).plain rfl
  exact .single rfl (hname.conditional hshown h.fragment).container

/-- The case of a branch, given what stands in the branch. -/
theorem switchCase_from {test : Option String} {span : Template.Span} {value : Option Expr}
    (h : (readTest reader test span).result = .ok value) (body : List Stmt) :
    Option.Rel (ReadFrom reader) (switchCase value body).test? test ∧
      (switchCase value body).body = body := by
  rcases readTest_eq_ok h with ⟨rfl, rfl⟩ | ⟨source, e, rfl, rfl, he⟩
  · exact ⟨.none, rfl⟩
  · exact ⟨.some (readExpression_eq_ok he), rfl⟩

theorem switchCase_regular {test : Option String} {span : Template.Span} {value : Option Expr}
    (h : (readTest reader test span).result = .ok value) {body : List Stmt} {rest : List SwitchCase}
    {sources others : List CaseSource} (hbody : Regular reader (bodyParts body) sources)
    (hrest : Regular reader (caseParts rest) others) :
    Regular reader (caseParts (switchCase value body :: rest)) (sources ++ others) := by
  rcases readTest_eq_ok h with ⟨rfl, rfl⟩ | ⟨source, e, rfl, rfl, he⟩
  · rw [switchCase, caseParts]
    exact hbody.append hrest
  · rw [switchCase, caseParts]
    exact ((Regular.embedded he).append hbody).append hrest

/-- What the cases of a `switch` are, given the branches they come from. -/
structure RegularCases (reader : SnippetReader) (cases : List SwitchCase) (branches : List Branch) :
    Prop where
  parts : Regular reader (caseParts cases) ((preorderOfBranches branches).filterMap caseSource?)
  bodies : ∀ c ∈ cases, c.body = [] ∨ EndsInResult c.body
  branches : List.Forall₂ (CaseFrom reader) cases branches

namespace RegularCases

variable {cases : List SwitchCase} {branches : List Branch} {test : Option String}
  {span : Template.Span} {value : Option Expr}

/-- A branch without a block is an empty case. -/
theorem bare (h : RegularCases reader cases branches)
    (hvalue : (readTest reader test span).result = .ok value) :
    RegularCases reader (switchCase value [] :: cases) (.bare test span :: branches) := by
  obtain ⟨htest, hempty⟩ := switchCase_from hvalue []
  refine ⟨?_, ?_, .cons ⟨htest, ?_⟩ h.branches⟩
  · rw [preorderOfBranches, ← List.nil_append (List.filterMap _ _)]
    exact switchCase_regular hvalue .nil h.parts
  · rintro c (_ | ⟨_, hc⟩)
    · exact .inl hempty
    · exact h.bodies c hc
  · exact iff_of_true hempty rfl

/-- A branch with a block is a case that ends in its return. -/
theorem block {nodes : List Node} {targets : List Target} (h : RegularCases reader cases branches)
    (hvalue : (readTest reader test span).result = .ok value)
    (htargets : RegularTargets reader targets ((preorder nodes).filterMap caseSource?)) :
    RegularCases reader (switchCase value (bodyOf targets) :: cases)
      (.block test nodes span :: branches) := by
  obtain ⟨htest, hbody⟩ := switchCase_from hvalue (bodyOf targets)
  refine ⟨?_, ?_, .cons ⟨htest, ?_⟩ h.branches⟩
  · rw [preorderOfBranches, List.filterMap_append]
    exact switchCase_regular hvalue htargets.body h.parts
  · rintro c (_ | ⟨_, hc⟩)
    · rw [hbody]
      exact .inr htargets.endsInResult
    · exact h.bodies c hc
  · rw [hbody]
    exact iff_of_false htargets.endsInResult.ne_nil nofun

end RegularCases

variable {setting : Setting}

mutual

/-- The targets of a node are regular; their switches come from the `case`s in the node. -/
theorem lowerNode_regular (top : Bool) (node : Node) {l : Lowered}
    (h : (lowerNode setting top node).result = .ok l) :
    RegularTargets setting.reader l.targets ((node :: node.descendants).filterMap caseSource?) := by
  match node with
  | .text value span =>
    obtain rfl := lowerNode_eq_ok h
    show RegularTargets setting.reader [if _ then _ else _] []
    split
    · exact .single rfl .nil
    · exact .single rfl .nil
  | .code value kind block span =>
    rw [lowerNode] at h
    obtain ⟨rfl, hcode⟩ := lowerCode_regular h
    exact hcode
  | .group nodes span =>
    obtain ⟨ts, hts, rfl⟩ := lowerNode_eq_ok h
    exact lowerNodes_regular false nodes hts
  | .namedBlock name mode nodes span =>
    rcases lowerNode_eq_ok h with ⟨-, ts, hts, rfl⟩ | ⟨-, rfl, rfl⟩ | ⟨-, -, ts, hts, rfl⟩
    · exact lowerNodes_regular false nodes hts
    · exact .single rfl (Regular.nil.plain rfl)
    · exact slot_regular (lowerNodes_regular false nodes hts).children _
  | .comment .. | .extendsFile .. =>
    obtain rfl := lowerNode_eq_ok h
    exact .single rfl .nil
  | .doctype .. | .rawInclude .. | .mixinCall .. =>
    obtain rfl := lowerNode_eq_ok h
    exact .nil
  | .caseOf subject branches span =>
    obtain ⟨value, cases', hvalue, hcases, rfl⟩ := lowerNode_eq_ok h
    have hall := lowerBranches_regular branches hcases
    exact .single rfl (.switchCall (.embedded hvalue) hall.parts hall.bodies
      ⟨readExpression_eq_ok hvalue, hall.branches⟩)
  | .conditional test consequent alternates span =>
    obtain ⟨value, ts, other, hvalue, hts, hother, rfl⟩ := lowerNode_eq_ok h
    have hconsequent := (lowerNodes_regular false consequent hts).children.branchValue
    have hall := (Regular.embedded hvalue).conditional hconsequent
      (lowerAlternates_regular alternates hother)
    rw [← List.filterMap_append] at hall
    exact .single rfl hall
  | .each collection item key body span =>
    obtain ⟨value, ts, hvalue, hts, rfl⟩ := lowerNode_eq_ok h
    exact .single rfl (.mapCall (.embedded hvalue) (lowerNodes_regular false body hts).children _ _)
  | .mixinDefinition name arguments body span =>
    obtain ⟨ts, hts, rfl⟩ := lowerNode_eq_ok h
    have hbody := lowerNodes_regular false body hts
    exact .single rfl (.binding (hbody.body.arrow hbody.endsInResult _) _)
  | .tag name attributes spreads children selfClosing span =>
    obtain ⟨list, ts, hlist, hts, rfl⟩ := lowerNode_eq_ok h
    exact .single rfl (.element (lowerAttributes_regular hlist)
      (lowerNodes_regular false children hts).children _ _)
  | .interpolatedTag expression span =>
    obtain ⟨value, hvalue, rfl⟩ := lowerNode_eq_ok h
    exact .single rfl (Regular.embedded hvalue).container
  | .includeFile file column span =>
    rcases lowerNode_eq_ok h with ⟨-, rfl⟩ | ⟨-, rfl⟩
    · exact .single rfl .nil
    · exact .nil
  | .whileLoop .. | .mixinBlock .. | .filter .. =>
    exact (lowerNode_eq_ok h).elim

/-- The targets of nodes are regular; their switches come from the `case`s in the nodes. -/
theorem lowerNodes_regular (top : Bool) (nodes : List Node) {ts : List Target}
    (h : (lowerNodes setting top nodes).result = .ok ts) :
    RegularTargets setting.reader ts ((preorder nodes).filterMap caseSource?) := by
  match nodes with
  | [] =>
    obtain rfl := lowerNodes_eq_ok h
    exact .nil
  | node :: rest =>
    obtain ⟨l, more, hl, hmore, rfl⟩ := lowerNodes_eq_ok h
    have hall := (lowerNode_regular top node hl).append (lowerNodes_regular top rest hmore)
    rw [← List.filterMap_append, List.cons_append] at hall
    rw [preorder]
    exact hall

/-- The value of further branches is regular. -/
theorem lowerAlternates_regular (alternates : List Alternate) {e : Expr}
    (h : (lowerAlternates setting alternates).result = .ok e) :
    Regular setting.reader (exprParts e) ((preorderOfAlternates alternates).filterMap caseSource?) := by
  match alternates with
  | [] =>
    obtain rfl := lowerAlternates_eq_ok h
    exact Regular.nil.plain rfl
  | .orElse nodes _ :: _ =>
    obtain ⟨ts, hts, rfl⟩ := lowerAlternates_eq_ok h
    rw [preorderOfAlternates]
    exact (lowerNodes_regular false nodes hts).children.branchValue
  | .orIf test nodes span :: rest =>
    obtain ⟨value, ts, other, hvalue, hts, hother, rfl⟩ := lowerAlternates_eq_ok h
    rw [preorderOfAlternates, List.filterMap_append]
    exact (Regular.embedded hvalue).conditional (lowerNodes_regular false nodes hts).children.branchValue
      (lowerAlternates_regular rest hother)

/-- The cases of a `switch` come from the branches. -/
theorem lowerBranches_regular (branches : List Branch) {cases' : List SwitchCase}
    (h : (lowerBranches setting branches).result = .ok cases') :
    RegularCases setting.reader cases' branches := by
  match branches with
  | [] =>
    obtain rfl := lowerBranches_eq_ok h
    exact ⟨.nil, fun _ hc => (nomatch hc), .nil⟩
  | .bare test span :: rest =>
    obtain ⟨value, more, hvalue, hmore, rfl⟩ := lowerBranches_eq_ok h
    exact (lowerBranches_regular rest hmore).bare hvalue
  | .block test nodes span :: rest =>
    obtain ⟨value, ts, more, hvalue, hts, hmore, rfl⟩ := lowerBranches_eq_ok h
    exact (lowerBranches_regular rest hmore).block hvalue (lowerNodes_regular false nodes hts)

end

/-! ## Programs -/

theorem caseSources_append (a b : List Occurrence) :
    caseSources (a ++ b) = caseSources a ++ caseSources b :=
  List.filterMap_append

theorem caseSources_occurrences (direct : Bool) (nodes : List Node) :
    caseSources (occurrences direct nodes) = (preorder nodes).filterMap caseSource? := by
  rw [← map_node_occurrences direct nodes, List.filterMap_map]
  rfl

theorem Regular.returnValue {children : List Child} {sources : List CaseSource}
    (h : Regular reader (childParts children) sources) :
    Regular reader (exprParts (Component.returnValue children)) sources := by
  unfold Component.returnValue
  split
  · rw [childParts] at h
    rw [exprParts]
    exact h.plain rfl
  · rw [childParts, childParts, List.append_nil] at h
    rw [exprParts]
    exact h.plain rfl
  · exact h.fragment

/-- The components of blocks are plain statements; their switches come from the contents. -/
theorem lowerBlocks_regular {contents : BlockContents} {slots : List Stmt}
    (h : (lowerBlocks setting contents).result = .ok slots) :
    Regular setting.reader (bodyParts slots)
        (caseSources (contents.flatMap fun block => occurrences false block.2)) ∧
      ∀ s ∈ slots, s.goesOn = true := by
  have hall := result_mapM_eq_ok.mp h
  clear h
  induction hall with
  | nil => exact ⟨.nil, fun _ hs => (nomatch hs)⟩
  | @cons block stmt contents slots hstmt _ ih =>
    obtain ⟨targets, htargets, rfl⟩ := lowerBlock_eq_ok hstmt
    have hblock := lowerNodes_regular false block.2 htargets
    rw [← caseSources_occurrences false] at hblock
    constructor
    · rw [List.flatMap_cons, caseSources_append, bodyParts]
      exact ((hblock.body.arrow hblock.endsInResult []).binding _).append ih.1
    · rintro s (_ | ⟨_, hs⟩)
      · rfl
      · exact ih.2 s hs

variable {file : Option String} {d : Document} {m : Module}

/-- The slots that a layout is given hold no function and no `switch`. -/
theorem slotAttributes_regular (contents : BlockContents) :
    Regular reader (attributeParts (contents.map fun (name, _) =>
      .value name (.ident (slotName name)))) [] := by
  induction contents with
  | nil => exact .nil
  | cons block rest ih =>
    rw [List.map_cons, attributeParts, exprParts]
    exact ih.plain rfl

/-- The program has its shape, and its switches come from the sources. -/
def ShapedFrom (reader : SnippetReader) (p : Program) (sources : List CaseSource) : Prop :=
  p.Shaped ∧ List.Forall₂ (SwitchFrom reader) (switchesIn p.parts) sources

/-- A body of plain statements and a return. -/
theorem ShapedFrom.of_body {p : Program} {statements : List Stmt} {result : Expr}
    {sources others : List CaseSource} (hp : p.body = statements ++ [.result result])
    (hplain : ∀ s ∈ statements, s.goesOn = true) (h : Regular reader (bodyParts statements) sources)
    (hresult : Regular reader (exprParts result) others) :
    ShapedFrom reader p (sources ++ others) := by
  have hparts : Regular reader p.parts (sources ++ others) := by
    rw [Program.parts, hp, bodyParts_append]
    exact h.append hresult.result
  exact ⟨⟨⟨statements, result, hp, hplain⟩, hparts.shaped, hparts.alone⟩, hparts.switches⟩

/-- A component that fills no slots has the switches of all `case`s, those of its statements
first. -/
theorem component_shaped (hrole : ∀ base, (contextOf file d).role ≠ .slotFiller base)
    (h : (convert reader file d).result = .ok m) :
    ∃ sources, sources ~ caseSources d.occurrences ∧ ShapedFrom reader m.program sources := by
  obtain ⟨x, targets, rfl, htargets, -, hprogram⟩ := convert_component hrole h
  have hregular := lowerNodes_regular true d.nodes htargets
  rw [← caseSources_occurrences true] at hregular
  obtain ⟨stated, rendered, hperm, hstated, hrendered⟩ := hregular.split
  exact ⟨stated ++ rendered, hperm,
    .of_body (congrArg Program.body hprogram) hregular.statements_plain hstated hrendered.returnValue⟩

/-- A component that fills slots has the switches of the statements outside the blocks and those of
the blocks. -/
theorem slotFiller_shaped {base : String} (hrole : (contextOf file d).role = .slotFiller base)
    (h : (convert reader file d).result = .ok m) :
    ∃ sources, sources <+~ caseSources (converted d) ∧ ShapedFrom reader m.program sources := by
  obtain ⟨x, y, outside, slots, rfl, rfl, houtside, hslots, -, hprogram⟩ := convert_slotFiller hrole h
  have hregular := lowerNodes_regular true _ (lowerNodes_of_lowerOutside houtside)
  rw [← caseSources_occurrences true] at hregular
  obtain ⟨stated, rendered, hperm, hstated, -⟩ := hregular.split
  obtain ⟨hblocks, hplain⟩ := lowerBlocks_regular hslots
  have hstatements := hstated.append hblocks
  rw [← bodyParts_append] at hstatements
  have hresult : Regular reader (exprParts (.markup (.element base
      ((blockContents d.nodes).map fun (name, _) => .value name (.ident (slotName name))) [] true)))
      [] := by
    rw [exprParts, markupParts, childParts, List.append_nil]
    exact ((slotAttributes_regular (blockContents d.nodes)).plain rfl).plain rfl
  refine ⟨_, ?_, .of_body (congrArg Program.body hprogram) ?_ hstatements hresult⟩
  · have hstated : stated <+~ caseSources (occurrences true (d.nodes.filter standsOutside)) :=
      (List.sublist_append_left stated rendered).subperm.trans hperm.subperm
    rw [role_contextOf] at hrole
    rw [List.append_nil, converted_of_slotFiller hrole, caseSources_append]
    exact hstated.append (List.Subperm.refl _)
  · intro s hs
    rcases List.mem_append.mp hs with hs | hs
    · exact hregular.statements_plain s hs
    · exact hplain s hs

/-- **The shape of every generated program.** The body of the component is plain statements and one
return; every function with a block is plain statements and one return, or a single `switch`; every
case of a `switch` is empty, or plain statements and one return. The switches of the program come
from different `case`s that the conversion comes to, branch for branch, and from all of them unless
the file fills slots, where what stands outside the blocks is not rendered. -/
theorem convert_shaped (reader : SnippetReader) (file : Option String) (d : Document) (m : Module)
    (h : (convert reader file d).result = .ok m) :
    m.program.Shaped ∧
      ∃ sources, sources <+~ caseSources (converted d) ∧
        ((∀ base, roleOf d ≠ .slotFiller base) → sources ~ caseSources d.occurrences) ∧
        List.Forall₂ (SwitchFrom reader) (switchesIn m.program.parts) sources := by
  by_cases hfiller : ∃ base, (contextOf file d).role = .slotFiller base
  · obtain ⟨base, hrole⟩ := hfiller
    obtain ⟨sources, hsources, hshaped, hswitches⟩ := slotFiller_shaped hrole h
    refine ⟨hshaped, sources, hsources, ?_, hswitches⟩
    intro hnot
    rw [role_contextOf] at hrole
    exact absurd hrole (hnot base)
  · have hrole : ∀ base, (contextOf file d).role ≠ .slotFiller base := fun base hbase =>
      hfiller ⟨base, hbase⟩
    obtain ⟨sources, hsources, hshaped, hswitches⟩ := component_shaped hrole h
    refine ⟨hshaped, sources, ?_, fun _ => hsources, hswitches⟩
    rw [converted_of_component (role_contextOf file d ▸ hrole)]
    exact hsources.subperm

/-- A mixin chooses between blocks, and so does a branch of what is rendered before it. -/
def nestedCases : Document :=
  ⟨[.caseOf "a" [.bare (some "1") ⟨9, 15⟩,
      .block (some "2") [.caseOf "b" [.block none [.text "x" ⟨50, 51⟩] ⟨40, 51⟩] ⟨28, 34⟩] ⟨18, 24⟩,
      .bare none ⟨54, 61⟩] ⟨0, 6⟩,
    .mixinDefinition "m" none [.caseOf "c" [.block none [] ⟨86, 93⟩] ⟨75, 81⟩] ⟨62, 69⟩], 94⟩

theorem nestedCases_shaped : roleOf nestedCases = .standalone ∧
    ∃ m, (convert calmReader none nestedCases).result = .ok m ∧ m.program.Shaped ∧
      ∃ sources, sources ~ caseSources nestedCases.occurrences ∧
        (switchesIn m.program.parts).length = 3 ∧
        List.Forall₂ (SwitchFrom calmReader) (switchesIn m.program.parts) sources := by
  obtain ⟨hshaped, sources, -, hall, hswitches⟩ :=
    convert_shaped calmReader none nestedCases _ rfl
  exact ⟨rfl, _, rfl, hshaped, sources, hall nofun, rfl, hswitches⟩

end PugComponents.Component
