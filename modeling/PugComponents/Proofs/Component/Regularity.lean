import Mathlib.Data.List.Forall2
import PugComponents.Proofs.Jsx.Parts
import PugComponents.Proofs.Lowering
import PugComponents.Proofs.Template.Preorder

/- Regular parts of a program. Statements stand in three places: in the component,
   in arrow functions and in the cases of a `switch`. Everywhere they are plain
   statements and one return at the end, except that a function may be a single
   `switch` and a case may be empty. Every `switch` has a `case` of the template
   behind it, branch for branch. `Regular reader parts sources`: the parts have this
   shape, and their switches come from the sources, one from each and in their
   order. There is one rule for each way in which lowering puts parts together;
   regular targets stay so as children and as a body (`RegularTargets.placed`). -/
namespace PugComponents.Jsx

/-- A plain statement: neither a return nor a `switch`. -/
def Stmt.goesOn : Stmt → Bool
  | .result _ | .switch .. => false
  | .raw _ | .expression _ | .binding .. => true

/-- Plain statements, then one return. -/
def EndsInResult (body : List Stmt) : Prop :=
  ∃ front value, body = front ++ [.result value] ∧ ∀ s ∈ front, s.goesOn = true

/-- What a case is chosen by; nothing for the default. -/
def SwitchCase.test? : SwitchCase → Option Expr
  | .test e _ => some e
  | .otherwise _ => none

/-- The statements of a case. -/
def SwitchCase.body : SwitchCase → List Stmt
  | .test _ body => body
  | .otherwise body => body

/-- The statements that stand directly in the part have their shape. -/
def Part.Shaped : Part → Prop
  | .expr (.blockArrow _ body) =>
    EndsInResult body ∨ ∃ subject cases, body = [.switch subject cases]
  | .stmt (.switch _ cases) => ∀ c ∈ cases, c.body = [] ∨ EndsInResult c.body
  | _ => True

/-- No statements stand directly in the part. -/
def Part.isBlockless : Part → Bool
  | .expr (.blockArrow ..) => false
  | .stmt (.switch ..) => false
  | _ => true

/-- A `switch` statement. -/
structure Switch where
  subject : Expr
  cases : List SwitchCase

/-- The `switch` that a part is. -/
def Part.switch? : Part → Option Switch
  | .stmt (.switch subject cases) => some ⟨subject, cases⟩
  | _ => none

/-- The switches among parts, in their order. -/
def switchesIn (parts : List Part) : List Switch := parts.filterMap Part.switch?

/-- The shape of a program: of its component, and of every function and every `switch` in it. -/
structure Program.Shaped (p : Program) : Prop where
  body : EndsInResult p.body
  parts : ∀ part ∈ p.parts, part.Shaped
  /-- A `switch` is all that its function consists of. -/
  alone : ∀ sw ∈ switchesIn p.parts, .expr (.blockArrow [] [.switch sw.subject sw.cases]) ∈ p.parts

theorem EndsInResult.single (value : Expr) : EndsInResult [.result value] :=
  ⟨[], value, rfl, fun _ h => nomatch h⟩

theorem EndsInResult.cons {s : Stmt} {body : List Stmt} (hs : s.goesOn = true)
    (h : EndsInResult body) : EndsInResult (s :: body) := by
  obtain ⟨front, value, rfl, hfront⟩ := h
  refine ⟨s :: front, value, rfl, ?_⟩
  rintro t (_ | ⟨_, ht⟩)
  · exact hs
  · exact hfront t ht

theorem EndsInResult.ne_nil {body : List Stmt} (h : EndsInResult body) : body ≠ [] := by
  obtain ⟨front, value, rfl, -⟩ := h
  exact List.append_ne_nil_of_right_ne_nil _ (List.cons_ne_nil _ _)

theorem Part.Shaped.of_isBlockless {part : Part} (h : part.isBlockless = true) : part.Shaped := by
  unfold Part.Shaped
  split
  · cases h
  · cases h
  · trivial

theorem Part.switch?_of_isBlockless {part : Part} (h : part.isBlockless = true) : part.switch? = none := by
  unfold Part.switch?
  split
  · cases h
  · rfl

theorem switchesIn_append (a b : List Part) :
    switchesIn (a ++ b) = switchesIn a ++ switchesIn b :=
  List.filterMap_append

end PugComponents.Jsx

namespace PugComponents.Component

open scoped List
open Jsx
open Script (SnippetReader)
open Template (Node Branch Occurrence)

/-! ## Switches and the `case`s they come from -/

/-- A `case` of a template. -/
structure CaseSource where
  subject : String
  branches : List Branch

/-- The `case` that a node is. -/
def caseSource? : Node → Option CaseSource
  | .caseOf subject branches _ => some ⟨subject, branches⟩
  | _ => none

/-- The `case`s among occurrences, in their order. -/
def caseSources (occs : List Occurrence) : List CaseSource :=
  occs.filterMap fun o => caseSource? o.node

/-- The test of a branch; nothing for the default. -/
def branchTest? : Branch → Option String
  | .bare test _ => test
  | .block test _ _ => test

/-- The branch has no block. -/
def fallsThrough : Branch → Bool
  | .bare .. => true
  | .block .. => false

/-- The expression is what the reader makes of the text. -/
def ReadFrom (reader : SnippetReader) (e : Expr) (source : String) : Prop :=
  ∃ embedded, reader.expression source = .ok embedded ∧ e = .embedded embedded

/-- The case has the test of the branch, and it is empty exactly if the branch has no block. -/
structure CaseFrom (reader : SnippetReader) (c : SwitchCase) (b : Branch) : Prop where
  test : Option.Rel (ReadFrom reader) c.test? (branchTest? b)
  empty : c.body = [] ↔ fallsThrough b = true

/-- The `switch` has the subject of the `case`, and one case for each of its branches. -/
structure SwitchFrom (reader : SnippetReader) (sw : Switch) (source : CaseSource) : Prop where
  subject : ReadFrom reader sw.subject source.subject
  cases : List.Forall₂ (CaseFrom reader) sw.cases source.branches

/-! ## Parts of regular shape -/

/-- The parts have their shape, and their switches come from the sources. -/
structure Regular (reader : SnippetReader) (parts : List Part) (sources : List CaseSource) : Prop where
  shaped : ∀ part ∈ parts, part.Shaped
  alone : ∀ sw ∈ switchesIn parts, .expr (.blockArrow [] [.switch sw.subject sw.cases]) ∈ parts
  switches : List.Forall₂ (SwitchFrom reader) (switchesIn parts) sources

variable {reader : SnippetReader}

namespace Regular

variable {parts more : List Part} {sources others : List CaseSource}

theorem nil : Regular reader [] [] where
  shaped := fun _ h => nomatch h
  alone := fun _ h => nomatch h
  switches := .nil

theorem append (h : Regular reader parts sources) (h' : Regular reader more others) :
    Regular reader (parts ++ more) (sources ++ others) where
  shaped := by
    intro part hpart
    rcases List.mem_append.mp hpart with hpart | hpart
    · exact h.shaped part hpart
    · exact h'.shaped part hpart
  alone := by
    intro sw hsw
    rw [switchesIn_append] at hsw
    rcases List.mem_append.mp hsw with hsw | hsw
    · exact List.mem_append_left _ (h.alone sw hsw)
    · exact List.mem_append_right _ (h'.alone sw hsw)
  switches := by
    rw [switchesIn_append]
    exact List.rel_append h.switches h'.switches

/-- A part without statements of its own changes nothing. -/
theorem plain {part : Part} (h : Regular reader parts sources) (hpart : part.isBlockless = true) :
    Regular reader (part :: parts) sources := by
  have hswitches : switchesIn (part :: parts) = switchesIn parts :=
    List.filterMap_cons_none (Part.switch?_of_isBlockless hpart)
  refine ⟨?_, ?_, ?_⟩
  · rintro other (_ | ⟨_, hother⟩)
    · exact .of_isBlockless hpart
    · exact h.shaped other hother
  · rw [hswitches]
    exact fun sw hsw => List.mem_cons_of_mem _ (h.alone sw hsw)
  · rw [hswitches]
    exact h.switches

/-- A function whose body ends in its return. -/
theorem arrow {body : List Stmt} (h : Regular reader (bodyParts body) sources)
    (hbody : EndsInResult body) (params : List Param) :
    Regular reader (exprParts (.blockArrow params body)) sources where
  shaped := by
    rw [exprParts]
    rintro part (_ | ⟨_, hpart⟩)
    · exact .inl hbody
    · exact h.shaped part hpart
  alone := by
    rw [exprParts]
    exact fun sw hsw => List.mem_cons_of_mem _ (h.alone sw hsw)
  switches := by
    rw [exprParts]
    exact h.switches

variable {e : Expr}

theorem embedded {source : String} {span : Template.Span}
    (h : (readExpression reader source span).result = .ok e) : Regular reader (exprParts e) [] := by
  obtain ⟨embedded, -, rfl⟩ := readExpression_eq_ok h
  rw [exprParts]
  exact nil.plain rfl

variable {children : List Child}

theorem fragment (h : Regular reader (childParts children) sources) :
    Regular reader (exprParts (.fragment children)) sources := by
  rw [Expr.fragment, exprParts, markupParts]
  exact (h.plain rfl).plain rfl

theorem conditional {test consequent alternate : Expr}
    (htest : Regular reader (exprParts test) [])
    (hconsequent : Regular reader (exprParts consequent) sources)
    (halternate : Regular reader (exprParts alternate) others) :
    Regular reader (exprParts (.conditional test consequent alternate)) (sources ++ others) := by
  rw [exprParts]
  exact ((htest.append hconsequent).append halternate).plain rfl

theorem branchValue (h : Regular reader (childParts children) sources) :
    Regular reader (exprParts (Component.branchValue children)) sources := by
  unfold Component.branchValue
  split
  · rename_i hempty
    rw [List.isEmpty_iff.mp hempty, childParts] at h
    rw [exprParts]
    exact h.plain rfl
  · exact h.fragment

theorem invoked {body : List Stmt} (h : Regular reader (exprParts (.blockArrow [] body)) sources) :
    Regular reader (exprParts (.invoked body)) sources := by
  rw [Expr.invoked, exprParts, argumentParts, List.append_nil]
  exact h.plain rfl

theorem container (h : Regular reader (exprParts e) sources) :
    Regular reader (childParts [.container e]) sources := by
  rw [childParts, childParts, List.append_nil]
  exact h

theorem children_cons {c : Child} (h : Regular reader (childParts [c]) sources)
    (h' : Regular reader (childParts children) others) :
    Regular reader (childParts (c :: children)) (sources ++ others) := by
  rw [childParts_cons]
  exact h.append h'

theorem result (h : Regular reader (exprParts e) sources) :
    Regular reader (bodyParts [.result e]) sources := by
  rw [bodyParts, bodyParts, stmtParts, List.append_nil]
  exact h.plain rfl

theorem binding (h : Regular reader (exprParts e) sources) (name : String) :
    Regular reader (stmtParts (.binding name e)) sources := by
  rw [stmtParts]
  exact h.plain rfl

theorem element {attributes : List Attribute}
    (hattributes : Regular reader (attributeParts attributes) [])
    (hchildren : Regular reader (childParts children) sources) (name : String) (selfClosing : Bool) :
    Regular reader (childParts [.markup (.element name attributes children selfClosing)]) sources := by
  rw [childParts, childParts, List.append_nil, markupParts]
  exact (hattributes.append hchildren).plain rfl

theorem mapCall {collection : Expr} (hcollection : Regular reader (exprParts collection) [])
    (hchildren : Regular reader (childParts children) sources) (item : String) (key : Option String) :
    Regular reader (childParts [.markup (Component.mapCall collection item key children)])
      sources := by
  have harrow : Regular reader
      (exprParts (.arrow (Param.ident item :: key.toList.map Param.ident) (.fragment children)))
      sources := by
    rw [exprParts]
    exact hchildren.fragment.plain rfl
  have hmember : Regular reader (exprParts (.member collection "map")) [] := by
    rw [exprParts]
    exact hcollection.plain rfl
  rw [childParts, childParts, List.append_nil, Component.mapCall, markupParts, childParts, childParts,
    List.append_nil, exprParts, argumentParts, argumentParts, List.append_nil]
  exact ((hmember.append harrow).plain rfl).plain rfl

/-- The `switch` of a `case`, in the function that it is all of. -/
theorem switchCall {subject : Expr} {cases : List SwitchCase} {source : CaseSource}
    (hsubject : Regular reader (exprParts subject) [])
    (hcases : Regular reader (caseParts cases) sources)
    (hbodies : ∀ c ∈ cases, c.body = [] ∨ EndsInResult c.body)
    (hfrom : SwitchFrom reader ⟨subject, cases⟩ source) :
    Regular reader (childParts [.markup (Component.switchCall subject cases)])
      (source :: sources) := by
  have hinner := hsubject.append hcases
  have harrow : Regular reader (exprParts (.blockArrow [] [.switch subject cases]))
      (source :: sources) := by
    rw [exprParts, bodyParts, bodyParts, stmtParts, List.append_nil]
    refine ⟨?_, ?_, .cons hfrom hinner.switches⟩
    · rintro part (_ | ⟨_, _ | ⟨_, hpart⟩⟩)
      · exact .inr ⟨subject, cases, rfl⟩
      · exact hbodies
      · exact hinner.shaped part hpart
    · rintro sw (_ | ⟨_, hsw⟩)
      · exact List.mem_cons_self
      · exact List.mem_cons_of_mem _ (List.mem_cons_of_mem _ (hinner.alone sw hsw))
  have hchildren := harrow.invoked.container
  rw [childParts, childParts, List.append_nil, Component.switchCall, markupParts]
  exact hchildren.plain rfl

end Regular

/-! ## Targets -/

/-- The statement of a target, if it is one, is plain. -/
def Target.goesOn : Target → Bool
  | .statement s => s.goesOn
  | _ => true

/-- Each target is regular, and the sources are those of the targets in their order. -/
inductive RegularTargets (reader : SnippetReader) : List Target → List CaseSource → Prop
  | nil : RegularTargets reader [] []
  | cons {t : Target} {targets : List Target} {sources others : List CaseSource} :
    t.goesOn = true → Regular reader (targetParts t) sources →
      RegularTargets reader targets others → RegularTargets reader (t :: targets) (sources ++ others)

namespace RegularTargets

variable {targets more : List Target} {sources others : List CaseSource}

theorem single {t : Target} (hplain : t.goesOn = true) (h : Regular reader (targetParts t) sources) :
    RegularTargets reader [t] sources := by
  rw [← List.append_nil sources]
  exact .cons hplain h .nil

theorem append (h : RegularTargets reader targets sources) (h' : RegularTargets reader more others) :
    RegularTargets reader (targets ++ more) (sources ++ others) := by
  induction h with
  | nil => exact h'
  | cons hplain ht _ ih =>
    rw [List.append_assoc]
    exact .cons hplain ht ih

/-- Regular targets are regular as children and as a body, and the body ends in its return. -/
theorem placed (h : RegularTargets reader targets sources) :
    Regular reader (childParts (childrenOf targets)) sources ∧
      Regular reader (bodyParts (bodyOf targets)) sources ∧ EndsInResult (bodyOf targets) := by
  induction h with
  | nil =>
    refine ⟨.nil, ?_, .single _⟩
    rw [bodyOf]
    exact Regular.result (Regular.nil.plain rfl)
  | @cons t targets sources others hplain ht hrest ih =>
    obtain ⟨hchildren, hbody, hends⟩ := ih
    -- a target that renders is a child, and it ends the statements of a body
    have hrendered (c : Child) (hc : Regular reader (childParts [c]) sources) :
        Regular reader (childParts (c :: childrenOf targets)) (sources ++ others) ∧
          Regular reader (bodyParts [.result (.fragment (c :: childrenOf targets))])
            (sources ++ others) ∧
          EndsInResult [.result (.fragment (c :: childrenOf targets))] := by
      have hall := hc.children_cons hchildren
      exact ⟨hall, hall.fragment.result, .single _⟩
    cases t with
    | child c =>
      rw [childrenOf, bodyOf]
      exact hrendered c ht
    | bare e =>
      rw [childrenOf, bodyOf]
      exact hrendered (.container e) ht.container
    | statement s =>
      have hstatements : Regular reader (bodyParts (s :: bodyOf targets)) (sources ++ others) := by
        rw [bodyParts]
        exact ht.append hbody
      have hreturned : EndsInResult (s :: bodyOf targets) := hends.cons hplain
      rw [childrenOf, bodyOf]
      exact ⟨(hstatements.arrow hreturned []).invoked.container, hstatements, hreturned⟩
    | imported i =>
      have hparts := ht.append hchildren
      have hstatements := ht.append hbody
      rw [childrenOf, bodyOf]
      exact ⟨hparts, hstatements, hends⟩
    | placeholder =>
      have hparts := ht.append hchildren
      have hstatements := ht.append hbody
      rw [childrenOf, bodyOf, childParts]
      exact ⟨hparts, hstatements, hends⟩

theorem children (h : RegularTargets reader targets sources) :
    Regular reader (childParts (childrenOf targets)) sources := h.placed.1

theorem body (h : RegularTargets reader targets sources) :
    Regular reader (bodyParts (bodyOf targets)) sources := h.placed.2.1

theorem endsInResult (h : RegularTargets reader targets sources) : EndsInResult (bodyOf targets) :=
  h.placed.2.2

/-- The statements of regular targets come from some of the sources, what is rendered from the
others. -/
theorem split (h : RegularTargets reader targets sources) :
    ∃ stated rendered, stated ++ rendered ~ sources ∧
      Regular reader (bodyParts (targets.filterMap Target.statement?)) stated ∧
      Regular reader (childParts (targets.filterMap Target.rendered?)) rendered := by
  induction h with
  | nil => exact ⟨[], [], List.Perm.refl _, .nil, .nil⟩
  | @cons t targets sources others hplain ht hrest ih =>
    obtain ⟨stated, rendered, hperm, hstated, hrendered⟩ := ih
    have hchild (c : Child) (hc : Regular reader (childParts [c]) sources) :
        ∃ stated rendered, stated ++ rendered ~ sources ++ others ∧
          Regular reader (bodyParts (targets.filterMap Target.statement?)) stated ∧
          Regular reader (childParts (c :: targets.filterMap Target.rendered?)) rendered := by
      refine ⟨stated, sources ++ rendered, ?_, hstated, hc.children_cons hrendered⟩
      calc stated ++ (sources ++ rendered)
        _ = (stated ++ sources) ++ rendered := (List.append_assoc _ _ _).symm
        _ ~ (sources ++ stated) ++ rendered := List.perm_append_comm.append_right rendered
        _ = sources ++ (stated ++ rendered) := List.append_assoc _ _ _
        _ ~ sources ++ others := hperm.append_left sources
    have hnothing (hparts : targetParts t = []) : sources = [] := by
      have hswitches := ht.switches
      rw [hparts] at hswitches
      cases hswitches
      rfl
    cases t with
    | child c => exact hchild c ht
    | bare e => exact hchild (.container e) ht.container
    | statement s =>
      refine ⟨sources ++ stated, rendered, ?_, ?_, hrendered⟩
      · rw [List.append_assoc]
        exact hperm.append_left sources
      · show Regular reader (bodyParts (s :: targets.filterMap Target.statement?)) _
        rw [bodyParts]
        exact ht.append hstated
    | imported i | placeholder =>
      rw [hnothing rfl]
      exact ⟨stated, rendered, hperm, hstated, hrendered⟩

theorem statements_plain (h : RegularTargets reader targets sources) :
    ∀ s ∈ targets.filterMap Target.statement?, s.goesOn = true := by
  intro s hs
  obtain ⟨t, ht, hts⟩ := List.mem_filterMap.mp hs
  induction h with
  | nil => cases ht
  | @cons first targets sources others hplain _ _ ih =>
    cases ht with
    | head =>
      cases t with
      | statement s' =>
        cases hts
        exact hplain
      | _ => cases hts
    | tail _ ht => exact ih (List.mem_filterMap.mpr ⟨t, ht, hts⟩) ht

end RegularTargets

end PugComponents.Component
