import Mathlib.Data.List.Forall2
import PugComponents.Component.Lowering

/- Lowering that succeeds. A sequence of steps has a result when each step has
   one (`result_bind_eq_ok`); the lemmas below say what the small steps of
   lowering give when they do, and what a node of each kind is then lowered to
   (`lowerNode_eq_ok`). -/
namespace PugComponents.Component

open Jsx (Expr Param Stmt SwitchCase)
open Link (importOf slotName)
open Script (SnippetReader)
open Template (Alternate Branch CodeKind Node isBlankText mixinParameters)

namespace Journal

theorem empty_append (j : Journal) : Journal.empty.append j = j := rfl

theorem append_empty (j : Journal) : j.append .empty = j := by
  simp [append, empty]

theorem append_assoc (a b c : Journal) : (a.append b).append c = a.append (b.append c) := by
  simp [append]

theorem warnings_append (a b : Journal) : (a.append b).warnings = a.warnings ++ b.warnings :=
  List.filterMap_append

end Journal

namespace Lower

variable {α β : Type}

/-- Two steps in a row have a result when each of them has one. -/
theorem result_bind_eq_ok {x : Lower α} {f : α → Lower β} {b : β} :
    (x >>= f).result = .ok b ↔ ∃ a, x.result = .ok a ∧ (f a).result = .ok b := by
  cases h : x.result with
  | error e => rw [bind_error h]; simp
  | ok a => rw [bind_ok h]; simp

theorem result_pure_eq_ok {a b : α} : (Pure.pure a : Lower α).result = .ok b ↔ a = b := by
  simp

theorem result_fail_ne_ok {e : Failure} {a : α} : (Lower.fail e : Lower α).result ≠ .ok a := by
  simp [Lower.fail]

instance : LawfulMonad Lower :=
  LawfulMonad.mk' Lower
    (by
      intro α x
      change Lower.bind x (fun a => Lower.pure a) = x
      unfold Lower.bind
      cases h : x.result with
      | error e => simp [← h]
      | ok a => simp [Lower.pure, Journal.append_empty, ← h])
    (by
      intro α β a f
      change Lower.bind (Lower.pure a) f = f a
      simp [Lower.bind, Lower.pure, Journal.empty_append])
    (by
      intro α β γ x f g
      change Lower.bind (Lower.bind x f) g = Lower.bind x fun a => Lower.bind (f a) g
      cases hx : x.result with
      | error e => simp [Lower.bind, hx]
      | ok a =>
        cases hf : (f a).result with
        | error e => simp [Lower.bind, hx, hf]
        | ok b => simp [Lower.bind, hx, hf, Journal.append_assoc])

/-- A list of steps has the results of its members. -/
theorem result_mapM_eq_ok {f : α → Lower β} {xs : List α} {ys : List β} :
    (xs.mapM f).result = .ok ys ↔ List.Forall₂ (fun x y => (f x).result = .ok y) xs ys := by
  induction xs generalizing ys with
  | nil => cases ys <;> simp
  | cons x xs ih =>
    rw [List.mapM_cons, result_bind_eq_ok]
    constructor
    · rintro ⟨y, hy, h⟩
      obtain ⟨rest, hrest, h⟩ := result_bind_eq_ok.mp h
      obtain rfl := result_pure_eq_ok.mp h
      exact .cons hy (ih.mp hrest)
    · intro h
      cases h with
      | cons hy hrest =>
        exact ⟨_, hy, result_bind_eq_ok.mpr ⟨_, ih.mpr hrest, result_pure_eq_ok.mpr rfl⟩⟩

end Lower

open Lower

variable {span : Template.Span}

/-- An expression that is read is the snippet's. -/
theorem readExpression_eq_ok {reader : SnippetReader} {source : String} {e : Expr}
    (h : (readExpression reader source span).result = .ok e) :
    ∃ embedded, reader.expression source = .ok embedded ∧ e = .embedded embedded := by
  unfold readExpression at h
  split at h
  · rename_i embedded he
    exact ⟨embedded, he, (result_pure_eq_ok.mp h).symm⟩
  · exact absurd h result_fail_ne_ok

/-! ## Targets as children and as a body -/

mutual

/-- The children that targets become. -/
def childrenOf : List Target → List Jsx.Child
  | [] => []
  | .child c :: rest => c :: childrenOf rest
  | .bare e :: rest => .container e :: childrenOf rest
  | .placeholder :: rest => .text " " :: childrenOf rest
  | .imported _ :: rest => childrenOf rest
  | .statement s :: rest => [.container (.invoked (s :: bodyOf rest))]

/-- The function body that targets become. -/
def bodyOf : List Target → List Stmt
  | [] => [.result .null]
  | .statement s :: rest => s :: bodyOf rest
  | .imported _ :: rest | .placeholder :: rest => bodyOf rest
  | .child c :: rest => [.result (.fragment (c :: childrenOf rest))]
  | .bare e :: rest => [.result (.fragment (.container e :: childrenOf rest))]

end

/-- Reading targets gives the children or the body, and leaves the imports in the journal one after
the other. -/
theorem asChildren_asBody_eq (targets : List Target) :
    asChildren targets = ⟨⟨[], importsOf targets⟩, .ok (childrenOf targets)⟩ ∧
      asBody targets = ⟨⟨[], importsOf targets⟩, .ok (bodyOf targets)⟩ := by
  induction targets with
  | nil => exact ⟨rfl, rfl⟩
  | cons t rest ih =>
    obtain ⟨hchildren, hbody⟩ := ih
    have hmap {α β : Type} (a : α) (f : α → β) :
        ((⟨⟨[], importsOf rest⟩, .ok a⟩ : Lower α) >>= fun a => Pure.pure (f a)) =
          ⟨⟨[], importsOf rest⟩, .ok (f a)⟩ := by
      rw [bind_ok rfl]
      exact congrArg (Lower.mk · _) (Journal.append_empty _)
    cases t with
    | child | bare =>
      rw [asChildren, asBody, hchildren, hmap, hmap]
      exact ⟨rfl, rfl⟩
    | statement =>
      rw [asChildren, asBody, hbody, hmap, hmap]
      exact ⟨rfl, rfl⟩
    | imported =>
      rw [asChildren, asBody, hchildren, hbody]
      exact ⟨rfl, rfl⟩
    | placeholder =>
      rw [asChildren, asBody, hchildren, hbody, hmap]
      exact ⟨rfl, rfl⟩

theorem asChildren_eq (targets : List Target) :
    asChildren targets = ⟨⟨[], importsOf targets⟩, .ok (childrenOf targets)⟩ :=
  (asChildren_asBody_eq targets).1

theorem asBody_eq (targets : List Target) :
    asBody targets = ⟨⟨[], importsOf targets⟩, .ok (bodyOf targets)⟩ :=
  (asChildren_asBody_eq targets).2

theorem journal_asChildren (targets : List Target) :
    (asChildren targets).journal = ⟨[], importsOf targets⟩ := by rw [asChildren_eq]

theorem journal_asBody (targets : List Target) : (asBody targets).journal = ⟨[], importsOf targets⟩ := by
  rw [asBody_eq]

/-- What follows nodes as children has the children of their targets. -/
theorem result_asChildren_eq_ok {β : Type} {x : Lower (List Target)} {k : List Jsx.Child → Lower β} {b : β}
    (h : (x >>= fun targets => asChildren targets >>= k).result = .ok b) :
    ∃ targets, x.result = .ok targets ∧ (k (childrenOf targets)).result = .ok b := by
  obtain ⟨targets, htargets, h⟩ := result_bind_eq_ok.mp h
  rw [asChildren_eq] at h
  exact ⟨targets, htargets, h⟩

/-- What follows nodes as a function body has the body of their targets. -/
theorem result_asBody_eq_ok {β : Type} {x : Lower (List Target)} {k : List Stmt → Lower β} {b : β}
    (h : (x >>= fun targets => asBody targets >>= k).result = .ok b) :
    ∃ targets, x.result = .ok targets ∧ (k (bodyOf targets)).result = .ok b := by
  obtain ⟨targets, htargets, h⟩ := result_bind_eq_ok.mp h
  rw [asBody_eq] at h
  exact ⟨targets, htargets, h⟩

variable {l : Lowered}

theorem skipped_eq_ok {cause : WarningCause} (h : (skipped cause span).result = .ok l) :
    l = .nothing := by
  obtain ⟨_, _, h⟩ := result_bind_eq_ok.mp h
  exact (result_pure_eq_ok.mp h).symm

/-- The test of a branch that is read is the one written. -/
theorem readTest_eq_ok {reader : SnippetReader} {test : Option String} {value : Option Expr}
    (h : (readTest reader test span).result = .ok value) :
    (test = none ∧ value = none) ∨
      ∃ source e, test = some source ∧ value = some e ∧
        (readExpression reader source span).result = .ok e := by
  cases test with
  | none => exact .inl ⟨rfl, (result_pure_eq_ok.mp h).symm⟩
  | some source =>
    obtain ⟨e, he, h⟩ := result_bind_eq_ok.mp h
    exact .inr ⟨source, e, rfl, (result_pure_eq_ok.mp h).symm, he⟩

/-- Script lowers to its statements, or to the expression whose value it renders. -/
theorem lowerCode_eq_ok {setting : Setting} {value : String} {kind : CodeKind} {block : List Node}
    (h : (lowerCode setting value kind block span).result = .ok l) :
    (kind = .run ∧ ∃ statements, setting.reader.statements value = .ok statements ∧
        l = .many (statements.map fun s => .statement (embeddedStatement s))) ∨
      (kind ≠ .run ∧ ∃ e, (readExpression setting.reader value span).result = .ok e ∧
        l = .one (.child (.container e))) := by
  unfold lowerCode at h
  split at h
  · exact absurd h result_fail_ne_ok
  · split at h
    · rename_i hk
      split at h
      · rename_i statements hs
        exact .inl ⟨hk, statements, hs, (result_pure_eq_ok.mp h).symm⟩
      · exact absurd h result_fail_ne_ok
    · rename_i hk
      obtain ⟨e, he, h⟩ := result_bind_eq_ok.mp h
      exact .inr ⟨hk, e, he, (result_pure_eq_ok.mp h).symm⟩

/-! ## Nodes -/

section

variable (setting : Setting)

/-- What a node is lowered to when each of its steps has a result. -/
def NodeYields (top : Bool) : Node → Lowered → Prop
  | .text value _, l => l = .one (if isBlankText value then .placeholder else .child (.text value))
  | .code value kind block span, l => (lowerCode setting value kind block span).result = .ok l
  | .group nodes _, l => ∃ ts, (lowerNodes setting false nodes).result = .ok ts ∧ l = .many ts
  | .namedBlock name _ nodes _, l =>
    (setting.layout = false ∧ ∃ ts, (lowerNodes setting false nodes).result = .ok ts ∧ l = .many ts) ∨
      (setting.layout = true ∧ nodes = [] ∧ l = .one (slot (slotName name) none)) ∨
      (setting.layout = true ∧ nodes ≠ [] ∧ ∃ ts, (lowerNodes setting false nodes).result = .ok ts ∧
        l = .one (slot (slotName name) (some (childrenOf ts))))
  | .comment .., l => l = .one .placeholder
  | .doctype .., l => l = .nothing
  | .caseOf subject branches span, l => ∃ value cases,
    (readExpression setting.reader subject span).result = .ok value ∧
      (lowerBranches setting branches).result = .ok cases ∧
      l = .one (.child (.markup (switchCall value cases)))
  | .conditional test consequent alternates span, l => ∃ value ts other,
    (readExpression setting.reader test span).result = .ok value ∧
      (lowerNodes setting false consequent).result = .ok ts ∧
      (lowerAlternates setting alternates).result = .ok other ∧
      l = .one (.bare (.conditional value (branchValue (childrenOf ts)) other))
  | .each collection item key body span, l => ∃ value ts,
    (readExpression setting.reader collection span).result = .ok value ∧
      (lowerNodes setting false body).result = .ok ts ∧
      l = .one (.child (.markup (mapCall value item key (childrenOf ts))))
  | .mixinDefinition name arguments body _, l => ∃ ts,
    (lowerNodes setting false body).result = .ok ts ∧
      l = .one (.statement (.binding (mixinName name)
        (.blockArrow ((mixinParameters arguments).map Param.ident) (bodyOf ts))))
  | .tag name attributes spreads children selfClosing _, l => ∃ list ts,
    (lowerAttributes setting.reader attributes spreads).result = .ok list ∧
      (lowerNodes setting false children).result = .ok ts ∧
      l = .one (.child (.markup (.element name list (childrenOf ts) selfClosing)))
  | .interpolatedTag expression span, l => ∃ value,
    (readExpression setting.reader expression span).result = .ok value ∧
      l = .one (.child (.container value))
  | .includeFile file column _, l =>
    ((top && column == 1) = true ∧ l = .one (.imported (importOf file))) ∨
      ((top && column == 1) = false ∧ l = .nothing)
  | .rawInclude .., l | .mixinCall .., l => l = .nothing
  | .extendsFile file _, l => l = .one (.imported (importOf file))
  | .whileLoop .., _ | .mixinBlock .., _ | .filter .., _ => False

def NodesYield (top : Bool) : List Node → List Target → Prop
  | [], ts => ts = []
  | node :: rest, ts => ∃ l more, (lowerNode setting top node).result = .ok l ∧
    (lowerNodes setting top rest).result = .ok more ∧ ts = l.targets ++ more

def AlternatesYield : List Alternate → Expr → Prop
  | [], e => e = .null
  | .orElse nodes _ :: _, e => ∃ ts, (lowerNodes setting false nodes).result = .ok ts ∧
    e = branchValue (childrenOf ts)
  | .orIf test nodes span :: rest, e => ∃ value ts other,
    (readExpression setting.reader test span).result = .ok value ∧
      (lowerNodes setting false nodes).result = .ok ts ∧
      (lowerAlternates setting rest).result = .ok other ∧
      e = .conditional value (branchValue (childrenOf ts)) other

def BranchesYield : List Branch → List SwitchCase → Prop
  | [], cases => cases = []
  | .bare test span :: rest, cases => ∃ value more,
    (readTest setting.reader test span).result = .ok value ∧
      (lowerBranches setting rest).result = .ok more ∧ cases = switchCase value [] :: more
  | .block test nodes span :: rest, cases => ∃ value ts more,
    (readTest setting.reader test span).result = .ok value ∧
      (lowerNodes setting false nodes).result = .ok ts ∧
      (lowerBranches setting rest).result = .ok more ∧ cases = switchCase value (bodyOf ts) :: more

end

variable {setting : Setting}

theorem lowerNode_eq_ok {top : Bool} {node : Node} (h : (lowerNode setting top node).result = .ok l) :
    NodeYields setting top node l := by
  cases node with
  | text | comment | doctype | extendsFile =>
    rw [lowerNode] at h
    exact (result_pure_eq_ok.mp h).symm
  | code =>
    rw [lowerNode] at h
    exact h
  | group =>
    rw [lowerNode] at h
    obtain ⟨ts, hts, h⟩ := result_bind_eq_ok.mp h
    exact ⟨ts, hts, (result_pure_eq_ok.mp h).symm⟩
  | namedBlock =>
    rw [lowerNode] at h
    split at h
    · rename_i hlayout
      obtain ⟨ts, hts, h⟩ := result_bind_eq_ok.mp h
      exact .inl ⟨by simpa using hlayout, ts, hts, (result_pure_eq_ok.mp h).symm⟩
    · rename_i hlayout
      refine .inr ?_
      split at h
      · rename_i hempty
        exact .inl ⟨by simpa using hlayout, List.isEmpty_iff.mp hempty, (result_pure_eq_ok.mp h).symm⟩
      · rename_i hempty
        obtain ⟨ts, hts, h⟩ := result_asChildren_eq_ok h
        exact .inr ⟨by simpa using hlayout, by simpa using hempty, ts, hts, (result_pure_eq_ok.mp h).symm⟩
  | caseOf =>
    rw [lowerNode] at h
    obtain ⟨value, hvalue, h⟩ := result_bind_eq_ok.mp h
    obtain ⟨cases, hcases, h⟩ := result_bind_eq_ok.mp h
    exact ⟨value, cases, hvalue, hcases, (result_pure_eq_ok.mp h).symm⟩
  | conditional =>
    rw [lowerNode] at h
    obtain ⟨value, hvalue, h⟩ := result_bind_eq_ok.mp h
    obtain ⟨ts, hts, h⟩ := result_asChildren_eq_ok h
    obtain ⟨other, hother, h⟩ := result_bind_eq_ok.mp h
    exact ⟨value, ts, other, hvalue, hts, hother, (result_pure_eq_ok.mp h).symm⟩
  | each =>
    rw [lowerNode] at h
    obtain ⟨value, hvalue, h⟩ := result_bind_eq_ok.mp h
    obtain ⟨ts, hts, h⟩ := result_asChildren_eq_ok h
    exact ⟨value, ts, hvalue, hts, (result_pure_eq_ok.mp h).symm⟩
  | mixinDefinition =>
    rw [lowerNode] at h
    obtain ⟨ts, hts, h⟩ := result_asBody_eq_ok h
    exact ⟨ts, hts, (result_pure_eq_ok.mp h).symm⟩
  | tag =>
    rw [lowerNode] at h
    obtain ⟨list, hlist, h⟩ := result_bind_eq_ok.mp h
    obtain ⟨ts, hts, h⟩ := result_asChildren_eq_ok h
    exact ⟨list, ts, hlist, hts, (result_pure_eq_ok.mp h).symm⟩
  | interpolatedTag =>
    rw [lowerNode] at h
    obtain ⟨value, hvalue, h⟩ := result_bind_eq_ok.mp h
    exact ⟨value, hvalue, (result_pure_eq_ok.mp h).symm⟩
  | includeFile =>
    rw [lowerNode] at h
    split at h
    · rename_i hfirst
      exact .inl ⟨hfirst, (result_pure_eq_ok.mp h).symm⟩
    · rename_i hfirst
      exact .inr ⟨by simpa using hfirst, skipped_eq_ok h⟩
  | rawInclude | mixinCall =>
    rw [lowerNode] at h
    exact skipped_eq_ok h
  | whileLoop | mixinBlock | filter =>
    rw [lowerNode] at h
    exact result_fail_ne_ok h

theorem lowerNodes_eq_ok {top : Bool} {nodes : List Node} {ts : List Target}
    (h : (lowerNodes setting top nodes).result = .ok ts) : NodesYield setting top nodes ts := by
  cases nodes with
  | nil =>
    rw [lowerNodes] at h
    exact (result_pure_eq_ok.mp h).symm
  | cons =>
    rw [lowerNodes] at h
    obtain ⟨l, hl, h⟩ := result_bind_eq_ok.mp h
    obtain ⟨_, -, h⟩ := result_bind_eq_ok.mp h
    obtain ⟨more, hmore, h⟩ := result_bind_eq_ok.mp h
    exact ⟨l, more, hl, hmore, (result_pure_eq_ok.mp h).symm⟩

theorem lowerAlternates_eq_ok {alternates : List Alternate} {e : Expr}
    (h : (lowerAlternates setting alternates).result = .ok e) : AlternatesYield setting alternates e := by
  match alternates with
  | [] =>
    rw [lowerAlternates] at h
    exact (result_pure_eq_ok.mp h).symm
  | .orElse .. :: _ =>
    rw [lowerAlternates] at h
    obtain ⟨ts, hts, h⟩ := result_asChildren_eq_ok h
    exact ⟨ts, hts, (result_pure_eq_ok.mp h).symm⟩
  | .orIf .. :: _ =>
    rw [lowerAlternates] at h
    obtain ⟨value, hvalue, h⟩ := result_bind_eq_ok.mp h
    obtain ⟨ts, hts, h⟩ := result_asChildren_eq_ok h
    obtain ⟨other, hother, h⟩ := result_bind_eq_ok.mp h
    exact ⟨value, ts, other, hvalue, hts, hother, (result_pure_eq_ok.mp h).symm⟩

theorem lowerBranches_eq_ok {branches : List Branch} {cases : List SwitchCase}
    (h : (lowerBranches setting branches).result = .ok cases) : BranchesYield setting branches cases := by
  match branches with
  | [] =>
    rw [lowerBranches] at h
    exact (result_pure_eq_ok.mp h).symm
  | .bare .. :: _ =>
    rw [lowerBranches] at h
    obtain ⟨value, hvalue, h⟩ := result_bind_eq_ok.mp h
    obtain ⟨more, hmore, h⟩ := result_bind_eq_ok.mp h
    exact ⟨value, more, hvalue, hmore, (result_pure_eq_ok.mp h).symm⟩
  | .block .. :: _ =>
    rw [lowerBranches] at h
    obtain ⟨value, hvalue, h⟩ := result_bind_eq_ok.mp h
    obtain ⟨ts, hts, h⟩ := result_asBody_eq_ok h
    obtain ⟨more, hmore, h⟩ := result_bind_eq_ok.mp h
    exact ⟨value, ts, more, hvalue, hts, hmore, (result_pure_eq_ok.mp h).symm⟩

end PugComponents.Component
