import PugComponents.Component.Module
import PugComponents.Proofs.Lowering
import PugComponents.Proofs.Template.Preorder

/- What lowering records beside its result. A node that is skipped leaves a
   warning, a reference that is kept leaves an import. Warnings go to the journal
   at once. An import first travels as a target; it goes to the journal when the
   targets become children or a body. `Accounts x kept occs`: a step `x` that
   succeeds has the warnings of the occurrences `occs` in its journal, in order,
   and their imports in its journal or, as `kept` tells, still in its result.
   There is one rule for each way in which lowering puts steps together; by them
   lowering accounts for the occurrences in the nodes (`lowerNodes_accounts`). -/
namespace PugComponents.Component

open scoped List
open Component.Lower (bind_ok bind_error result_bind_eq_ok result_pure_eq_ok result_fail_ne_ok)
open Jsx (Import)
open Link (importOf)
open Script (SnippetReader)
open Template (Span Spread Node Branch Alternate CodeKind Occurrence occurrences
  preorderOfBranches preorderOfAlternates occurrences_false)

/-- The warning that an occurrence gives: for a reference to a template unless it stands directly in
the document and in the first column, for every other file, and for every mixin call. -/
def warningAt? (o : Occurrence) : Option Warning :=
  match o.node with
  | .includeFile file column span =>
    if o.direct && column == 1 then none else some ⟨.includePosition file.path, span⟩
  | .rawInclude file span => some ⟨.rawInclude file.path, span⟩
  | .mixinCall name _ _ _ _ span => some ⟨.mixinCall name, span⟩
  | _ => none

/-- The import that an occurrence gives: for a layout, and for a reference to a template that stands
directly in the document and in the first column. -/
def importAt? (o : Occurrence) : Option Import :=
  match o.node with
  | .extendsFile file _ => some (importOf file)
  | .includeFile file column _ => if o.direct && column == 1 then some (importOf file) else none
  | _ => none

/-! ## Warnings and imports of a step -/

variable {α β γ : Type}

/-- The step leaves nothing in the journal. -/
def Lower.Quiet (x : Lower α) : Prop := x.journal = .empty

namespace Lower.Quiet

theorem bind {x : Lower α} {f : α → Lower β} (hx : x.Quiet) (hf : ∀ a, (f a).Quiet) :
    (x >>= f).Quiet := by
  unfold Quiet at *
  cases h : x.result with
  | error e => rw [bind_error h, hx]
  | ok a => rw [bind_ok h, hx, hf a, Journal.empty_append]

theorem mapM {f : α → Lower β} (xs : List α) (h : ∀ x, (f x).Quiet) : (xs.mapM f).Quiet := by
  induction xs with
  | nil => rfl
  | cons x xs ih =>
    rw [List.mapM_cons]
    exact (h x).bind fun _ => ih.bind fun _ => rfl

theorem readExpression (reader : SnippetReader) (source : String) (span : Span) :
    (Component.readExpression reader source span).Quiet := by
  unfold Component.readExpression
  split <;> rfl

theorem readTest (reader : SnippetReader) (test : Option String) (span : Span) :
    (Component.readTest reader test span).Quiet := by
  cases test with
  | none => rfl
  | some source => exact (readExpression reader source span).bind fun _ => rfl

theorem lowerAttributes (reader : SnippetReader) (attributes : List Template.Attribute)
    (spreads : List Spread) : (Component.lowerAttributes reader attributes spreads).Quiet := by
  have hattribute (a : Template.Attribute) : (lowerAttribute reader a).Quiet := by
    unfold lowerAttribute
    split
    · rfl
    · split
      · rfl
      · exact (readExpression _ _ _).bind fun _ => rfl
  have hspread (s : Spread) : (lowerSpread reader s).Quiet :=
    (readExpression _ _ _).bind fun _ => rfl
  exact (mapM attributes hattribute).bind fun _ => (mapM spreads hspread).bind fun _ => rfl

theorem lowerCode (setting : Setting) (value : String) (kind : CodeKind) (block : List Node)
    (span : Span) : (Component.lowerCode setting value kind block span).Quiet := by
  unfold Component.lowerCode
  split
  · rfl
  · split
    · split <;> rfl
    · exact (readExpression _ _ _).bind fun _ => rfl

end Lower.Quiet

/-- A step that succeeds leaves these warnings. -/
def Warns (x : Lower α) (ws : List Warning) : Prop :=
  ∀ a, x.result = .ok a → x.journal.warnings = ws

theorem Warns.bind {x : Lower α} {f : α → Lower β} {ws vs : List Warning} (hx : Warns x ws)
    (hf : ∀ a, Warns (f a) vs) : Warns (x >>= f) (ws ++ vs) := by
  intro b hb
  obtain ⟨a, ha, hb⟩ := result_bind_eq_ok.mp hb
  rw [bind_ok ha, Journal.warnings_append, hx a ha, hf a b hb]

theorem Warns.quiet {x : Lower α} (h : x.Quiet) : Warns x [] := by
  intro a _
  rw [h]
  rfl

/-- A step that succeeds leaves these imports in its journal, apart from those that it keeps in its
result. -/
def Hoists (x : Lower α) (kept : α → List Import) (is : List Import) : Prop :=
  ∀ a, x.result = .ok a → kept a ++ x.journal.imports ~ is

namespace Hoists

variable {x : Lower α} {kept : α → List Import} {is js : List Import}

/-- What the first step keeps is left to the second one. -/
theorem bind {f : α → Lower β} {kept' : β → List Import} (hx : Hoists x kept is)
    (hf : ∀ a, Hoists (f a) kept' (kept a ++ js)) : Hoists (x >>= f) kept' (is ++ js) := by
  intro b hb
  obtain ⟨a, ha, hb⟩ := result_bind_eq_ok.mp hb
  rw [bind_ok ha]
  have hswap (front middle back : List Import) :
      front ++ (middle ++ back) ~ (front ++ back) ++ middle := by
    rw [List.append_assoc]
    exact List.perm_append_comm.append_left front
  calc kept' b ++ (x.journal.imports ++ (f a).journal.imports)
    _ ~ (kept' b ++ (f a).journal.imports) ++ x.journal.imports := hswap _ _ _
    _ ~ (kept a ++ js) ++ x.journal.imports := (hf a b hb).append_right _
    _ ~ (kept a ++ x.journal.imports) ++ js := by
      rw [List.append_assoc]
      exact hswap _ _ _
    _ ~ is ++ js := (hx a ha).append_right _

theorem quiet (h : x.Quiet) (hkept : ∀ a, x.result = .ok a → kept a = []) : Hoists x kept [] := by
  intro a ha
  rw [h, hkept a ha]
  exact List.Perm.refl _

/-- The result of a step is put to use, perhaps with further imports in front. -/
theorem map {f : α → β} {kept' : β → List Import} (hx : Hoists x kept is) (front : List Import)
    (hf : ∀ a, kept' (f a) = front ++ kept a) :
    Hoists (x >>= fun a => pure (f a)) kept' (front ++ is) := by
  intro b hb
  obtain ⟨a, ha, hb⟩ := result_bind_eq_ok.mp hb
  rw [bind_ok ha, ← result_pure_eq_ok.mp hb, hf, List.append_assoc]
  show front ++ (kept a ++ (x.journal.append .empty).imports) ~ front ++ is
  rw [Journal.append_empty]
  exact (hx a ha).append_left front

/-- When targets are placed, their imports go to the journal. -/
theorem place {x : Lower (List Target)} (hx : Hoists x importsOf is) {p : List Target → Lower β}
    (hp : ∀ ts, (p ts).journal = ⟨[], importsOf ts⟩) {k : β → Lower γ} {kept' : γ → List Import}
    (hk : ∀ b, Hoists (k b) kept' js) : Hoists (x >>= fun ts => p ts >>= k) kept' (is ++ js) := by
  apply hx.bind
  intro ts
  have hplaced : Hoists (p ts) (fun _ => []) (importsOf ts) := by
    intro b _
    rw [hp, List.nil_append]
  exact hplaced.bind hk

end Hoists

/-! ## Steps that account for occurrences -/

/-- The warnings and the imports of a step are those of the occurrences. -/
structure Accounts (x : Lower α) (kept : α → List Import) (occs : List Occurrence) : Prop where
  warns : Warns x (occs.filterMap warningAt?)
  hoists : Hoists x kept (occs.filterMap importAt?)

namespace Accounts

variable {x : Lower α} {kept : α → List Import} {occs more : List Occurrence}

theorem quiet (h : x.Quiet) (hkept : ∀ a, x.result = .ok a → kept a = []) : Accounts x kept [] :=
  ⟨.quiet h, .quiet h hkept⟩

theorem pure {a : α} (hkept : kept a = []) : Accounts (Pure.pure a : Lower α) kept [] := by
  apply quiet (x := Pure.pure a) rfl
  intro b hb
  rw [← result_pure_eq_ok.mp hb, hkept]

theorem fail (e : Failure) : Accounts (.fail e : Lower α) kept occs :=
  ⟨fun _ h => absurd h result_fail_ne_ok, fun _ h => absurd h result_fail_ne_ok⟩

theorem bind {f : α → Lower β} {kept' : β → List Import} (hx : Accounts x (fun _ => []) occs)
    (hf : ∀ a, Accounts (f a) kept' more) : Accounts (x >>= f) kept' (occs ++ more) where
  warns := by
    rw [List.filterMap_append]
    exact hx.warns.bind fun a => (hf a).warns
  hoists := by
    rw [List.filterMap_append]
    exact hx.hoists.bind fun a => (hf a).hoists

/-- A step that leaves nothing comes first. -/
theorem after {f : α → Lower β} {kept' : β → List Import} (hx : x.Quiet)
    (hf : ∀ a, Accounts (f a) kept' occs) : Accounts (x >>= f) kept' occs :=
  (quiet hx fun _ _ => rfl).bind hf

theorem map {f : α → β} {kept' : β → List Import} (hx : Accounts x kept occs)
    (hf : ∀ a, kept' (f a) = kept a) : Accounts (x >>= fun a => Pure.pure (f a)) kept' occs where
  warns := by
    have h := hx.warns.bind fun a => Warns.quiet (x := Pure.pure (f a)) rfl
    rwa [List.append_nil] at h
  hoists := hx.hoists.map [] hf

theorem mapM {f : α → Lower β} {g : α → List Occurrence} (xs : List α)
    (h : ∀ x, Accounts (f x) (fun _ => []) (g x)) :
    Accounts (xs.mapM f) (fun _ => []) (xs.flatMap g) := by
  induction xs with
  | nil => exact pure rfl
  | cons x xs ih =>
    rw [List.mapM_cons, List.flatMap_cons]
    exact (h x).bind fun _ => ih.map fun _ => rfl

/-- Targets become children or a body; their imports go to the journal. -/
theorem place {x : Lower (List Target)} (hx : Accounts x importsOf occs) {p : List Target → Lower β}
    (hp : ∀ ts, (p ts).journal = ⟨[], importsOf ts⟩) {k : β → Lower γ} {kept' : γ → List Import}
    (hk : ∀ b, Accounts (k b) kept' more) :
    Accounts (x >>= fun ts => p ts >>= k) kept' (occs ++ more) where
  warns := by
    rw [List.filterMap_append]
    apply hx.warns.bind
    intro ts
    have hplaced : Warns (p ts) [] := by
      intro _ _
      rw [hp]
      rfl
    exact hplaced.bind fun b => (hk b).warns
  hoists := by
    rw [List.filterMap_append]
    exact hx.hoists.place hp fun b => (hk b).hoists

/-- The targets are placed, and nothing else is left to do. -/
theorem place_map {x : Lower (List Target)} (hx : Accounts x importsOf occs)
    {p : List Target → Lower β} (hp : ∀ ts, (p ts).journal = ⟨[], importsOf ts⟩) {g : β → γ}
    {kept' : γ → List Import} (hg : ∀ b, kept' (g b) = []) :
    Accounts (x >>= fun ts => p ts >>= fun b => Pure.pure (g b)) kept' occs := by
  rw [← List.append_nil occs]
  exact hx.place hp fun b => pure (hg b)

variable {o : Occurrence}

/-- An occurrence that gives neither a warning nor an import. -/
theorem skip (h : Accounts x kept occs) (hwarning : warningAt? o = none)
    (himport : importAt? o = none) : Accounts x kept (o :: occs) where
  warns := by
    rw [List.filterMap_cons_none hwarning]
    exact h.warns
  hoists := by
    rw [List.filterMap_cons_none himport]
    exact h.hoists

/-- A node is lowered, the event is noted, and the nodes after it are lowered. -/
theorem cons {x : Lower Lowered} {y : Lower (List Target)} (note : Lowered → Event)
    (hx : Accounts x (fun l => importsOf l.targets) occs) (hy : Accounts y importsOf more)
    (hnote : ∀ l, (note l).warning? = none) :
    Accounts (x >>= fun l => Lower.note (note l) >>= fun _ => y >>= fun ts =>
      Pure.pure (l.targets ++ ts)) importsOf (occs ++ more) where
  warns := by
    rw [List.filterMap_append]
    apply hx.warns.bind
    intro l
    have hevent : Warns (Lower.note (note l)) [] := by
      intro _ _
      show [note l].filterMap Event.warning? = []
      rw [List.filterMap_cons_none (hnote l), List.filterMap_nil]
    apply hevent.bind
    intro _
    rw [← List.append_nil (more.filterMap warningAt?)]
    exact hy.warns.bind fun ts => .quiet rfl
  hoists := by
    rw [List.filterMap_append]
    apply hx.hoists.bind
    intro l
    have hevent : Hoists (Lower.note (note l)) (fun _ => []) [] := fun _ _ => List.Perm.refl _
    exact hevent.bind fun _ => hy.hoists.map (importsOf l.targets) fun _ => List.filterMap_append

theorem skipped {cause : WarningCause} {span : Span} (hwarning : warningAt? o = some ⟨cause, span⟩)
    (himport : importAt? o = none) :
    Accounts (Component.skipped cause span) (fun l => importsOf l.targets) [o] where
  warns := by
    intro _ _
    rw [List.filterMap_cons_some hwarning]
    rfl
  hoists := by
    intro l hl
    rw [List.filterMap_cons_none himport, skipped_eq_ok hl]
    exact List.Perm.refl _

theorem imported {i : Import} (hwarning : warningAt? o = none) (himport : importAt? o = some i) :
    Accounts (Pure.pure (Lowered.one (.imported i))) (fun l => importsOf l.targets) [o] where
  warns := by
    intro _ _
    rw [List.filterMap_cons_none hwarning]
    rfl
  hoists := by
    intro l hl
    rw [List.filterMap_cons_some himport, ← result_pure_eq_ok.mp hl]
    exact List.Perm.refl _

end Accounts

/-! ## Nodes -/

theorem importsOf_code {setting : Setting} {value : String} {kind : CodeKind} {block : List Node}
    {span : Span} {l : Lowered} (h : (lowerCode setting value kind block span).result = .ok l) :
    importsOf l.targets = [] := by
  rcases lowerCode_eq_ok h with ⟨-, statements, -, rfl⟩ | ⟨-, e, -, rfl⟩
  · show (statements.map _).filterMap Target.imported? = []
    rw [List.filterMap_map]
    exact List.filterMap_eq_nil_iff.mpr fun _ _ => rfl
  · rfl

theorem importsOf_slot (name : String) (fallback : Option (List Jsx.Child)) :
    importsOf [slot name fallback] = [] := by
  cases fallback <;> rfl

variable {setting : Setting}

mutual

/-- Lowering a node accounts for the node and the nodes below it. -/
theorem lowerNode_accounts (top : Bool) (node : Node) :
    Accounts (lowerNode setting top node) (fun l => importsOf l.targets)
      (⟨node, top⟩ :: node.descendants.map Node.inside) := by
  match node with
  | .text value _ =>
    rw [lowerNode]
    apply Accounts.skip _ rfl rfl
    apply Accounts.pure
    split <;> rfl
  | .comment .. | .doctype .. => rw [lowerNode]; exact (Accounts.pure rfl).skip rfl rfl
  | .mixinCall .. | .rawInclude .. => rw [lowerNode]; exact .skipped rfl rfl
  | .extendsFile .. => rw [lowerNode]; exact .imported rfl rfl
  | .includeFile file column span =>
    rw [lowerNode]
    split
    · rename_i h
      exact .imported (if_pos h) (if_pos h)
    · rename_i h
      exact .skipped (if_neg h) (if_neg h)
  -- statements with nodes under them fail, as do loops with a test
  | .code value kind [] span =>
    rw [lowerNode]
    apply Accounts.skip _ rfl rfl
    exact .quiet (.lowerCode _ _ _ _ _) fun _ => importsOf_code
  | .code value kind (first :: rest) span | .whileLoop .. | .mixinBlock .. | .filter .. =>
    rw [lowerNode]; exact .fail _
  | .group nodes _ =>
    rw [lowerNode, Node.descendants, ← occurrences_false]
    apply Accounts.skip _ rfl rfl
    exact (lowerNodes_accounts false nodes).map fun _ => rfl
  | .namedBlock name _ nodes _ =>
    rw [lowerNode, Node.descendants, ← occurrences_false]
    apply Accounts.skip _ rfl rfl
    split
    · exact (lowerNodes_accounts false nodes).map fun _ => rfl
    · split
      · rename_i hempty
        rw [List.isEmpty_iff.mp hempty]
        exact .pure (importsOf_slot _ _)
      · exact (lowerNodes_accounts false nodes).place_map journal_asChildren fun _ => importsOf_slot _ _
  | .caseOf subject branches span =>
    rw [lowerNode, Node.descendants]
    apply Accounts.skip _ rfl rfl
    apply Accounts.after (.readExpression _ _ _)
    intro value
    exact (lowerBranches_accounts branches).map fun _ => rfl
  | .conditional test consequent alternates span =>
    rw [lowerNode, Node.descendants, List.map_append, ← occurrences_false]
    apply Accounts.skip _ rfl rfl
    apply Accounts.after (.readExpression _ _ _)
    intro value
    apply (lowerNodes_accounts false consequent).place journal_asChildren
    intro children
    exact (lowerAlternates_accounts alternates).map fun _ => rfl
  | .each collection item key body span =>
    rw [lowerNode, Node.descendants, ← occurrences_false]
    apply Accounts.skip _ rfl rfl
    apply Accounts.after (.readExpression _ _ _)
    intro value
    exact (lowerNodes_accounts false body).place_map journal_asChildren fun _ => rfl
  | .mixinDefinition name arguments body _ =>
    rw [lowerNode, Node.descendants, ← occurrences_false]
    apply Accounts.skip _ rfl rfl
    exact (lowerNodes_accounts false body).place_map journal_asBody fun _ => rfl
  | .tag name attributes spreads children selfClosing _ =>
    rw [lowerNode, Node.descendants, ← occurrences_false]
    apply Accounts.skip _ rfl rfl
    apply Accounts.after (.lowerAttributes _ _ _)
    intro attributes
    exact (lowerNodes_accounts false children).place_map journal_asChildren fun _ => rfl
  | .interpolatedTag expression span =>
    rw [lowerNode]
    apply Accounts.skip _ rfl rfl
    apply Accounts.after (.readExpression _ _ _)
    intro value
    exact .pure rfl

/-- Lowering nodes accounts for the occurrences in them. -/
theorem lowerNodes_accounts (top : Bool) (nodes : List Node) :
    Accounts (lowerNodes setting top nodes) importsOf (occurrences top nodes) := by
  match nodes with
  | [] => rw [lowerNodes]; exact .pure rfl
  | node :: rest =>
    rw [lowerNodes, Template.occurrences_cons]
    exact (lowerNode_accounts top node).cons _ (lowerNodes_accounts top rest) fun _ => rfl

/-- Lowering the further branches of a conditional accounts for the nodes in them. -/
theorem lowerAlternates_accounts (alternates : List Alternate) :
    Accounts (lowerAlternates setting alternates) (fun _ => [])
      ((preorderOfAlternates alternates).map Node.inside) := by
  match alternates with
  | [] => rw [lowerAlternates]; exact .pure rfl
  | .orElse nodes _ :: _ =>
    rw [lowerAlternates, preorderOfAlternates, ← occurrences_false]
    exact (lowerNodes_accounts false nodes).place_map journal_asChildren fun _ => rfl
  | .orIf test nodes span :: rest =>
    rw [lowerAlternates, preorderOfAlternates, List.map_append, ← occurrences_false]
    apply Accounts.after (.readExpression _ _ _)
    intro value
    apply (lowerNodes_accounts false nodes).place journal_asChildren
    intro children
    exact (lowerAlternates_accounts rest).map fun _ => rfl

/-- Lowering the branches of a `case` accounts for the nodes in them. -/
theorem lowerBranches_accounts (branches : List Branch) :
    Accounts (lowerBranches setting branches) (fun _ => [])
      ((preorderOfBranches branches).map Node.inside) := by
  match branches with
  | [] => rw [lowerBranches]; exact .pure rfl
  | .bare test span :: rest =>
    rw [lowerBranches, preorderOfBranches]
    apply Accounts.after (.readTest _ _ _)
    intro value
    exact (lowerBranches_accounts rest).map fun _ => rfl
  | .block test nodes span :: rest =>
    rw [lowerBranches, preorderOfBranches, List.map_append, ← occurrences_false]
    apply Accounts.after (.readTest _ _ _)
    intro value
    apply (lowerNodes_accounts false nodes).place journal_asBody
    intro body
    exact (lowerBranches_accounts rest).map fun _ => rfl

end

end PugComponents.Component
