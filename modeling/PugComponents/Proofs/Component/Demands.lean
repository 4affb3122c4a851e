import PugComponents.Component.Module
import PugComponents.Proofs.Lowering

/- When a conversion fails, and with what. The demands of a template are the
   snippets that have to be read and the constructs that have no counterpart, in
   the order of the source. `Raises reader x demands` says that the step `x` fails
   exactly when a demand is not met, and then with the failure of the first such
   demand. Every step of lowering raises the demands of the nodes it lowers
   (`lowerNode_raises`), and so does the conversion of a document that fills no
   slots (`convert_fails_on_first_unmet`). -/
namespace PugComponents.Component

open Text
open Script (SnippetReader)
open Template (Span Spread Node Branch Alternate CodeKind Document)

/-! ## Demands -/

/-- What a template asks of its conversion. -/
inductive Demand
  /-- The text is read as an expression. -/
  | expression (source : String) (span : Span)
  /-- The text is read as statements. -/
  | statements (source : String) (span : Span)
  /-- A counterpart for a construct that has none. -/
  | counterpart (kind : String) (span : Span)
  deriving DecidableEq, Repr

/-- The failure of a demand that is not met. -/
def Demand.failure? (reader : SnippetReader) : Demand → Option Failure
  | expression source span =>
    match reader.expression source with
    | .ok _ => none
    | .error e => some (.script source e span)
  | statements source span =>
    match reader.statements source with
    | .ok _ => none
    | .error e => some (.script source e span)
  | counterpart kind span => some (.unsupported kind span)

/-- A style that is one string literal without a brace. -/
def IsStyleLiteral (name source : String) : Prop :=
  name = "style" ∧ '\x7b' ∉ source.toList ∧
    ∃ inner quote, isQuote quote = true ∧ quote ∉ inner ∧
      trim source.toList = quote :: (inner ++ [quote])

theorem dropSuffix?_eq_some {ending cs front : List Char} :
    dropSuffix? ending cs = some front ↔ cs = front ++ ending := by
  unfold dropSuffix?
  rw [Option.map_eq_some_iff]
  constructor
  · rintro ⟨rest, hrest, rfl⟩
    have h := congrArg List.reverse (eq_append_of_dropPrefix? hrest)
    simpa using h
  · rintro rfl
    exact ⟨front.reverse, by rw [List.reverse_append, dropPrefix?_append], List.reverse_reverse _⟩

theorem unquoted?_eq_some {text inner : List Char} :
    unquoted? text = some inner ↔
      ∃ quote, isQuote quote = true ∧ quote ∉ inner ∧ text = quote :: (inner ++ [quote]) := by
  cases text with
  | nil => simp [unquoted?]
  | cons quote rest =>
    simp only [unquoted?, List.cons.injEq]
    by_cases hq : isQuote quote = true
    · cases hs : dropSuffix? [quote] rest with
      | none =>
        have hne (front : List Char) : rest ≠ front ++ [quote] := by
          intro h
          rw [dropSuffix?_eq_some.mpr h] at hs
          cases hs
        simp only [hq, if_true, reduceCtorEq, false_iff]
        rintro ⟨_, _, _, rfl, h⟩
        exact hne inner h
      | some front =>
        obtain rfl := dropSuffix?_eq_some.mp hs
        simp only [hq, if_true]
        constructor
        · intro h
          split at h
          · cases h
          · rename_i hin
            cases h
            exact ⟨quote, hq, by simpa using hin, rfl, rfl⟩
        · rintro ⟨_, _, hin, rfl, h⟩
          obtain rfl := List.append_cancel_right h
          simpa using hin
    · simp only [hq, Bool.false_eq_true, if_false, reduceCtorEq, false_iff]
      rintro ⟨_, h, _, rfl, _⟩
      exact hq h

theorem styleLiteral?_isSome {name source : String} :
    (styleLiteral? name source).isSome = true ↔ IsStyleLiteral name source := by
  unfold styleLiteral? IsStyleLiteral
  simp only [Option.isSome_iff_exists]
  by_cases hn : name = "style" <;> by_cases hb : '\x7b' ∈ source.toList <;>
    simp [hn, hb, unquoted?_eq_some]

instance (name source : String) : Decidable (IsStyleLiteral name source) :=
  decidable_of_iff _ styleLiteral?_isSome

/-- The value of an attribute is read, unless it is a style that is a plain literal. -/
def attributeDemands (a : Template.Attribute) : List Demand :=
  match a.value with
  | .flag => []
  | .expression source =>
    if IsStyleLiteral a.name source then [] else [.expression source a.span]

/-- A spread is read. -/
def spreadDemand (s : Spread) : Demand := .expression s.value s.span

/-- A branch with a test has it read. -/
def testDemands (test : Option String) (span : Span) : List Demand :=
  test.toList.map (.expression · span)

/-- The script of a code node is read. -/
def codeDemand (value : String) (kind : CodeKind) (span : Span) : Demand :=
  if kind = .run then .statements value span else .expression value span

mutual

/-- The demands of a node, in the order of the source. The block of a mixin call makes none. -/
def demands : Node → List Demand
  | .text .. | .comment .. | .doctype .. | .mixinCall .. => []
  | .includeFile .. | .rawInclude .. | .extendsFile .. => []
  | .code value kind [] span => [codeDemand value kind span]
  | .code value kind (node :: rest) span =>
    .counterpart "CodeBlock" span :: codeDemand value kind span :: (demands node ++ demandsOf rest)
  | .group nodes _ => demandsOf nodes
  | .namedBlock _ _ nodes _ => demandsOf nodes
  | .caseOf subject branches span => .expression subject span :: demandsOfBranches branches
  | .conditional test consequent alternates span =>
    .expression test span :: (demandsOf consequent ++ demandsOfAlternates alternates)
  | .each collection _ _ body span => .expression collection span :: demandsOf body
  | .mixinDefinition _ _ body _ => demandsOf body
  | .tag _ attributes spreads children _ _ =>
    attributes.flatMap attributeDemands ++ spreads.map spreadDemand ++ demandsOf children
  | .interpolatedTag expression span => [.expression expression span]
  | .whileLoop _ body span => .counterpart "While" span :: demandsOf body
  | .mixinBlock span => [.counterpart "MixinBlock" span]
  | .filter _ _ span => [.counterpart "Filter" span]

/-- The demands of nodes, one after the other. -/
def demandsOf : List Node → List Demand
  | [] => []
  | node :: rest => demands node ++ demandsOf rest

/-- The demands of the further branches of a conditional, which end with an `else`. -/
def demandsOfAlternates : List Alternate → List Demand
  | [] => []
  | .orElse nodes _ :: _ => demandsOf nodes
  | .orIf test nodes span :: rest =>
    .expression test span :: (demandsOf nodes ++ demandsOfAlternates rest)

/-- The demands of the branches of a `case`. -/
def demandsOfBranches : List Branch → List Demand
  | [] => []
  | .bare test span :: rest => testDemands test span ++ demandsOfBranches rest
  | .block test nodes span :: rest =>
    testDemands test span ++ demandsOf nodes ++ demandsOfBranches rest

end

/-! ## Steps that raise demands -/

variable {reader : SnippetReader} {setting : Setting} {α β : Type}

/-- The failure of a step. -/
def Lower.failure? (x : Lower α) : Option Failure :=
  match x.result with
  | .ok _ => none
  | .error e => some e

/-- The step fails exactly when one of the demands is not met, with the failure of the first such
demand. -/
def Raises (reader : SnippetReader) (x : Lower α) (ds : List Demand) : Prop :=
  x.failure? = ds.findSome? (Demand.failure? reader)

namespace Raises

theorem pure (a : α) : Raises reader (Pure.pure a : Lower α) [] := rfl

theorem note (e : Event) : Raises reader (Lower.note e) [] := rfl

variable {ds : List Demand}

/-- The first step fails on its demands before the second step comes to its own. -/
theorem bind {x : Lower α} {f : α → Lower β} {es : List Demand} (hx : Raises reader x ds)
    (hf : ∀ a, Raises reader (f a) es) : Raises reader (x >>= f) (ds ++ es) := by
  unfold Raises Lower.failure? at *
  rw [List.findSome?_append, ← hx]
  cases h : x.result with
  | error e => rw [Lower.bind_error h]; rfl
  | ok a =>
    rw [Lower.bind_ok h]
    exact hf a

/-- What follows a step asks for nothing. -/
theorem quiet {x : Lower α} {f : α → Lower β} (hx : Raises reader x ds)
    (hf : ∀ a, Raises reader (f a) []) : Raises reader (x >>= f) ds := by
  have h := hx.bind hf
  rwa [List.append_nil] at h

theorem map {x : Lower α} {f : α → β} (hx : Raises reader x ds) :
    Raises reader (x >>= fun a => Pure.pure (f a)) ds :=
  hx.quiet fun a => pure (f a)

theorem mapM {f : α → Lower β} {g : α → List Demand} (xs : List α)
    (h : ∀ x, Raises reader (f x) (g x)) : Raises reader (xs.mapM f) (xs.flatMap g) := by
  induction xs with
  | nil => exact pure []
  | cons x xs ih =>
    rw [List.mapM_cons, List.flatMap_cons]
    exact (h x).bind fun y => ih.map

theorem readExpression (source : String) (span : Span) :
    Raises reader (Component.readExpression reader source span) [.expression source span] := by
  unfold Raises Component.readExpression Lower.failure?
  rw [List.findSome?_singleton, Demand.failure?]
  cases reader.expression source <;> rfl

theorem readTest (test : Option String) (span : Span) :
    Raises reader (Component.readTest reader test span) (testDemands test span) := by
  cases test with
  | none => exact pure none
  | some source => exact (readExpression source span).map

theorem asChildren (targets : List Target) : Raises reader (Component.asChildren targets) [] := by
  rw [asChildren_eq]
  rfl

theorem asBody (targets : List Target) : Raises reader (Component.asBody targets) [] := by
  rw [asBody_eq]
  rfl

theorem skipped (cause : WarningCause) (span : Span) :
    Raises reader (Component.skipped cause span) [] := rfl

/-- A construct without a counterpart fails, whatever comes after it. -/
theorem unsupported (kind : String) (span : Span) (ds : List Demand) :
    Raises reader (.fail (.unsupported kind span) : Lower α) (.counterpart kind span :: ds) := rfl

theorem withJournal {x : Lower α} (hx : Raises reader x ds) :
    Raises reader (Component.withJournal x) ds := by
  unfold Raises Lower.failure? Component.withJournal at *
  rw [← hx]
  cases x.result <;> rfl

end Raises

/-! ## Attributes and script -/

theorem lowerAttribute_raises (a : Template.Attribute) :
    Raises reader (lowerAttribute reader a) (attributeDemands a) := by
  unfold lowerAttribute attributeDemands
  cases a.value with
  | flag => exact .pure _
  | expression source =>
    have hliteral := @styleLiteral?_isSome a.name source
    cases h : styleLiteral? a.name source with
    | some declarations =>
      rw [h] at hliteral
      simpa [h, hliteral.mp rfl] using Raises.pure _
    | none =>
      rw [h] at hliteral
      have hnot : ¬IsStyleLiteral a.name source := fun hl => by simpa using hliteral.mpr hl
      simpa [h, hnot] using (Raises.readExpression source a.span).map

theorem lowerAttributes_raises (attributes : List Template.Attribute) (spreads : List Spread) :
    Raises reader (lowerAttributes reader attributes spreads)
      (attributes.flatMap attributeDemands ++ spreads.map spreadDemand) := by
  have hspread (s : Spread) : Raises reader (lowerSpread reader s) [spreadDemand s] :=
    (Raises.readExpression s.value s.span).map
  rw [← List.flatMap_pure_eq_map]
  exact (Raises.mapM attributes lowerAttribute_raises).bind fun first =>
    (Raises.mapM spreads hspread).map

theorem lowerCode_raises (value : String) (kind : CodeKind) (span : Span) :
    Raises setting.reader (lowerCode setting value kind [] span) [codeDemand value kind span] := by
  unfold lowerCode codeDemand
  rw [if_neg (by simp)]
  split
  · unfold Raises Lower.failure?
    rw [List.findSome?_singleton, Demand.failure?]
    cases setting.reader.statements value <;> rfl
  · exact (Raises.readExpression value span).map

/-! ## Nodes -/

mutual

/-- Lowering a node fails on the first demand of the node that is not met. -/
theorem lowerNode_raises (top : Bool) (node : Node) :
    Raises setting.reader (lowerNode setting top node) (demands node) := by
  match node with
  | .text .. | .comment .. | .doctype .. | .extendsFile .. => rw [lowerNode, demands]; exact .pure _
  | .mixinCall .. | .rawInclude .. => rw [lowerNode, demands]; exact .skipped _ _
  | .includeFile .. =>
    rw [lowerNode, demands]
    split
    · exact .pure _
    · exact .skipped _ _
  | .code value kind [] span =>
    rw [lowerNode, demands]
    exact lowerCode_raises value kind span
  | .code value kind (first :: rest) span =>
    rw [lowerNode, demands]
    exact .unsupported "CodeBlock" span _
  | .group nodes _ =>
    rw [lowerNode, demands]
    exact (lowerNodes_raises false nodes).map
  | .namedBlock name _ nodes _ =>
    rw [lowerNode, demands]
    split
    · exact (lowerNodes_raises false nodes).map
    · split
      · rename_i hempty
        rw [List.isEmpty_iff.mp hempty, demandsOf]
        exact .pure _
      · exact (lowerNodes_raises false nodes).quiet fun targets => (Raises.asChildren targets).map
  | .caseOf subject branches span =>
    rw [lowerNode, demands]
    exact (Raises.readExpression subject span).bind fun _ => (lowerBranches_raises branches).map
  | .conditional test consequent alternates span =>
    rw [lowerNode, demands]
    refine (Raises.readExpression test span).bind fun _ => ?_
    refine (lowerNodes_raises false consequent).bind fun targets => ?_
    exact (Raises.asChildren targets).bind fun _ => (lowerAlternates_raises alternates).map
  | .each collection item key body span =>
    rw [lowerNode, demands]
    refine (Raises.readExpression collection span).bind fun _ => ?_
    exact (lowerNodes_raises false body).quiet fun targets => (Raises.asChildren targets).map
  | .mixinDefinition name arguments body _ =>
    rw [lowerNode, demands]
    exact (lowerNodes_raises false body).quiet fun targets => (Raises.asBody targets).map
  | .tag name attributes spreads children selfClosing _ =>
    rw [lowerNode, demands]
    refine (lowerAttributes_raises attributes spreads).bind fun _ => ?_
    exact (lowerNodes_raises false children).quiet fun targets => (Raises.asChildren targets).map
  | .interpolatedTag expression span =>
    rw [lowerNode, demands]
    exact (Raises.readExpression expression span).map
  | .whileLoop test body span => rw [lowerNode, demands]; exact .unsupported "While" span _
  | .mixinBlock span => rw [lowerNode, demands]; exact .unsupported "MixinBlock" span _
  | .filter name body span => rw [lowerNode, demands]; exact .unsupported "Filter" span _

/-- Lowering nodes fails on the first demand of theirs that is not met. -/
theorem lowerNodes_raises (top : Bool) (nodes : List Node) :
    Raises setting.reader (lowerNodes setting top nodes) (demandsOf nodes) := by
  match nodes with
  | [] => rw [lowerNodes, demandsOf]; exact .pure _
  | node :: rest =>
    rw [lowerNodes, demandsOf]
    refine (lowerNode_raises top node).bind fun lowered => ?_
    exact (Raises.note _).bind fun _ => (lowerNodes_raises top rest).map

/-- Lowering the further branches of a conditional fails on their first demand that is not met. -/
theorem lowerAlternates_raises (alternates : List Alternate) :
    Raises setting.reader (lowerAlternates setting alternates) (demandsOfAlternates alternates) := by
  match alternates with
  | [] => rw [lowerAlternates, demandsOfAlternates]; exact .pure _
  | .orElse nodes _ :: _ =>
    rw [lowerAlternates, demandsOfAlternates]
    exact (lowerNodes_raises false nodes).quiet fun targets => (Raises.asChildren targets).map
  | .orIf test nodes span :: rest =>
    rw [lowerAlternates, demandsOfAlternates]
    refine (Raises.readExpression test span).bind fun _ => ?_
    refine (lowerNodes_raises false nodes).bind fun targets => ?_
    exact (Raises.asChildren targets).bind fun _ => (lowerAlternates_raises rest).map

/-- Lowering the branches of a `case` fails on their first demand that is not met. -/
theorem lowerBranches_raises (branches : List Branch) :
    Raises setting.reader (lowerBranches setting branches) (demandsOfBranches branches) := by
  match branches with
  | [] => rw [lowerBranches, demandsOfBranches]; exact .pure _
  | .bare test span :: rest =>
    rw [lowerBranches, demandsOfBranches]
    exact (Raises.readTest test span).bind fun _ => (lowerBranches_raises rest).map
  | .block test nodes span :: rest =>
    rw [lowerBranches, demandsOfBranches, List.append_assoc]
    refine (Raises.readTest test span).bind fun _ => ?_
    refine (lowerNodes_raises false nodes).bind fun targets => ?_
    exact (Raises.asBody targets).bind fun _ => (lowerBranches_raises rest).map

end

theorem assemble_raises {c : Link.FileContext} (hrole : ∀ base, c.role ≠ .slotFiller base)
    (d : Document) : Raises reader (assemble reader c d) (demandsOf d.nodes) := by
  unfold assemble
  split
  · rename_i base h
    exact absurd h (hrole base)
  · unfold assembleComponent
    exact (Raises.withJournal (lowerNodes_raises true d.nodes)).map

/-- A conversion fails exactly when its program cannot be assembled. -/
theorem convert_failure? (file : Option String) (d : Document) :
    (convert reader file d).failure? = (assemble reader (contextOf file d) d).failure? := by
  simp only [convert, Lower.failure?]
  cases (assemble reader (contextOf file d) d).result <;> rfl

theorem Lower.failure?_eq_some {x : Lower α} {f : Failure} :
    x.failure? = some f ↔ x.result = .error f := by
  unfold Lower.failure?
  cases x.result <;> simp

/-- **The conversion of a file that fills no slots fails exactly when one of its demands is not met,
and the failure is that of the first such demand.** -/
theorem convert_fails_on_first_unmet (reader : SnippetReader) (file : Option String) (d : Document)
    (hrole : (contextOf file d).role = .standalone ∨ (contextOf file d).role = .layout) :
    ((∃ f, (convert reader file d).result = .error f) ↔
      ∃ x ∈ demandsOf d.nodes, (x.failure? reader).isSome) ∧
    ∀ f, (convert reader file d).result = .error f ↔
      (demandsOf d.nodes).findSome? (Demand.failure? reader) = some f := by
  have hfiller : ∀ base, (contextOf file d).role ≠ .slotFiller base := by
    rcases hrole with h | h <;> simp [h]
  have hfirst (f : Failure) : (convert reader file d).result = .error f ↔
      (demandsOf d.nodes).findSome? (Demand.failure? reader) = some f := by
    rw [← Lower.failure?_eq_some, convert_failure?]
    exact Eq.congr_left (assemble_raises hfiller d)
  refine ⟨?_, hfirst⟩
  simp only [hfirst]
  rw [← Option.isSome_iff_exists, List.findSome?_isSome_iff]

/-- Refuses every text with an exclamation mark. -/
def calmReader : SnippetReader where
  expression source :=
    if source.toList.contains '!' then .error .malformed else .ok ⟨source, .primary⟩
  statements source := if source.toList.contains '!' then .error .malformed else .ok []

/-- A loop in the block of a mixin call, a style that is not read, and a tag with a spread that is
refused before the filter in it is reached. -/
def spreadBeforeFilter : Document :=
  ⟨[.mixinCall "row" none [] [] [.whileLoop "x" [] ⟨5, 14⟩] ⟨0, 14⟩,
    .tag "p" [⟨"style", .expression "'top: 0 !important'", true, ⟨17, 43⟩⟩] [⟨"a!", ⟨45, 60⟩⟩]
      [.filter "md" "" ⟨63, 66⟩] false ⟨15, 61⟩], 67⟩

theorem spreadBeforeFilter_fails :
    (contextOf none spreadBeforeFilter).role = .standalone ∧
      (convert calmReader none spreadBeforeFilter).result =
        .error (.script "a!" .malformed ⟨45, 60⟩) :=
  ⟨rfl, ((convert_fails_on_first_unmet calmReader none spreadBeforeFilter (.inl rfl)).2 _).mpr rfl⟩

end PugComponents.Component
