import PugComponents.Proofs.Lowering

/- Targets as children and as a function body, read back. A child list holds at
   most one arrow that was made for statements: its last child, which runs the
   statements and returns the rest as a child list of its own. So the arrows that
   were made are nested, and their number tells them apart from invoked arrows
   that were among the targets. `asChildren_asBody_readBack`: reading back gives
   the targets in their order, without the imports and without the placeholders
   in runs of statements. -/
namespace PugComponents.Component

open Jsx

/-- What is read back: a child from a list of children, or a statement from the body of an arrow. -/
inductive Entry
  | child (c : Child)
  | statement (s : Stmt)

/-- A function body read back: its statements, then the children of the fragment it returns, which
`inner` reads. -/
def bodyEntries (inner : List Child → List Entry) (body : List Stmt) : List Entry :=
  body.dropLast.map .statement ++
    match body.getLast? with
    | some (.result (.markup (.fragment children))) => inner children
    | _ => []

/-- A child list read back, with `made` nested arrows that were made for statements. Each is the last
child of its list, and its body takes its place. -/
def childEntries : (made : Nat) → List Child → List Entry
  | 0, children => children.map .child
  | made + 1, children =>
    match children.getLast? with
    | some (.container (.call (.blockArrow [] body) [])) =>
      children.dropLast.map .child ++ bodyEntries (childEntries made) body
    | _ => children.map .child

/-- How many arrows are made for targets: one for each run of statements. `running` if a run goes on
here; imports and placeholders do not end it. -/
def statementRuns : (running : Bool) → List Target → Nat
  | _, [] => 0
  | true, .statement _ :: rest => statementRuns true rest
  | false, .statement _ :: rest => statementRuns true rest + 1
  | running, .imported _ :: rest => statementRuns running rest
  | running, .placeholder :: rest => statementRuns running rest
  | _, .child _ :: rest => statementRuns false rest
  | _, .bare _ :: rest => statementRuns false rest

/-- What targets should be read back as: every target but the imports, once and in its place. A
placeholder is a blank text, or nothing where a run of statements goes on. -/
def targetEntries : (running : Bool) → List Target → List Entry
  | _, [] => []
  | _, .child c :: rest => .child c :: targetEntries false rest
  | _, .bare e :: rest => .child (.container e) :: targetEntries false rest
  | _, .statement s :: rest => .statement s :: targetEntries true rest
  | running, .imported _ :: rest => targetEntries running rest
  | true, .placeholder :: rest => targetEntries true rest
  | false, .placeholder :: rest => .child (.text " ") :: targetEntries false rest

/-! ## Reading back step by step -/

/-- A child in front of others is read back first. Made arrows are behind it, so if there are any,
the list behind it is not empty. -/
theorem childEntries_cons (c : Child) {made : Nat} {children : List Child}
    (h : 0 < made → children ≠ []) :
    childEntries made (c :: children) = .child c :: childEntries made children := by
  cases made with
  | zero => rfl
  | succ made =>
    obtain ⟨next, rest, rfl⟩ := List.exists_cons_of_ne_nil (h (Nat.succ_pos made))
    simp only [childEntries, List.getLast?_cons_cons, List.dropLast_cons_cons]
    split <;> rfl

theorem childEntries_invoked (made : Nat) (body : List Stmt) :
    childEntries (made + 1) [.container (.invoked body)] = bodyEntries (childEntries made) body := rfl

theorem bodyEntries_cons (inner : List Child → List Entry) (s : Stmt) {body : List Stmt}
    (h : body ≠ []) : bodyEntries inner (s :: body) = .statement s :: bodyEntries inner body := by
  obtain ⟨next, rest, rfl⟩ := List.exists_cons_of_ne_nil h
  simp only [bodyEntries, List.getLast?_cons_cons, List.dropLast_cons_cons, List.map_cons,
    List.cons_append]

theorem bodyEntries_fragment (inner : List Child → List Entry) (children : List Child) :
    bodyEntries inner [.result (.fragment children)] = inner children := rfl

theorem bodyOf_ne_nil (targets : List Target) : bodyOf targets ≠ [] := by
  induction targets with
  | nil => simp [bodyOf]
  | cons t rest ih => cases t <;> simp [bodyOf, ih]

/-- Where an arrow is made there is a child. -/
theorem childrenOf_ne_nil {targets : List Target} (h : 0 < statementRuns false targets) :
    childrenOf targets ≠ [] := by
  induction targets with
  | nil => exact absurd h (Nat.lt_irrefl 0)
  | cons t rest ih =>
    cases t with
    | imported i =>
      simp only [childrenOf]
      exact ih h
    | _ => simp [childrenOf]

/-- The children and the body of targets are read back as the targets. -/
theorem entries_of_targets (targets : List Target) :
    childEntries (statementRuns false targets) (childrenOf targets) = targetEntries false targets ∧
      bodyEntries (childEntries (statementRuns true targets)) (bodyOf targets) =
        targetEntries true targets := by
  induction targets with
  | nil => exact ⟨rfl, rfl⟩
  | cons t rest ih =>
    obtain ⟨hchildren, hbody⟩ := ih
    have hfirst (c : Child) : childEntries (statementRuns false rest) (c :: childrenOf rest) =
        .child c :: targetEntries false rest := by
      rw [childEntries_cons c childrenOf_ne_nil, hchildren]
    have hrun (s : Stmt) : bodyEntries (childEntries (statementRuns true rest)) (s :: bodyOf rest) =
        .statement s :: targetEntries true rest := by
      rw [bodyEntries_cons _ s (bodyOf_ne_nil rest), hbody]
    cases t with
    | child c =>
      simp only [childrenOf, bodyOf, statementRuns, targetEntries, bodyEntries_fragment]
      exact ⟨hfirst c, hfirst c⟩
    | bare e =>
      simp only [childrenOf, bodyOf, statementRuns, targetEntries, bodyEntries_fragment]
      exact ⟨hfirst (.container e), hfirst (.container e)⟩
    | statement s =>
      simp only [childrenOf, bodyOf, statementRuns, targetEntries, childEntries_invoked]
      exact ⟨hrun s, hrun s⟩
    | imported i =>
      simp only [childrenOf, bodyOf, statementRuns, targetEntries]
      exact ⟨hchildren, hbody⟩
    | placeholder =>
      simp only [childrenOf, bodyOf, statementRuns, targetEntries]
      exact ⟨hfirst (.text " "), hbody⟩

/-- A child that is read back is what a target renders, or the blank text of a placeholder. -/
theorem child_mem_targetEntries {running : Bool} {targets : List Target} {c : Child}
    (h : .child c ∈ targetEntries running targets) :
    (∃ t ∈ targets, t.rendered? = some c) ∨ c = .text " " := by
  induction targets generalizing running with
  | nil => cases h
  | cons t rest ih =>
    have hrest {running : Bool} (h : .child c ∈ targetEntries running rest) :
        (∃ t' ∈ t :: rest, t'.rendered? = some c) ∨ c = .text " " :=
      (ih h).imp_left fun ⟨t', ht', hc⟩ => ⟨t', List.mem_cons_of_mem t ht', hc⟩
    cases t with
    | child c' =>
      rcases List.mem_cons.mp h with heq | h
      · cases heq
        exact .inl ⟨_, List.mem_cons_self, rfl⟩
      · exact hrest h
    | bare e =>
      rcases List.mem_cons.mp h with heq | h
      · cases heq
        exact .inl ⟨_, List.mem_cons_self, rfl⟩
      · exact hrest h
    | statement s =>
      rcases List.mem_cons.mp h with heq | h
      · cases heq
      · exact hrest h
    | imported i => exact hrest h
    | placeholder =>
      cases running with
      | true => exact hrest h
      | false =>
        rcases List.mem_cons.mp h with heq | h
        · cases heq
          exact .inr rfl
        · exact hrest h

/-- **Normalization keeps every target, once and in order.** Whatever the targets are, they can be
read as children and as a function body, and the imports that are kept for the module are theirs, in
order. Read back, with one arrow opened for each run of statements, the children are the targets
without the imports: a placeholder is a blank text, or nothing where it follows a statement with only
statements, imports and placeholders in between. The body is read back in the same way, as if a
statement stood before it. What is read back from a child list is never a statement: it is what a
target renders, or a blank text. -/
theorem asChildren_asBody_readBack (targets : List Target) :
    (∃ children,
      asChildren targets = ⟨⟨[], targets.filterMap Target.imported?⟩, .ok children⟩ ∧
      childEntries (statementRuns false targets) children = targetEntries false targets ∧
      ∀ c, .child c ∈ childEntries (statementRuns false targets) children →
        (∃ t ∈ targets, t.rendered? = some c) ∨ c = .text " ") ∧
    ∃ body,
      asBody targets = ⟨⟨[], targets.filterMap Target.imported?⟩, .ok body⟩ ∧
      bodyEntries (childEntries (statementRuns true targets)) body = targetEntries true targets ∧
      ∀ c, .child c ∈ bodyEntries (childEntries (statementRuns true targets)) body →
        (∃ t ∈ targets, t.rendered? = some c) ∨ c = .text " " := by
  obtain ⟨hchildren, hbody⟩ := entries_of_targets targets
  constructor
  · refine ⟨childrenOf targets, asChildren_eq targets, hchildren, ?_⟩
    rw [hchildren]
    exact fun c => child_mem_targetEntries
  · refine ⟨bodyOf targets, asBody_eq targets, hbody, ?_⟩
    rw [hbody]
    exact fun c => child_mem_targetEntries

/-- A statement after a placeholder, and an invoked arrow that was there before: the one that was made
is opened, the other is a child like any other. -/
example (s : Stmt) :
    (asChildren [.placeholder, .statement s, .placeholder, .bare (.invoked [])]).result.map
      (childEntries 1) = .ok [.child (.text " "), .statement s, .child (.container (.invoked []))] := rfl

end PugComponents.Component
