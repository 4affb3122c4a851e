import PugComponents.Proofs.Lowering
import PugComponents.Proofs.Rendering.Template

/- Lowering preserves what a template shows. `Shows ev ts env r`: the targets
   `ts`, evaluated in `env` with any targets after them, show the pieces of `r`
   and leave what follows in the environment of `r`. Each kind of target has its
   `Shows` lemma, lists of targets compose (`Shows.append`), and one induction
   over the template gives `Shows` for the targets of every node
   (`lowerNode_shows`). Targets are read as children or as a function body; both
   show the same (`shown_body`). -/
namespace PugComponents.Rendering

open Component
open Component.Lower
open Jsx (Expr Stmt SwitchCase Param)
open Script (SnippetReader EmbeddedStatement)
open Template

variable {Env Value : Type} {ev : Evaluation Env Value} {setting : Setting}

/-- The text that is kept of a snippet has the value of the snippet. -/
def Evaluation.Respects (ev : Evaluation Env Value) (reader : SnippetReader) : Prop :=
  ∀ source e, reader.expression source = .ok e →
    ∀ env, ev.value env e.source = ev.value env source

/-! ## Pieces -/

theorem shown_append (a b : List (Piece Value)) : shown (a ++ b) = shown a ++ shown b := by
  induction a with
  | nil => rfl
  | cons p a ih => simp [shown, ih]

theorem shown_flatMap {α : Type} {xs : List α} {f g : α → List (Piece Value)}
    (h : ∀ x ∈ xs, shown (f x) = shown (g x)) : shown (xs.flatMap f) = shown (xs.flatMap g) := by
  induction xs with
  | nil => rfl
  | cons x xs ih =>
    simp only [List.flatMap_cons, shown_append]
    rw [h x List.mem_cons_self, ih fun y hy => h y (List.mem_cons_of_mem x hy)]

theorem shown_element {name : String} {attributes : List (RenderedAttribute Value)}
    {a b : List (Piece Value)} (h : shown a = shown b) :
    shown [.element name attributes a] = shown [.element name attributes b] := by
  simp [shown, Piece.shown, h]

/-! ## Targets -/

/-- What targets show as the children of markup. -/
def shownTargets (ev : Evaluation Env Value) (ts : List Target) (env : Env) : List (Piece Value) :=
  shown (renderChildren ev (childrenOf ts) env)

theorem renderChildren_cons (c : Jsx.Child) (cs : List Jsx.Child) (env : Env) :
    renderChildren ev (c :: cs) env = renderChildren ev [c] env ++ renderChildren ev cs env := by
  cases c <;> simp [renderChildren]

theorem renderChildren_invoked (body : List Stmt) (env : Env) :
    renderChildren ev [.container (.invoked body)] env = (runBody ev body env).result.pieces := by
  simp [renderChildren, Expr.invoked, evalExpr, Result.call, Result.pieces, Evaluation.bindParams]

theorem runBody_fragment (cs : List Jsx.Child) (env : Env) :
    (runBody ev [.result (.fragment cs)] env).result.pieces = renderChildren ev cs env := by
  simp [runBody, runStmt, Flow.andThen, Flow.result, Expr.fragment, evalExpr, renderMarkup,
    Result.pieces]

/-- A function body shows what the same targets show as children. -/
theorem shown_body (ts : List Target) (env : Env) :
    shown (runBody ev (bodyOf ts) env).result.pieces = shownTargets ev ts env := by
  unfold shownTargets
  induction ts with
  | nil => simp [bodyOf, childrenOf, runBody, runStmt, evalExpr, Flow.andThen, Flow.result,
      Result.pieces, renderChildren]
  | cons t ts ih =>
    cases t with
    | child c | bare e => rw [bodyOf, runBody_fragment, childrenOf]
    | statement s => rw [bodyOf, childrenOf, renderChildren_invoked]
    | imported i => rw [bodyOf, childrenOf, ih]
    | placeholder =>
      rw [bodyOf, childrenOf, renderChildren_cons, shown_append, ih]
      rfl

/-- A function body always returns. -/
theorem runBody_bodyOf (ts : List Target) (env : Env) :
    ∃ r, runBody ev (bodyOf ts) env = .returned r := by
  induction ts generalizing env with
  | nil => exact ⟨_, rfl⟩
  | cons t ts ih =>
    cases t with
    | child c => exact ⟨_, rfl⟩
    | bare e => exact ⟨_, rfl⟩
    | statement s =>
      simp only [bodyOf, runBody]
      cases runStmt ev s env with
      | next env' => exact ih env'
      | returned r => exact ⟨r, rfl⟩
    | imported i => exact ih env
    | placeholder => exact ih env

/-- Targets show the pieces of `r` and leave its environment to whatever comes after them. -/
def Shows (ev : Evaluation Env Value) (ts : List Target) (env : Env)
    (r : List (Piece Value) × Env) : Prop :=
  ∀ rest, shownTargets ev (ts ++ rest) env = shown r.1 ++ shownTargets ev rest r.2

namespace Shows

variable {ts : List Target} {env : Env} {r : List (Piece Value) × Env}

theorem nil (env : Env) : Shows ev [] env ([], env) := fun _ => rfl

theorem append {us : List Target} {r' : List (Piece Value) × Env} (h : Shows ev ts env r)
    (h' : Shows ev us r.2 r') : Shows ev (ts ++ us) env (r.1 ++ r'.1, r'.2) := by
  intro rest
  rw [List.append_assoc, h, h', shown_append, List.append_assoc]

/-- Only what is shown counts. -/
theorem congr {ps : List (Piece Value)} {env' : Env} (h : Shows ev ts env (ps, env'))
    {qs : List (Piece Value)} (hs : shown ps = shown qs) : Shows ev ts env (qs, env') := by
  intro rest
  rw [h rest, hs]

theorem child (c : Jsx.Child) (env : Env) :
    Shows ev [.child c] env (renderChildren ev [c] env, env) := by
  intro rest
  simp only [shownTargets, List.singleton_append, childrenOf]
  rw [renderChildren_cons, shown_append]

theorem markup (m : Jsx.Markup) (env : Env) :
    Shows ev [.child (.markup m)] env (renderMarkup ev m env, env) := by
  have h : Shows ev [.child (.markup m)] env _ := child (.markup m) env
  rwa [renderChildren, renderChildren, List.append_nil] at h

theorem container (e : Expr) (env : Env) :
    Shows ev [.child (.container e)] env ((evalExpr ev e env).pieces, env) := by
  have h : Shows ev [.child (.container e)] env _ := child (.container e) env
  rwa [renderChildren, renderChildren, List.append_nil] at h

theorem bare (e : Expr) (env : Env) :
    Shows ev [.bare e] env ((evalExpr ev e env).pieces, env) :=
  container e env

theorem placeholder (env : Env) : Shows ev [.placeholder] env ([], env) := by
  intro rest
  simp only [shownTargets, List.singleton_append, childrenOf]
  rw [renderChildren_cons, shown_append]
  rfl

theorem imported (i : Jsx.Import) (env : Env) : Shows ev [.imported i] env ([], env) := fun _ => rfl

/-- A statement moves what follows into a function, which runs in the environment after it. -/
theorem statement {s : Stmt} {env env' : Env} (h : runStmt ev s env = .next env') :
    Shows ev [.statement s] env ([], env') := by
  intro rest
  change shown (renderChildren ev (childrenOf (.statement s :: rest)) env) = _
  rw [childrenOf, renderChildren_invoked, runBody, h]
  exact shown_body rest env'

theorem statements (list : List EmbeddedStatement) (env : Env) :
    Shows ev (list.map fun s => .statement (embeddedStatement s)) env
      ([], list.foldl (runEmbedded ev) env) := by
  induction list generalizing env with
  | nil => exact nil env
  | cons s list ih =>
    have hs : runStmt ev (embeddedStatement s) env = .next (runEmbedded ev env s) := by
      cases s <;> rfl
    exact (statement hs).append (ih _)

/-- What targets show as children when nothing follows them. -/
theorem shown_children (h : Shows ev ts env r) :
    shown (renderChildren ev (childrenOf ts) env) = shown r.1 := by
  have h := h []
  simpa [shownTargets, childrenOf, renderChildren, shown] using h

/-- What targets show as a function body. -/
theorem shown_returned (h : Shows ev ts env r) :
    shown (runBody ev (bodyOf ts) env).result.pieces = shown r.1 := by
  rw [shown_body]
  exact h.shown_children

/-- What targets show as the value of a branch. -/
theorem shown_branchValue (h : Shows ev ts env r) :
    shown (evalExpr ev (branchValue (childrenOf ts)) env).pieces = shown r.1 := by
  rw [← h.shown_children]
  unfold branchValue
  split
  · rename_i hempty
    rw [List.isEmpty_iff.mp hempty]
    simp [evalExpr, Result.pieces, renderChildren]
  · simp [Expr.fragment, evalExpr, renderMarkup, Result.pieces]

end Shows

/-! ## Snippets and attributes -/

variable {span : Template.Span}

theorem evalExpr_readExpression (hread : ev.Respects setting.reader) {source : String} {e : Expr}
    (h : (readExpression setting.reader source span).result = .ok e) (env : Env) :
    evalExpr ev e env = .value (ev.value env source) := by
  obtain ⟨embedded, he, rfl⟩ := readExpression_eq_ok h
  simp only [evalExpr]
  rw [hread source embedded he env]

theorem renderAttributes_append (a b : List Jsx.Attribute) (env : Env) :
    renderAttributes ev (a ++ b) env = renderAttributes ev a env ++ renderAttributes ev b env := by
  induction a with
  | nil => simp [renderAttributes]
  | cons x a ih => cases x <;> simp [renderAttributes, ih]

theorem renderAttributes_lowerAttribute (hread : ev.Respects setting.reader)
    {a : Template.Attribute} {b : Jsx.Attribute}
    (h : (lowerAttribute setting.reader a).result = .ok b) (env : Env) :
    renderAttributes ev [b] env = [renderAttribute ev env a] := by
  unfold lowerAttribute at h
  unfold renderAttribute
  cases hvalue : a.value with
  | flag =>
    simp only [hvalue] at h
    obtain rfl := result_pure_eq_ok.mp h
    simp [renderAttributes]
  | expression source =>
    simp only [hvalue] at h
    cases hstyle : styleLiteral? a.name source with
    | some declarations =>
      simp only [hstyle] at h
      obtain rfl := result_pure_eq_ok.mp h
      simp [renderAttributes, hstyle]
    | none =>
      simp only [hstyle] at h
      obtain ⟨e, he, h⟩ := result_bind_eq_ok.mp h
      obtain rfl := result_pure_eq_ok.mp h
      simp [renderAttributes, hstyle, evalExpr_readExpression hread he]

theorem renderAttributes_lowerSpread (hread : ev.Respects setting.reader) {s : Spread}
    {b : Jsx.Attribute} (h : (lowerSpread setting.reader s).result = .ok b) (env : Env) :
    renderAttributes ev [b] env = [renderSpread ev env s] := by
  obtain ⟨e, he, h⟩ := result_bind_eq_ok.mp h
  obtain rfl := result_pure_eq_ok.mp h
  simp [renderAttributes, renderSpread, evalExpr_readExpression hread he]

/-- Attributes that lower one by one render one by one. -/
theorem renderAttributes_mapM {α : Type} {f : α → Lower Jsx.Attribute}
    {g : α → RenderedAttribute Value} {env : Env}
    (hf : ∀ a b, (f a).result = .ok b → renderAttributes ev [b] env = [g a]) {xs : List α}
    {ys : List Jsx.Attribute} (h : (xs.mapM f).result = .ok ys) :
    renderAttributes ev ys env = xs.map g := by
  rw [result_mapM_eq_ok] at h
  induction h with
  | nil => rfl
  | @cons x y xs ys hy _ ih =>
    rw [← List.singleton_append, renderAttributes_append, hf x y hy, ih]
    rfl

theorem renderAttributes_lowerAttributes (hread : ev.Respects setting.reader)
    {attributes : List Template.Attribute} {spreads : List Spread} {list : List Jsx.Attribute}
    (h : (lowerAttributes setting.reader attributes spreads).result = .ok list) (env : Env) :
    renderAttributes ev list env =
      attributes.map (renderAttribute ev env) ++ spreads.map (renderSpread ev env) := by
  obtain ⟨first, hfirst, h⟩ := result_bind_eq_ok.mp h
  obtain ⟨second, hsecond, h⟩ := result_bind_eq_ok.mp h
  obtain rfl := result_pure_eq_ok.mp h
  rw [renderAttributes_append,
    renderAttributes_mapM (fun _ _ hb => renderAttributes_lowerAttribute hread hb env) hfirst,
    renderAttributes_mapM (fun _ _ hb => renderAttributes_lowerSpread hread hb env) hsecond]

/-! ## Branches of a `case` -/

/-- A case of a `switch` does what a branch of the template says: it falls through where the branch
has no block, and returns what the block shows where it has one. -/
structure Follows (env : Env) (arm : Arm Env Value) (choice : Choice Value) : Prop where
  test : arm.test = choice.test.map .value
  falls : choice.block = none → arm.run env = .next env
  returns : ∀ ps, choice.block = some ps →
    ∃ r, arm.run env = .returned r ∧ shown r.pieces = shown ps

variable {env : Env} {arms : List (Arm Env Value)} {choices : List (Choice Value)}

theorem shown_runArms (h : List.Forall₂ (Follows env) arms choices) :
    shown (runArms arms env).result.pieces = shown (firstBlock choices) := by
  induction h with
  | nil => rfl
  | @cons arm choice arms choices hd _ ih =>
    unfold runArms firstBlock
    cases hb : choice.block with
    | none =>
      rw [hd.falls hb]
      simp only [List.findSome?_cons, hb]
      exact ih
    | some ps =>
      obtain ⟨r, hr, hs⟩ := hd.returns ps hb
      rw [hr]
      simpa [List.findSome?_cons, hb, Flow.andThen, Flow.result] using hs

theorem forall₂_dropWhile {p : Arm Env Value → Bool} {q : Choice Value → Bool}
    (hpq : ∀ a c, Follows env a c → p a = q c) (h : List.Forall₂ (Follows env) arms choices) :
    List.Forall₂ (Follows env) (arms.dropWhile p) (choices.dropWhile q) := by
  induction h with
  | nil => exact .nil
  | @cons a c arms choices hd tl ih =>
    rw [List.dropWhile_cons, List.dropWhile_cons, hpq a c hd]
    split
    · exact ih
    · exact .cons hd tl

/-- A `switch` shows what the `case` shows. -/
theorem shown_entered (subject : Value) (h : List.Forall₂ (Follows env) arms choices) :
    shown (runArms (entered ev (.value subject) arms) env).result.pieces =
      shown (chosen ev subject choices) := by
  have hmatch := forall₂_dropWhile
    (p := fun arm => !arm.test.any (ev.selects (.value subject)))
    (q := fun c => !c.test.any (ev.same subject))
    (fun a c hd => by rw [hd.test]; cases c.test <;> rfl) h
  have hdefault := forall₂_dropWhile (p := fun arm => arm.test.isSome)
    (q := fun c => c.test.isSome)
    (fun a c hd => by rw [hd.test]; cases c.test <;> rfl) h
  unfold entered chosen
  generalize arms.dropWhile (fun arm => !arm.test.any (ev.selects (.value subject))) = as at hmatch
  generalize choices.dropWhile (fun c => !c.test.any (ev.same subject)) = cs at hmatch
  cases hmatch with
  | nil => exact shown_runArms hdefault
  | cons hd tl => exact shown_runArms (.cons hd tl)

theorem renderMarkup_switchCall (subject : Expr) (cases_ : List SwitchCase) (env : Env) :
    renderMarkup ev (switchCall subject cases_) env =
      (runArms (entered ev (evalExpr ev subject env) (armsOf ev cases_ env)) env).result.pieces := by
  have halone : ∀ flow : Flow Env Value,
      ((flow.inBlock env).andThen fun env => runBody ev [] env).result = flow.result := by
    intro flow
    cases flow <;> rfl
  rw [switchCall, renderMarkup, renderChildren_invoked, runBody, runStmt, halone]

/-- The case of a branch whose test was read. -/
theorem armsOf_switchCase (hread : ev.Respects setting.reader) {test : Option String}
    {value : Option Expr} (h : (readTest setting.reader test span).result = .ok value)
    (body : List Stmt) (rest : List SwitchCase) (env : Env) :
    armsOf ev (switchCase value body :: rest) env =
      ⟨(test.map (ev.value env)).map .value, fun env => runBody ev body env⟩ ::
        armsOf ev rest env := by
  obtain ⟨rfl, rfl⟩ | ⟨source, e, rfl, rfl, he⟩ := readTest_eq_ok h
  · rfl
  · simp [switchCase, armsOf, evalExpr_readExpression hread he]

/-! ## Loops -/

theorem bindParams_item (env : Env) (item : String) (key : Option String) (v : Value) (i : Nat)
    (more : List Value) :
    ev.bindParams env (Param.ident item :: key.toList.map Param.ident) (v :: ev.index i :: more) =
      bindItem ev env item key v i := by
  cases key <;> simp [bindItem, Evaluation.bindParams, Evaluation.bindParam]

/-- A call of `map` shows the body once per item. -/
theorem renderMarkup_mapCall {collection : Expr} {v : Value} (item : String) (key : Option String)
    (children : List Jsx.Child) {env : Env} (h : evalExpr ev collection env = .value v) :
    renderMarkup ev (mapCall collection item key children) env =
      (ev.items v).zipIdx.flatMap fun (x, i) =>
        renderChildren ev children (bindItem ev env item key x i) := by
  simp [mapCall, renderMarkup, renderChildren, evalExpr, evalArguments, h, Result.callMethod,
    Result.pieces, Expr.fragment, bindParams_item]

/-! ## Templates -/

theorem runScript_of_ok {reader : SnippetReader} {source : String}
    {list : List EmbeddedStatement} (h : reader.statements source = .ok list) (env : Env) :
    runScript ev reader env source = list.foldl (runEmbedded ev) env := by
  simp [runScript, h]

theorem shown_conditional (hread : ev.Respects setting.reader) {test : String} {value other : Expr}
    (ht : (readExpression setting.reader test span).result = .ok value) {ts : List Target}
    {env : Env} {r : List (Piece Value) × Env} (hts : Shows ev ts env r)
    {alternate : List (Piece Value)} (ho : shown (evalExpr ev other env).pieces = shown alternate) :
    shown (evalExpr ev (.conditional value (branchValue (childrenOf ts)) other) env).pieces =
      shown (if ev.truthy (ev.value env test) then r.1 else alternate) := by
  have hholds : ev.holds (.value (ev.value env test)) = ev.truthy (ev.value env test) := rfl
  rw [evalExpr, evalExpr_readExpression hread ht, hholds]
  by_cases htest : ev.truthy (ev.value env test) = true
  · rw [if_pos htest, if_pos htest]
    exact hts.shown_branchValue
  · rw [if_neg htest, if_neg htest]
    exact ho

theorem shows_slot {name : String} {env : Env} {ts : List Target} {nodes : List Node}
    {r : List (Piece Value) × Env} (hne : nodes.isEmpty = false) (h : Shows ev ts env r) :
    Shows ev [slot (Link.slotName name) (some (childrenOf ts))] env
      (renderSlot ev env name nodes.isEmpty r.1, env) := by
  refine (Shows.container _ env).congr ?_
  simp only [evalExpr, Evaluation.holds, renderSlot, hne, Bool.false_or, Expr.fragment]
  split
  · rfl
  · simpa [Result.pieces, renderMarkup] using h.shown_children

mutual

/-- The targets of a node show what the node renders. -/
theorem lowerNode_shows (hread : ev.Respects setting.reader) (top : Bool) (node : Node)
    {l : Lowered} (h : (lowerNode setting top node).result = .ok l) (env : Env) :
    Shows ev l.targets env (renderNode ev setting node env) := by
  match node with
  | .text value _ =>
    obtain rfl := lowerNode_eq_ok h
    rw [renderNode]
    simp only [Lowered.targets]
    split
    · rename_i hblank
      refine (Shows.placeholder env).congr ?_
      simp [shown, Piece.shown, show Text.isBlank value.toList = true from hblank]
    · exact Shows.child (.text value) env
  | .code value kind block span =>
    rw [lowerNode] at h
    rw [renderNode]
    obtain ⟨rfl, list, hlist, rfl⟩ | ⟨hk, e, he, rfl⟩ := lowerCode_eq_ok h
    · rw [if_pos rfl, runScript_of_ok hlist]
      exact Shows.statements list env
    · rw [if_neg hk]
      have hc : Shows ev _ env _ := .container e env
      rwa [evalExpr_readExpression hread he] at hc
  | .group nodes _ =>
    obtain ⟨ts, hts, rfl⟩ := lowerNode_eq_ok h
    exact lowerNodes_shows hread false nodes hts env
  | .namedBlock name mode nodes _ =>
    rw [renderNode]
    rcases lowerNode_eq_ok h with ⟨hlayout, ts, hts, rfl⟩ | ⟨hlayout, rfl, rfl⟩ | ⟨hlayout, hnodes, ts, hts, rfl⟩
    · rw [if_neg (by simp [hlayout])]
      exact lowerNodes_shows hread false nodes hts env
    · rw [if_pos hlayout]
      exact Shows.markup _ env
    · rw [if_pos hlayout]
      exact shows_slot (by simpa using hnodes) (lowerNodes_shows hread false nodes hts env)
  | .comment .. =>
    obtain rfl := lowerNode_eq_ok h
    rw [renderNode]
    exact Shows.placeholder env
  | .doctype .. | .mixinCall .. | .rawInclude .. =>
    obtain rfl := lowerNode_eq_ok h
    rw [renderNode]
    exact Shows.nil env
  | .caseOf subject branches span =>
    obtain ⟨value, cases_, hvalue, hcases, rfl⟩ := lowerNode_eq_ok h
    rw [renderNode]
    refine (Shows.markup _ env).congr ?_
    rw [renderMarkup_switchCall, evalExpr_readExpression hread hvalue]
    exact shown_entered _ (lowerBranches_follow hread branches hcases env)
  | .conditional test consequent alternates span =>
    obtain ⟨value, ts, other, hvalue, hts, hother, rfl⟩ := lowerNode_eq_ok h
    rw [renderNode]
    refine (Shows.bare _ env).congr ?_
    exact shown_conditional hread hvalue (lowerNodes_shows hread false consequent hts env)
      (lowerAlternates_shows hread alternates hother env)
  | .each collection item key body span =>
    obtain ⟨value, ts, hvalue, hts, rfl⟩ := lowerNode_eq_ok h
    rw [renderNode]
    refine (Shows.markup _ env).congr ?_
    rw [renderMarkup_mapCall item key _ (evalExpr_readExpression hread hvalue env)]
    exact shown_flatMap fun x _ => (lowerNodes_shows hread false body hts _).shown_children
  | .mixinDefinition name arguments body span =>
    obtain ⟨ts, hts, rfl⟩ := lowerNode_eq_ok h
    rw [renderNode]
    refine Shows.statement ?_
    -- Of a function only what its body shows is kept, so the body may lower to other pieces.
    rw [runStmt, evalExpr, Result.kept]
    simp only [(lowerNodes_shows hread false body hts _).shown_returned]
  | .tag name attributes spreads children selfClosing span =>
    obtain ⟨list, ts, hlist, hts, rfl⟩ := lowerNode_eq_ok h
    rw [renderNode]
    refine (Shows.markup _ env).congr ?_
    rw [renderMarkup, renderAttributes_lowerAttributes hread hlist]
    exact shown_element (lowerNodes_shows hread false children hts env).shown_children
  | .interpolatedTag expression span =>
    obtain ⟨value, hvalue, rfl⟩ := lowerNode_eq_ok h
    rw [renderNode]
    have hc : Shows ev _ env _ := .container value env
    rwa [evalExpr_readExpression hread hvalue] at hc
  | .includeFile file column span =>
    rw [renderNode]
    rcases lowerNode_eq_ok h with ⟨-, rfl⟩ | ⟨-, rfl⟩
    · exact Shows.imported _ env
    · exact Shows.nil env
  | .extendsFile .. =>
    obtain rfl := lowerNode_eq_ok h
    rw [renderNode]
    exact Shows.imported _ env
  | .whileLoop .. | .mixinBlock .. | .filter .. => exact (lowerNode_eq_ok h).elim

/-- The targets of nodes show what the nodes render. -/
theorem lowerNodes_shows (hread : ev.Respects setting.reader) (top : Bool) (nodes : List Node)
    {ts : List Target} (h : (lowerNodes setting top nodes).result = .ok ts) (env : Env) :
    Shows ev ts env (renderNodes ev setting nodes env) := by
  match nodes with
  | [] =>
    obtain rfl := lowerNodes_eq_ok h
    rw [renderNodes]
    exact Shows.nil env
  | node :: rest =>
    obtain ⟨l, more, hl, hmore, rfl⟩ := lowerNodes_eq_ok h
    rw [renderNodes]
    exact (lowerNode_shows hread top node hl env).append (lowerNodes_shows hread top rest hmore _)

/-- The value of the further branches of a condition shows what they render. -/
theorem lowerAlternates_shows (hread : ev.Respects setting.reader) (alternates : List Alternate)
    {e : Expr} (h : (lowerAlternates setting alternates).result = .ok e) (env : Env) :
    shown (evalExpr ev e env).pieces = shown (renderAlternates ev setting alternates env) := by
  match alternates with
  | [] =>
    obtain rfl := lowerAlternates_eq_ok h
    rw [renderAlternates, evalExpr]
    rfl
  | .orElse nodes _ :: _ =>
    obtain ⟨ts, hts, rfl⟩ := lowerAlternates_eq_ok h
    rw [renderAlternates]
    exact (lowerNodes_shows hread false nodes hts env).shown_branchValue
  | .orIf test nodes span :: rest =>
    obtain ⟨value, ts, other, hvalue, hts, hother, rfl⟩ := lowerAlternates_eq_ok h
    rw [renderAlternates]
    exact shown_conditional hread hvalue (lowerNodes_shows hread false nodes hts env)
      (lowerAlternates_shows hread rest hother env)

/-- The cases of a `switch` follow the branches of the `case` one by one. -/
theorem lowerBranches_follow (hread : ev.Respects setting.reader) (branches : List Branch)
    {cases_ : List SwitchCase} (h : (lowerBranches setting branches).result = .ok cases_)
    (env : Env) :
    List.Forall₂ (Follows env) (armsOf ev cases_ env) (choicesOf ev setting branches env) := by
  match branches with
  | [] =>
    obtain rfl := lowerBranches_eq_ok h
    rw [armsOf, choicesOf]
    exact .nil
  | .bare test span :: rest =>
    obtain ⟨value, more, hvalue, hmore, rfl⟩ := lowerBranches_eq_ok h
    rw [armsOf_switchCase hread hvalue, choicesOf]
    refine .cons ⟨rfl, fun _ => ?_, fun _ hb => ?_⟩ (lowerBranches_follow hread rest hmore env)
    · simp only [runBody]
    · cases hb
  | .block test nodes span :: rest =>
    obtain ⟨value, ts, more, hvalue, hts, hmore, rfl⟩ := lowerBranches_eq_ok h
    have hshows := lowerNodes_shows hread false nodes hts env
    rw [armsOf_switchCase hread hvalue, choicesOf]
    refine .cons ⟨rfl, fun hb => ?_, fun ps hb => ?_⟩ (lowerBranches_follow hread rest hmore env)
    · cases hb
    · cases hb
      obtain ⟨r, hr⟩ : ∃ r, runBody ev (bodyOf ts) env = .returned r := runBody_bodyOf ts env
      refine ⟨r, hr, ?_⟩
      rw [← hshows.shown_returned, hr]
      rfl

end

/-- **Lowering preserves what a template shows.** Whatever the embedded script means, nodes that
lower show as the children of markup, and as the body of a function, what the template renders. -/
theorem lowerNodes_preserves_rendering (ev : Evaluation Env Value) (setting : Setting)
    (hread : ev.Respects setting.reader) (top : Bool) (nodes : List Node) (targets : List Target)
    (h : (lowerNodes setting top nodes).result = .ok targets) (env : Env) :
    (∃ children, (asChildren targets).result = .ok children ∧
      shown (renderChildren ev children env) = shown (renderNodes ev setting nodes env).1) ∧
    ∃ body, (asBody targets).result = .ok body ∧
      shown (runBody ev body env).result.pieces = shown (renderNodes ev setting nodes env).1 := by
  have hshows := lowerNodes_shows hread top nodes h env
  rw [asChildren_eq, asBody_eq]
  exact ⟨⟨_, rfl, hshows.shown_children⟩, _, rfl, hshows.shown_returned⟩

/-- Reads names of lower-case letters as they stand. -/
def nameReader : SnippetReader where
  expression source :=
    if source.toList.all Char.isLower then .ok ⟨source, .primary⟩ else .error .malformed
  statements _ := .error .malformed

theorem respects_nameReader (ev : Evaluation Env Value) : ev.Respects nameReader := by
  intro source e h env
  simp only [nameReader] at h
  split at h
  · cases h; rfl
  · cases h

/-- Names stand for numbers, and a number is the collection of the numbers below it. -/
def counting : Evaluation (List (String × Nat)) Nat where
  value env name := (env.lookup name).getD 0
  truthy v := v != 0
  same a b := a == b
  items v := List.range v
  index i := i
  missing := 0
  member _ _ := 0
  define env name r :=
    match r with
    | .value v => (name, v) :: env
    | _ => env
  run env _ := env

/-- A loop over a condition and a `case` whose default comes first and whose second branch falls
through to the third. -/
def loopNodes : List Node :=
  [.each "n" "i" none
    [.conditional "i" [.text "some" ⟨0, 0⟩] [.orElse [.text "none" ⟨0, 0⟩] ⟨0, 0⟩] ⟨0, 0⟩,
     .caseOf "i"
      [.block none [.text "other" ⟨0, 0⟩] ⟨0, 0⟩, .bare (some "one") ⟨0, 0⟩,
       .block (some "two") [.comment "" false ⟨0, 0⟩, .code "i" .escaped [] ⟨0, 0⟩] ⟨0, 0⟩]
      ⟨0, 0⟩] ⟨0, 0⟩]

theorem loopNodes_rendering : ∃ targets children,
    (lowerNodes ⟨nameReader, false⟩ true loopNodes).result = .ok targets ∧
      (asChildren targets).result = .ok children ∧
      shown (renderChildren counting children [("n", 3), ("one", 1), ("two", 2)]) =
        [.text "none", .text "other", .text "some", .value 1, .text "some", .value 2] := by
  obtain ⟨⟨children, hchildren, hshown⟩, -⟩ := lowerNodes_preserves_rendering counting
    ⟨nameReader, false⟩ (respects_nameReader counting) true loopNodes _ rfl
    [("n", 3), ("one", 1), ("two", 2)]
  exact ⟨_, children, rfl, hchildren, hshown⟩

end PugComponents.Rendering
