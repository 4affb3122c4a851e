import PugComponents.Proofs.Jsx.ReadMarkup
import PugComponents.Proofs.Jsx.ReadStatements

/- Printed modules are unambiguous. The reader gives the normal form of every plain
   tree back from its text, so two trees with one text have one normal form. -/
namespace PugComponents.Jsx

open Text
open Script (Strength)

/-! ## Plain trees are read back -/

mutual

theorem reads_of_isPlain : ∀ e : Expr, e.isPlain = true → Reads e
  | .embedded _, h => nomatch h
  | .null, _ => reads_null
  | .str value, _ => reads_str value
  | .ident _, h => reads_ident h
  | .object properties, h => reads_object h (readsValues_of_plain properties h)
  | .conditional test consequent alternate, h => by
    have hparts := h
    simp only [Expr.isPlain, Bool.and_eq_true] at hparts
    exact reads_conditional h (reads_of_isPlain test hparts.1.1)
      (reads_of_isPlain consequent hparts.1.2) (reads_of_isPlain alternate hparts.2)
  | .call callee arguments, h => by
    have hparts := h
    simp only [Expr.isPlain, Bool.and_eq_true] at hparts
    exact reads_call h (reads_of_isPlain callee hparts.1) (readsArguments_of_plain arguments hparts.2)
  | .member object _, h => by
    have hparts := h
    simp only [Expr.isPlain, Bool.and_eq_true] at hparts
    exact reads_member h (reads_of_isPlain object hparts.1)
  | .arrow _ result, h => by
    have hparts := h
    simp only [Expr.isPlain, Bool.and_eq_true] at hparts
    exact reads_arrow h (reads_of_isPlain result hparts.2)
  | .blockArrow _ body, h => by
    have hparts := h
    simp only [Expr.isPlain, Bool.and_eq_true] at hparts
    exact reads_blockArrow h (readsBody_of_plain body hparts.2)
  | .markup m, h => reads_markup h (readsMarkup_of_isPlain m h)

theorem readsArguments_of_plain : ∀ arguments : List Expr, plainArguments arguments = true →
    ∀ e ∈ arguments, Reads e
  | [], _, _, he => nomatch he
  | e :: more, h, _, he => by
    simp only [plainArguments, Bool.and_eq_true] at h
    cases he with
    | head => exact reads_of_isPlain e h.1
    | tail _ he => exact readsArguments_of_plain more h.2 _ he

theorem readsValues_of_plain : ∀ properties : List Property, plainProperties properties = true →
    ∀ p ∈ properties, Reads p.value
  | [], _, _, hp => nomatch hp
  | .mk key value :: more, h, _, hp => by
    simp only [plainProperties, Bool.and_eq_true] at h
    cases hp with
    | head => exact reads_of_isPlain value h.1
    | tail _ hp => exact readsValues_of_plain more h.2 _ hp

theorem readsStmt_of_isPlain : ∀ stmt : Stmt, stmt.isPlain = true → ReadsStmt stmt
  | .raw _, h => nomatch h
  | .expression e, h => reads_expression (reads_of_isPlain e h)
  | .binding name init, h => by
    simp only [Stmt.isPlain, Bool.and_eq_true] at h
    exact reads_binding h.1 (reads_of_isPlain init h.2)
  | .switch subject cases, h => by
    simp only [Stmt.isPlain, Bool.and_eq_true] at h
    exact reads_switch (reads_of_isPlain subject h.1) (readsCases_of_plain cases h.2)
  | .result value, h => reads_result (reads_of_isPlain value h)

theorem readsBody_of_plain : ∀ body : List Stmt, plainBody body = true → ReadsBody body
  | [], _ => readsBody_nil
  | stmt :: more, h => by
    simp only [plainBody, Bool.and_eq_true] at h
    exact readsBody_cons h.1 (readsStmt_of_isPlain stmt h.1) (readsBody_of_plain more h.2)

theorem readsCases_of_plain : ∀ cases : List SwitchCase, plainCases cases = true → ReadsCases cases
  | [], _ => readsCases_nil
  | .test e body :: more, h => by
    simp only [plainCases, Bool.and_eq_true] at h
    exact readsCases_test h.2 (reads_of_isPlain e h.1.1) (readsBody_of_plain body h.1.2)
      (readsCases_of_plain more h.2)
  | .otherwise body :: more, h => by
    simp only [plainCases, Bool.and_eq_true] at h
    exact readsCases_otherwise h.2 (readsBody_of_plain body h.1) (readsCases_of_plain more h.2)

theorem readsMarkup_of_isPlain : ∀ m : Markup, m.isPlain = true → ReadsMarkup m
  | .element name attributes children selfClosing, h => by
    simp only [Markup.isPlain, Bool.and_eq_true] at h
    exact readsMarkup_element selfClosing h.1.1 (readsAttributes_of_plain attributes h.1.2)
      (readsChildren_of_plain children h.2)
  | .fragment children, h => readsMarkup_fragment (readsChildren_of_plain children h)

theorem readsAttributes_of_plain : ∀ attributes : List Attribute, plainAttributes attributes = true →
    ReadsAttributes attributes
  | [], _ => readsAttributes_nil
  | .flag name :: more, h => by
    simp only [plainAttributes, Bool.and_eq_true] at h
    exact readsAttributes_flag h.1 (readsAttributes_of_plain more h.2)
  | .value name e :: more, h => by
    simp only [plainAttributes, Bool.and_eq_true] at h
    exact readsAttributes_value h.1.1 (reads_of_isPlain e h.1.2) (readsAttributes_of_plain more h.2)
  | .spread e :: more, h => by
    simp only [plainAttributes, Bool.and_eq_true] at h
    exact readsAttributes_spread (reads_of_isPlain e h.1) (readsAttributes_of_plain more h.2)

theorem readsChildren_of_plain : ∀ children : List Child, plainChildren children = true →
    ReadsChildren children
  | [], _ => readsChildren_nil
  | .text value :: more, h => readsChildren_text value (readsChildren_of_plain more h)
  | .container e :: more, h => by
    simp only [plainChildren, Bool.and_eq_true] at h
    exact readsChildren_container (reads_of_isPlain e h.1) (readsChildren_of_plain more h.2)
  | .markup m :: more, h => by
    simp only [plainChildren, Bool.and_eq_true] at h
    exact readsChildren_markup h.1 (readsMarkup_of_isPlain m h.1) (readsChildren_of_plain more h.2)

end

/-! ## Modules -/

theorem readImport_render {i : Import} (hname : isName i.name = true) (s : List Char) :
    readImport (i.render.toList ++ s) = some (i, s) := by
  have htext : i.render.toList ++ s = "import \x7b ".toList ++ (i.name.toList ++
      (" \x7d from ".toList ++ ((quoted i.path).toList ++ (";\n".toList ++ s)))) := by
    simp [Import.render, braced]
  have hread : readName (i.name.toList ++ (" \x7d from ".toList ++
      ((quoted i.path).toList ++ (";\n".toList ++ s)))) = some (i.name, _) :=
    readName_append hname (stops_cons.mpr (by decide))
  rw [htext]
  simp only [readImport, dropPrefix?_append, hread, readString_quoted, bind, Option.bind]

/-- The imports are read back, before a text that is no import. -/
theorem readImports_render {imports : List Import} (hnames : ∀ i ∈ imports, isName i.name = true)
    {s : List Char} (hs : readImport s = none) :
    Settles (fun n => readImports n ((joinWith "" (imports.map Import.render)).toList ++ s))
      (imports, s) := by
  induction imports with
  | nil => exact .succ (.of_eq fun n => by simp [joinWith, readImports, hs])
  | cons i more ih =>
    have htext : (joinWith "" ((i :: more).map Import.render)).toList ++ s =
        i.render.toList ++ ((joinWith "" (more.map Import.render)).toList ++ s) := by
      cases more <;> simp [joinWith]
    have hread := readImport_render (hnames i List.mem_cons_self)
      ((joinWith "" (more.map Import.render)).toList ++ s)
    refine .succ ?_
    simp only [htext, readImports, hread]
    exact (ih fun j hj => hnames j (List.mem_cons_of_mem i hj)).bind (.of_eq fun _ => rfl)

theorem readImportSection_render {imports : List Import} (hnames : ∀ i ∈ imports, isName i.name = true)
    {s : List Char} (hs : readImport s = none) :
    Settles (fun n => readImportSection n ((renderImports imports).toList ++ s)) (imports, s) := by
  cases imports with
  | nil => exact (readImports_render hnames hs).bind (.of_eq fun _ => rfl)
  | cons i more =>
    have htext : (renderImports (i :: more)).toList ++ s =
        (joinWith "" ((i :: more).map Import.render)).toList ++ '\n' :: s := by
      simp [renderImports]
    have hline : readImport ('\n' :: s) = none := by simp [readImport, dropPrefix?]
    rw [htext]
    exact (readImports_render hnames hline).bind (.expect ['\n'] (.of_eq fun _ => rfl))

theorem readProgram_render {p : Program} (hplain : p.isPlain = true) :
    Settles (fun n => readProgram n p.render.toList) p.normal := by
  simp only [Program.isPlain, Bool.and_eq_true] at hplain
  obtain ⟨⟨⟨himports, hname⟩, hparams⟩, hbody⟩ := hplain
  have htext : p.render.toList = (renderImports p.imports).toList ++ ("export const ".toList ++
      (p.name.toList ++ (" = ".toList ++ '(' :: ((renderParams p.params).toList ++
        ')' :: ' ' :: '=' :: '>' :: ' ' :: '\x7b' :: ((renderStmts 1 p.body).toList ++
          ((newLine 0).toList ++ '\x7d' :: ";\n".toList)))))) := by
    simp [Program.render, toList_newLine]
  have hexport (s : List Char) : readImport ("export const ".toList ++ s) = none := by
    simp [readImport, dropPrefix?]
  have hline : readLineBreak ((newLine 0).toList ++ '\x7d' :: ";\n".toList) = some ("\x7d;\n".toList ++ []) :=
    readLineBreak_newLine 0 (stops_cons.mpr (by decide))
  rw [htext]
  refine (readImportSection_render (List.all_eq_true.mp himports) (hexport _)).bind ?_
  refine .expect "export const ".toList ?_
  refine .bind (.of_eq fun _ => readName_append hname (stops_cons.mpr (by decide))) ?_
  refine .expect " = ".toList ?_
  refine (readArrowHead_params hparams _).bind (.expect ['\x7b'] ?_)
  refine (readsBody_of_plain p.body hbody 1 _ (endsBody_newLine 0 _)).bind ?_
  refine .bind (.of_eq fun _ => hline) ?_
  exact .expect "\x7d;\n".toList (.of_eq fun _ => rfl)

/-- **Printed modules are unambiguous.** If the same text is printed for two expressions, for two
statements, for two pieces of markup or for two modules, then their normal forms are equal, at
whatever levels and places they are printed. -/
theorem render_unambiguous :
    (∀ e e' : Expr, e.isPlain = true → e'.isPlain = true →
      ∀ (level level' : Nat) (required required' : Strength),
        renderExpr level required e = renderExpr level' required' e' → e.normal = e'.normal) ∧
    (∀ stmt stmt' : Stmt, stmt.isPlain = true → stmt'.isPlain = true → ∀ level level' : Nat,
      renderStmt level stmt = renderStmt level' stmt' → stmt.normal = stmt'.normal) ∧
    (∀ m m' : Markup, m.isPlain = true → m'.isPlain = true →
      ∀ (level level' : Nat) (inline inline' : Bool),
        renderMarkup level inline m = renderMarkup level' inline' m' →
        m.normal inline = m'.normal inline') ∧
    (∀ p p' : Program, p.isPlain = true → p'.isPlain = true →
      p.render = p'.render → p.normal = p'.normal) := by
  refine ⟨fun e e' he he' level level' required required' htext => ?_,
    fun stmt stmt' hstmt hstmt' level level' htext => ?_,
    fun m m' hm hm' level level' inline inline' htext => ?_, fun p p' hp hp' htext => ?_⟩
  · have hread := (reads_of_isPlain e he).render level required .nil
    have hread' := (reads_of_isPlain e' he').render level' required' .nil
    rw [htext] at hread
    exact (Prod.mk.inj (hread.unique hread')).1
  · have hread := readsStmt_of_isPlain stmt hstmt level []
    have hread' := readsStmt_of_isPlain stmt' hstmt' level' []
    rw [htext] at hread
    exact (Prod.mk.inj (hread.unique hread')).1
  · have hread := readsMarkup_of_isPlain m hm level inline []
    have hread' := readsMarkup_of_isPlain m' hm' level' inline' []
    rw [htext] at hread
    exact (Prod.mk.inj (hread.unique hread')).1
  · have hread := readProgram_render hp
    rw [htext] at hread
    exact hread.unique (readProgram_render hp')

/-- A paragraph of three texts. -/
def comparison : Markup := .element "p" [.flag "hidden"] [.text "a", .text " < ", .text "b"] false

/-- The same paragraph with a literal, an empty text, and a mark that does not count. -/
def comparisonLiteral : Markup :=
  .element "p" [.flag "hidden"] [.text "a", .container (.str " < "), .text "", .text "b"] true

/-- A module that returns markup. -/
def pageOf (m : Markup) : Program := ⟨[⟨"Card", "./card"⟩], "Page", [.destructured []], [.result (.markup m)]⟩

theorem comparison_unambiguous :
    (renderExpr 2 .primary (.markup comparison) = renderExpr 2 .primary (.markup comparisonLiteral) ∧
      (Expr.markup comparison).normal = (Expr.markup comparisonLiteral).normal) ∧
    (renderStmt 1 (.result (.markup comparison)) = renderStmt 1 (.result (.markup comparisonLiteral)) ∧
      (Stmt.result (.markup comparison)).normal = (Stmt.result (.markup comparisonLiteral)).normal) ∧
    (renderMarkup 0 true comparison = renderMarkup 0 true comparisonLiteral ∧
      comparison.normal true = comparisonLiteral.normal true) ∧
    ((pageOf comparison).render = (pageOf comparisonLiteral).render ∧
      (pageOf comparison).normal = (pageOf comparisonLiteral).normal) := by
  have hexpr : renderExpr 2 .primary (.markup comparison) =
      renderExpr 2 .primary (.markup comparisonLiteral) := by decide
  have hstmt : renderStmt 1 (.result (.markup comparison)) =
      renderStmt 1 (.result (.markup comparisonLiteral)) := by decide
  have hmarkup : renderMarkup 0 true comparison = renderMarkup 0 true comparisonLiteral := by decide
  have hpage : (pageOf comparison).render = (pageOf comparisonLiteral).render := by decide
  obtain ⟨expr, stmt, markup, page⟩ := render_unambiguous
  exact ⟨⟨hexpr, expr _ _ (by decide) (by decide) 2 2 .primary .primary hexpr⟩,
    ⟨hstmt, stmt _ _ (by decide) (by decide) 1 1 hstmt⟩,
    ⟨hmarkup, markup _ _ (by decide) (by decide) 0 0 true true hmarkup⟩,
    ⟨hpage, page _ _ (by decide) (by decide) hpage⟩⟩

end PugComponents.Jsx
