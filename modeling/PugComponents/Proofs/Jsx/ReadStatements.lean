import PugComponents.Proofs.Jsx.ReadExpressions

/- Reading back statements and the cases of a `switch`. The first word of a line
   tells the statements apart, and the lines of a block from the line after it. No
   expression statement starts with such a word and a space: after the first word
   of an expression comes a member, a call, a question mark or the semicolon. -/
namespace PugComponents.Jsx

open Text

/-! ## The first word of a line -/

variable {word : String} {c : Char}

theorem keyword?_word (hword : isName word = true) (hc : c ≠ '?') (s : List Char) :
    keyword? (word.toList ++ ' ' :: c :: s) = some (word, c :: s) := by
  have hread : readName (word.toList ++ ' ' :: c :: s) = some (word, ' ' :: c :: s) :=
    readName_append hword (stops_cons.mpr (by decide))
  unfold keyword?
  rw [hread]
  split
  · rename_i heq
    simp only [Option.some.injEq, Prod.mk.injEq, List.cons.injEq] at heq
    exact absurd heq.2.2.1 hc
  · rename_i heq
    simp only [Option.some.injEq, Prod.mk.injEq, List.cons.injEq, true_and] at heq
    rw [heq.1, heq.2]
  · rename_i hne
    exact absurd rfl (hne word (c :: s))

theorem default?_word (hword : isName word = true) (s : List Char) :
    default? (word.toList ++ ' ' :: s) = none := by
  have hread : readName (word.toList ++ ' ' :: s) = some (word, ' ' :: s) :=
    readName_append hword (stops_cons.mpr (by decide))
  unfold default?
  rw [hread]
  rfl

theorem default?_default (s : List Char) :
    case? ("default".toList ++ ':' :: s) = none ∧ default? ("default".toList ++ ':' :: s) = some s := by
  have hread : readName ("default".toList ++ ':' :: s) = some ("default", ':' :: s) :=
    readName_append (by decide) (stops_cons.mpr (by decide))
  unfold case? keyword? default?
  rw [hread]
  exact ⟨rfl, rfl⟩

theorem case?_case (hc : c ≠ '?') (s : List Char) :
    case? ("case".toList ++ ' ' :: c :: s) = some (c :: s) := by
  have hword : keyword? ("case".toList ++ ' ' :: c :: s) = some ("case", c :: s) :=
    keyword?_word (by decide) hc s
  simp only [case?, hword, beq_self_eq_true, if_true]

variable {e : Expr}

/-- No expression statement starts like another statement, or like a case. -/
theorem keyword?_renderExpr (level : Nat) (hplain : e.isPlain = true) (rest : List Char) :
    keyword? ((renderExpr level .sequence e).toList ++ ';' :: rest) = none ∧
      default? ((renderExpr level .sequence e).toList ++ ';' :: rest) = none := by
  unfold keyword? default?
  cases hread : readName ((renderExpr level .sequence e).toList ++ ';' :: rest) with
  | none => exact ⟨rfl, rfl⟩
  | some word =>
    obtain ⟨word, t⟩ := word
    have ht := readName_renderExpr level hplain .sequence (stops_cons.mpr (by decide)) hread
    -- the word stands before the semicolon, a member, a call or a question mark
    obtain rfl | ⟨u, rfl⟩ | ⟨u, rfl⟩ | ⟨u, rfl⟩ := ht
    all_goals exact ⟨rfl, rfl⟩

/-- A statement that starts with a word is in the block. -/
theorem endsBody_word (hword : isName word = true) (hcase : word ≠ "case") (hc : c ≠ '?')
    (s : List Char) : endsBody (word.toList ++ ' ' :: c :: s) = false := by
  have hdefault := default?_word hword (c :: s)
  have hkeyword := keyword?_word hword hc s
  obtain ⟨d, t, hlist, hd⟩ := isName_head hword
  simp only [endsBody, case?, hdefault, hkeyword]
  simp [hlist, hd '\x7d' (by decide), hcase]

section

variable (level : Nat) (rest : List Char)

theorem toList_expression (e : Expr) : (renderStmt level (.expression e)).toList ++ rest =
    (renderExpr level .sequence e).toList ++ ';' :: rest := by
  simp [renderStmt]

theorem toList_binding (name : String) (init : Expr) :
    (renderStmt level (.binding name init)).toList ++ rest = "const".toList ++ ' ' :: (name.toList ++
      ' ' :: '=' :: ' ' :: ((renderExpr level .assignment init).toList ++ ';' :: rest)) := by
  simp [renderStmt]

theorem toList_switch (subject : Expr) (cases : List SwitchCase) :
    (renderStmt level (.switch subject cases)).toList ++ rest = "switch".toList ++ ' ' :: '(' ::
      ((renderExpr level .sequence subject).toList ++ ')' :: ' ' :: '\x7b' ::
        ((renderCases (level + 1) cases).toList ++ ((newLine level).toList ++ '\x7d' :: rest))) := by
  simp [renderStmt, braced]

theorem toList_result (value : Expr) : (renderStmt level (.result value)).toList ++ rest =
    "return".toList ++ ' ' :: ((renderExpr level .sequence value).toList ++ ';' :: rest) := by
  simp [renderStmt]

end

/-- A statement starts with no space, and it is in the block. -/
theorem renderStmt_opens (level : Nat) {stmt : Stmt} (hplain : stmt.isPlain = true) (rest : List Char) :
    Stops (· == ' ') ((renderStmt level stmt).toList ++ rest) ∧
      endsBody ((renderStmt level stmt).toList ++ rest) = false := by
  cases stmt with
  | raw source => cases hplain
  | expression e =>
    have hkeyword := keyword?_renderExpr level hplain rest
    obtain ⟨c, t, htext, hspace, _, hbrace, _⟩ := renderExpr_head level hplain .sequence
    rw [toList_expression]
    refine ⟨?_, ?_⟩
    · rw [htext]
      exact stops_cons.mpr (by simpa using hspace)
    · simp only [endsBody, case?, hkeyword.1, hkeyword.2]
      simp [htext, hbrace]
  | binding name init =>
    simp only [Stmt.isPlain, Bool.and_eq_true] at hplain
    obtain ⟨c, t, hlist, hc⟩ := isName_head hplain.1
    rw [toList_binding, hlist]
    exact ⟨stops_cons.mpr (by decide), endsBody_word (by decide) (by decide) (hc '?' (by decide)) _⟩
  | switch subject cases =>
    rw [toList_switch]
    exact ⟨stops_cons.mpr (by decide), endsBody_word (by decide) (by decide) (by decide) _⟩
  | result value =>
    obtain ⟨c, t, htext, _, _, _, hquestion⟩ := renderExpr_head level hplain .sequence
    rw [toList_result, htext]
    exact ⟨stops_cons.mpr (by decide), endsBody_word (by decide) (by decide) hquestion _⟩

/-! ## Statements -/

/-- The text of a statement is read back. -/
def ReadsStmt (stmt : Stmt) : Prop :=
  ∀ level rest,
    Settles (fun n => readStmt n ((renderStmt level stmt).toList ++ rest)) (stmt.normal, rest)

/-- The cases of a `switch` are read back, before a line that closes the `switch`. -/
def ReadsCases (cases : List SwitchCase) : Prop :=
  ∀ level rest, (∃ t, readLineBreak rest = some ('\x7d' :: t)) →
    Settles (fun n => readCases n ((renderCases level cases).toList ++ rest)) (normalCases cases, rest)

theorem reads_expression (he : Reads e) : ReadsStmt (.expression e) := by
  intro level rest
  refine .succ ?_
  simp only [toList_expression, readStmt, (keyword?_renderExpr level he.plain rest).1, Stmt.normal]
  refine (he.render level .sequence (.of_mem (by decide) rest)).bind ?_
  exact .expect [';'] (.of_eq fun _ => rfl)

theorem reads_binding {name : String} {init : Expr} (hname : isName name = true) (hinit : Reads init) :
    ReadsStmt (.binding name init) := by
  intro level rest
  refine .succ ?_
  obtain ⟨c, t, hlist, hc⟩ := isName_head hname
  have hkeyword (s : List Char) :
      keyword? ("const".toList ++ ' ' :: (name.toList ++ s)) = some ("const", name.toList ++ s) := by
    rw [hlist]
    exact keyword?_word (by decide) (hc '?' (by decide)) _
  simp only [toList_binding, readStmt, hkeyword, Stmt.normal]
  refine .bind (.of_eq fun _ => readName_append hname (stops_cons.mpr (by decide))) ?_
  refine .expect [' ', '=', ' '] ?_
  refine (hinit.render level .assignment (.of_mem (by decide) rest)).bind ?_
  exact .expect [';'] (.of_eq fun _ => rfl)

theorem reads_result {value : Expr} (hvalue : Reads value) : ReadsStmt (.result value) := by
  intro level rest
  refine .succ ?_
  have hkeyword (s : List Char) :
      keyword? ("return".toList ++ ' ' :: ((renderExpr level .sequence value).toList ++ s)) =
        some ("return", (renderExpr level .sequence value).toList ++ s) := by
    obtain ⟨c, t, htext, _, _, _, hquestion⟩ := renderExpr_head level hvalue.plain .sequence
    rw [htext]
    exact keyword?_word (by decide) hquestion _
  simp only [toList_result, readStmt, hkeyword, Stmt.normal]
  refine (hvalue.render level .sequence (.of_mem (by decide) rest)).bind ?_
  exact .expect [';'] (.of_eq fun _ => rfl)

theorem reads_switch {subject : Expr} {cases : List SwitchCase} (hsubject : Reads subject)
    (hcases : ReadsCases cases) : ReadsStmt (.switch subject cases) := by
  intro level rest
  refine .succ ?_
  have hkeyword (s : List Char) : keyword? ("switch".toList ++ ' ' :: '(' :: s) = some ("switch", '(' :: s) :=
    keyword?_word (by decide) (by decide) s
  have hline := readLineBreak_newLine level (s := '\x7d' :: rest) (stops_cons.mpr (by decide))
  simp only [toList_switch, readStmt, hkeyword, Stmt.normal]
  refine .expect ['('] ?_
  refine (hsubject.render level .sequence (.of_mem (by decide) _)).bind ?_
  refine .expect [')', ' ', '\x7b'] ?_
  refine (hcases (level + 1) _ ⟨rest, hline⟩).bind ?_
  refine .bind (.of_eq fun _ => hline) ?_
  exact .expect ['\x7d'] (.of_eq fun _ => rfl)

/-! ## Blocks and cases -/

theorem readsBody_nil : ReadsBody [] := by
  rintro level rest ⟨line, hline, hends⟩
  refine .succ (.of_eq fun n => ?_)
  simp [renderStmts, readBody, hline, hends, normalBody]

theorem readsBody_cons {stmt : Stmt} {body : List Stmt} (hplain : stmt.isPlain = true)
    (hstmt : ReadsStmt stmt) (hbody : ReadsBody body) : ReadsBody (stmt :: body) := by
  intro level rest hrest
  have htext : (renderStmts level (stmt :: body)).toList ++ rest = (newLine level).toList ++
      ((renderStmt level stmt).toList ++ ((renderStmts level body).toList ++ rest)) := by
    simp [renderStmts]
  have hopens := renderStmt_opens level hplain ((renderStmts level body).toList ++ rest)
  refine .succ ?_
  simp only [htext, readBody, normalBody]
  refine .bind (.of_eq fun _ => readLineBreak_newLine level hopens.1) ?_
  -- the line of a statement does not end the block
  simp only [hopens.2, Bool.false_eq_true, if_false]
  refine (hstmt level _).bind ?_
  exact (hbody level rest hrest).bind (.of_eq fun _ => rfl)

section

variable (level : Nat) (body : List Stmt) (more : List SwitchCase) (rest : List Char)

theorem toList_test (e : Expr) : (renderCases level (.test e body :: more)).toList ++ rest =
    (newLine level).toList ++ ("case".toList ++ ' ' :: ((renderExpr level .sequence e).toList ++ ':' ::
      ((renderStmts (level + 1) body).toList ++ ((renderCases level more).toList ++ rest)))) := by
  simp [renderCases]

theorem toList_otherwise : (renderCases level (.otherwise body :: more)).toList ++ rest =
    (newLine level).toList ++ ("default".toList ++ ':' ::
      ((renderStmts (level + 1) body).toList ++ ((renderCases level more).toList ++ rest))) := by
  simp [renderCases]

end

theorem case?_renderExpr (level : Nat) (hplain : e.isPlain = true) (s : List Char) :
    case? ("case".toList ++ ' ' :: ((renderExpr level .sequence e).toList ++ s)) =
      some ((renderExpr level .sequence e).toList ++ s) := by
  obtain ⟨c, t, htext, _, _, _, hquestion⟩ := renderExpr_head level hplain .sequence
  rw [htext]
  exact case?_case hquestion _

/-- The body of a case ends where the next case starts, or the `switch` ends. -/
theorem endsBody_renderCases (level : Nat) {cases : List SwitchCase} (hplain : plainCases cases = true)
    {rest : List Char} (hrest : ∃ t, readLineBreak rest = some ('\x7d' :: t)) :
    EndsBody ((renderCases level cases).toList ++ rest) := by
  match cases with
  | [] =>
    obtain ⟨t, ht⟩ := hrest
    exact ⟨'\x7d' :: t, by simpa [renderCases] using ht, rfl⟩
  | .test e body :: more =>
    simp only [plainCases, Bool.and_eq_true] at hplain
    rw [toList_test]
    refine ⟨_, readLineBreak_newLine level (stops_cons.mpr (by decide)), ?_⟩
    simp only [endsBody, case?_renderExpr level hplain.1.1, Option.isSome_some, Bool.or_true,
      Bool.true_or]
  | .otherwise body :: more =>
    rw [toList_otherwise]
    refine ⟨_, readLineBreak_newLine level (stops_cons.mpr (by decide)), ?_⟩
    simp only [endsBody, (default?_default _).2, Option.isSome_some, Bool.or_true]

theorem readsCases_nil : ReadsCases [] := by
  rintro level rest ⟨t, ht⟩
  have hcase : case? ('\x7d' :: t) = none := rfl
  have hdefault : default? ('\x7d' :: t) = none := rfl
  refine .succ (.of_eq fun n => ?_)
  simp [renderCases, readCases, ht, hcase, hdefault, normalCases]

theorem readsCases_test {body : List Stmt} {more : List SwitchCase}
    (hplain : plainCases more = true) (he : Reads e) (hbody : ReadsBody body)
    (hmore : ReadsCases more) : ReadsCases (.test e body :: more) := by
  intro level rest hrest
  refine .succ ?_
  simp only [toList_test, readCases, normalCases]
  refine .bind (.of_eq fun _ => readLineBreak_newLine level (stops_cons.mpr (by decide))) ?_
  simp only [case?_renderExpr level he.plain]
  refine (he.render level .sequence (.of_mem (by decide) _)).bind (.expect [':'] ?_)
  refine (hbody (level + 1) _ (endsBody_renderCases level hplain hrest)).bind ?_
  exact (hmore level rest hrest).bind (.of_eq fun _ => rfl)

theorem readsCases_otherwise {body : List Stmt} {more : List SwitchCase}
    (hplain : plainCases more = true) (hbody : ReadsBody body) (hmore : ReadsCases more) :
    ReadsCases (.otherwise body :: more) := by
  intro level rest hrest
  refine .succ ?_
  simp only [toList_otherwise, readCases, normalCases]
  refine .bind (.of_eq fun _ => readLineBreak_newLine level (stops_cons.mpr (by decide))) ?_
  simp only [default?_default]
  refine (hbody (level + 1) _ (endsBody_renderCases level hplain hrest)).bind ?_
  exact (hmore level rest hrest).bind (.of_eq fun _ => rfl)

end PugComponents.Jsx
