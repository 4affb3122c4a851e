import PugComponents.Proofs.Jsx.Openings

/- Reading back expressions, one constructor at a time. `Reads e` says that the
   reader gives the normal form of `e` wherever the printer puts its text: as a
   whole before a text that ends an expression, and as the front of an operand.
   Each lemma takes `Reads` of the parts of an expression to `Reads` of the
   expression. -/
namespace PugComponents.Jsx

open Text
open Script (Strength)

/-! ## Where an expression ends -/

/-- What can follow an expression: it goes on with no name, no call, member or arrow, and no
question mark. -/
structure Ends (s : List Char) : Prop where
  name : Stops Char.isAlphanum s
  suffixes : ∀ n e, readSuffixes (n + 1) e s = some (e, s)
  arrow : dropPrefix? [' ', '=', '>', ' '] s = none
  question : dropPrefix? [' ', '?', ' '] s = none

variable {s : List Char}

namespace Ends

theorem nil : Ends [] := ⟨.nil _, fun _ _ => rfl, rfl, rfl⟩

theorem of_mem {c : Char} (hc : c ∈ [',', ')', ';', ':', '\x7d']) (s : List Char) : Ends (c :: s) := by
  simp only [List.mem_cons, List.not_mem_nil, or_false] at hc
  obtain rfl | rfl | rfl | rfl | rfl := hc <;>
    exact ⟨stops_cons.mpr (by decide), fun _ _ => rfl, by simp [dropPrefix?], by simp [dropPrefix?]⟩

/-- After the last property, and before the alternative. -/
theorem of_space_mem {c : Char} (hc : c ∈ [':', '\x7d']) (s : List Char) : Ends (' ' :: c :: s) := by
  simp only [List.mem_cons, List.not_mem_nil, or_false] at hc
  obtain rfl | rfl := hc <;>
    exact ⟨stops_cons.mpr (by decide), fun _ _ => rfl, by simp [dropPrefix?], by simp [dropPrefix?]⟩

theorem settles (h : Ends s) (e : Expr) : Settles (fun n => readSuffixes n e s) (e, s) :=
  .succ (.of_eq fun n => h.suffixes n e)

end Ends

/-! ## Wholes and operands -/

/-- The texts of an expression are read back. -/
structure Reads (e : Expr) : Prop where
  plain : e.isPlain = true
  whole (level : Nat) (rest : List Char) : Ends rest →
    Settles (fun n => readExpr n ((renderExpr level .sequence e).toList ++ rest)) (e.normal, rest)
  /-- What the reader makes of the calls and members after an operand, it makes of the operand and
  all that. -/
  operand (level : Nat) (rest : List Char) (result : Expr × List Char) :
    Stops Char.isAlphanum rest → Settles (fun n => readSuffixes n e.normal rest) result →
    Settles (fun n => readOperand n ((renderExpr level .primary e).toList ++ rest)) result

variable {rest : List Char}

/-- An operand that is no arrow function, with no question mark after it, is an expression. -/
theorem readExpr_operand {e : Expr} (hhead : ∀ n, readArrowHead n s = none) (hrest : Ends rest)
    (hread : Settles (fun n => readOperand n s) (e, rest)) :
    Settles (fun n => readExpr n s) (e, rest) := by
  refine .succ ?_
  simp only [readExpr, hhead]
  refine hread.bind (.of_eq fun n => ?_)
  simp only [hrest.question]

theorem readOperand_atom {e : Expr} {result : Expr × List Char}
    (hatom : Settles (fun n => readAtom n s) (e, rest))
    (hrest : Settles (fun n => readSuffixes n e rest) result) :
    Settles (fun n => readOperand n s) result := by
  refine .succ ?_
  simp only [readOperand]
  exact hatom.bind hrest

theorem readAtom_paren {e : Expr} (hread : Settles (fun n => readExpr n s) (e, ')' :: rest)) :
    Settles (fun n => readAtom n ('(' :: s)) (e, rest) := by
  refine .succ ?_
  simp only [readAtom_wrapped]
  exact hread.bind (.expect [')'] (.of_eq fun _ => rfl))

namespace Reads

variable {e : Expr}

theorem of_operand (hplain : e.isPlain = true) (htight : e.isLoose = false)
    (h : ∀ level rest result, Stops Char.isAlphanum rest →
      Settles (fun n => readSuffixes n e.normal rest) result →
      Settles (fun n => readOperand n ((renderExpr level .primary e).toList ++ rest)) result) :
    Reads e where
  plain := hplain
  whole level rest hrest := by
    rw [renderExpr_tight hplain htight level .sequence .primary]
    exact readExpr_operand (fun n => (opens_tight level e hplain).readArrowHead n rest) hrest
      (h level rest _ hrest.name (hrest.settles e.normal))
  operand := h

theorem of_atom (hplain : e.isPlain = true) (htight : e.isLoose = false)
    (h : ∀ level rest, Stops Char.isAlphanum rest →
      Settles (fun n => readAtom n ((renderExpr level .primary e).toList ++ rest)) (e.normal, rest)) :
    Reads e :=
  of_operand hplain htight fun level rest _ hrest hsuffixes =>
    readOperand_atom (h level rest hrest) hsuffixes

theorem of_whole (hplain : e.isPlain = true) (hloose : e.isLoose = true)
    (h : ∀ level rest, Ends rest →
      Settles (fun n => readExpr n ((renderExpr level .sequence e).toList ++ rest)) (e.normal, rest)) :
    Reads e where
  plain := hplain
  whole := h
  operand level rest result hrest hsuffixes := by
    have htext : (renderExpr level .primary e).toList ++ rest =
        '(' :: ((renderExpr level .sequence e).toList ++ ')' :: rest) := by
      simp [renderExpr_loose hloose]
    rw [htext]
    exact readOperand_atom (readAtom_paren (h level _ (.of_mem (by decide) rest))) hsuffixes

/-- Whatever strength its place requires, the text of an expression is read back. -/
theorem render (h : Reads e) (level : Nat) (required : Strength) (hrest : Ends rest) :
    Settles (fun n => readExpr n ((renderExpr level required e).toList ++ rest)) (e.normal, rest) := by
  rcases renderExpr_cases h.plain level required with htext | htext
  -- in parentheses, or tight anyway: an operand with nothing after it
  · rw [htext]
    exact readExpr_operand (fun n => (opens_tight level e h.plain).readArrowHead n rest) hrest
      (h.operand level rest _ hrest.name (hrest.settles e.normal))
  · rw [htext]
    exact h.whole level rest hrest

end Reads

/-! ## Atoms -/

theorem readAtom_name (n : Nat) {name : String} (hname : isName name = true)
    (hrest : Stops Char.isAlphanum rest) :
    readAtom (n + 1) (name.toList ++ rest) =
      some (if name == "null" then .null else .ident name, rest) := by
  obtain ⟨c, t, hlist, hc⟩ := isName_head hname
  have hread := readName_append hname hrest
  rw [hlist, List.cons_append] at hread ⊢
  rw [readAtom]
  · simp only [hread, bind, Option.bind]
  · exact fun _ h => hc '(' (by decide) (List.cons.inj h).1
  · exact fun _ h => hc '"' (by decide) (List.cons.inj h).1
  · exact fun _ h => hc '\x7b' (by decide) (List.cons.inj h).1
  · exact fun _ h => hc '\x7b' (by decide) (List.cons.inj h).1
  · exact fun _ h => hc '<' (by decide) (List.cons.inj h).1

theorem reads_null : Reads .null :=
  .of_atom rfl rfl fun level rest hrest => .succ (.of_eq fun n => by
    simp only [renderExpr]
    exact readAtom_name n (by decide) hrest)

theorem reads_ident {name : String} (hplain : (Expr.ident name).isPlain = true) :
    Reads (.ident name) := by
  have hname := hplain
  simp only [Expr.isPlain, Bool.and_eq_true, bne_iff_ne] at hname
  refine .of_atom hplain rfl fun level rest hrest => .succ (.of_eq fun n => ?_)
  simp only [renderExpr, readAtom_name n hname.1 hrest, beq_iff_eq, hname.2, if_false, Expr.normal]

theorem reads_str (value : String) : Reads (.str value) := by
  refine .of_atom rfl rfl fun level rest _ => .succ (.of_eq fun n => ?_)
  have hread := readString_quoted value rest
  simp only [renderExpr]
  rw [toList_quoted, List.cons_append] at hread ⊢
  simp only [readAtom, hread, bind, Option.bind, Expr.normal]

/-! ## Objects, calls and members -/

theorem renderArguments_eq_map (level : Nat) : ∀ arguments : List Expr,
    renderArguments level arguments = arguments.map (renderExpr level .assignment)
  | [] => by simp only [renderArguments, List.map_nil]
  | e :: more => by simp only [renderArguments, List.map_cons, renderArguments_eq_map level more]

theorem readProperty_render (level : Nat) {p : Property} (hvalue : Reads p.value)
    (hrest : Ends rest) :
    Settles (fun n => readProperty (readExpr n) ((p.render level).toList ++ rest)) (p.normal, rest) := by
  obtain ⟨key, value⟩ := p
  simp only [readProperty]
  refine .bind (.of_eq fun _ => readKey_property level key value rest) (.expect [':', ' '] ?_)
  exact (hvalue.render level .assignment hrest).bind (.of_eq fun _ => rfl)

theorem reads_object {properties : List Property} (hplain : (Expr.object properties).isPlain = true)
    (hvalues : ∀ p ∈ properties, Reads p.value) : Reads (.object properties) := by
  refine .of_atom hplain rfl fun level rest _ => .succ ?_
  by_cases hne : properties = []
  · subst hne
    refine .of_eq fun n => ?_
    simp [renderExpr, braced, readAtom, Expr.normal, normalProperties]
  · have hlist := readSeparated_joinWith (fun n => readProperty (readExpr n)) (Property.render level)
      Property.normal (fun s => Ends.of_mem (by decide) (' ' :: s))
      (.of_space_mem (by decide) rest) (by simp [dropPrefix?]) properties hne
      (fun p hp _ hs => readProperty_render level (hvalues p hp) hs) (s := ' ' :: '\x7d' :: rest)
    rw [← normalProperties_eq_map] at hlist
    simp only [toList_object level hne, List.cons_append, List.append_assoc, List.nil_append,
      Expr.normal]
    simp only [readAtom]
    exact hlist.bind (.expect [' ', '\x7d'] (.of_eq fun _ => rfl))

theorem renderArguments_head (level : Nat) {arguments : List Expr} (hne : arguments ≠ [])
    (harguments : ∀ e ∈ arguments, Reads e) :
    ∃ c t, (joinWith ", " (renderArguments level arguments)).toList = c :: t ∧ c ≠ ')' := by
  match arguments, hne with
  | e :: more, _ =>
    obtain ⟨t, hjoin⟩ := toList_joinWith_head (renderExpr level .assignment e) (renderArguments level more)
    obtain ⟨c, u, htext, _, hc, _⟩ :=
      renderExpr_head level (harguments e List.mem_cons_self).plain .assignment
    exact ⟨c, u ++ t, by rw [renderArguments, hjoin, htext, List.cons_append], hc⟩

theorem reads_call {callee : Expr} {arguments : List Expr}
    (hplain : (Expr.call callee arguments).isPlain = true) (hcallee : Reads callee)
    (harguments : ∀ e ∈ arguments, Reads e) : Reads (.call callee arguments) := by
  refine .of_operand hplain rfl fun level rest result hrest hsuffixes => ?_
  have htext : (renderExpr level .primary (.call callee arguments)).toList ++ rest =
      (renderExpr level .primary callee).toList ++
        '(' :: ((joinWith ", " (renderArguments level arguments)).toList ++ ')' :: rest) := by
    simp [renderExpr]
  rw [htext]
  -- the callee is an operand, and the parentheses are its next suffix
  refine hcallee.operand level _ result (stops_cons.mpr (by decide)) (.succ ?_)
  simp only [Expr.normal] at hsuffixes
  by_cases hne : arguments = []
  · subst hne
    simpa [renderArguments, normalArguments, joinWith, readSuffixes] using hsuffixes
  · have hlist := readSeparated_joinWith readExpr (renderExpr level .assignment) Expr.normal
      (fun s => Ends.of_mem (by decide) (' ' :: s)) (.of_mem (by decide) rest) (by simp [dropPrefix?])
      arguments hne (fun e he _ hs => (harguments e he).render level .assignment hs)
      (s := ')' :: rest)
    rw [← renderArguments_eq_map, ← normalArguments_eq_map] at hlist
    obtain ⟨c, s, hhead, hc⟩ := renderArguments_head level hne harguments
    simp only [hhead, List.cons_append] at hlist ⊢
    simp only [readSuffixes_call _ _ hc]
    exact hlist.bind (.expect [')'] hsuffixes)

theorem reads_member {object : Expr} {property : String}
    (hplain : (Expr.member object property).isPlain = true) (hobject : Reads object) :
    Reads (.member object property) := by
  have hproperty := hplain
  simp only [Expr.isPlain, Bool.and_eq_true] at hproperty
  refine .of_operand hplain rfl fun level rest result hrest hsuffixes => ?_
  have htext : (renderExpr level .primary (.member object property)).toList ++ rest =
      (renderExpr level .primary object).toList ++ '.' :: (property.toList ++ rest) := by
    simp [renderExpr]
  rw [htext]
  refine hobject.operand level _ result (stops_cons.mpr (by decide)) (.succ ?_)
  simp only [readSuffixes]
  refine .bind (.of_eq fun _ => readName_append hproperty.2 hrest) ?_
  simpa only [Expr.normal] using hsuffixes

/-! ## Conditionals -/

theorem reads_conditional {test consequent alternate : Expr}
    (hplain : (Expr.conditional test consequent alternate).isPlain = true) (htest : Reads test)
    (hconsequent : Reads consequent) (halternate : Reads alternate) :
    Reads (.conditional test consequent alternate) := by
  refine .of_whole hplain rfl fun level rest hrest => .succ ?_
  have htext : (renderExpr level .sequence (.conditional test consequent alternate)).toList ++ rest =
      (renderExpr level .primary test).toList ++ ' ' :: '?' :: ' ' ::
        ((renderExpr level .assignment consequent).toList ++ ' ' :: ':' :: ' ' ::
          ((renderExpr level .assignment alternate).toList ++ rest)) := by
    simp [toList_conditional level htest.plain]
  simp only [htext, readExpr, (opens_tight level test htest.plain).readArrowHead, Expr.normal]
  -- no suffix of the test starts with the space before the question mark
  refine (htest.operand level _ (test.normal, _) (stops_cons.mpr (by decide))
    (.succ (.of_eq fun _ => rfl))).bind ?_
  simp only [dropPrefix?, beq_self_eq_true, if_true]
  refine (hconsequent.render level .assignment (.of_space_mem (by decide) _)).bind ?_
  refine .expect [' ', ':', ' '] ?_
  exact (halternate.render level .assignment hrest).bind (.of_eq fun _ => rfl)

/-! ## Arrow functions -/

variable {params : List Param}

theorem readExpr_arrow {t : List Char} {result : Expr × List Char}
    (hhead : Settles (fun n => readArrowHead n s) (params, t))
    (hbody : Settles (fun n => readArrowBody n params t) result) :
    Settles (fun n => readExpr n s) result := by
  refine .succ ?_
  obtain ⟨boundHead, hhead⟩ := hhead
  obtain ⟨boundBody, hbody⟩ := hbody
  refine ⟨max boundHead boundBody, fun n hn => ?_⟩
  simp only [readExpr, hhead n (by omega)]
  exact hbody n (by omega)

theorem eq_object_of_isObject {e : Expr} (h : e.isObject = true) : ∃ properties, e = .object properties := by
  cases e with
  | object properties => exact ⟨properties, rfl⟩
  | embedded | null | str | ident | conditional | call | member | arrow | blockArrow | markup => cases h

variable {result : Expr}

theorem arrowOf_eq_arrow (params : List Param) (hobject : result.isObject = false) :
    arrowOf params result = .arrow params result := by
  cases result with
  | object => cases hobject
  | embedded | null | str | ident | conditional | call | member | arrow | blockArrow | markup => rfl

/-- A body that is no object and opens no block is an expression, though it may start with a
brace. -/
theorem readArrowBody_expr (params : List Param) (hblock : ∀ t, s ≠ '\x7b' :: '\n' :: t)
    (hobject : result.isObject = false) (hread : Settles (fun n => readExpr n s) (result, rest)) :
    Settles (fun n => readArrowBody n params s) (.arrow params result, rest) := by
  refine .succ ?_
  by_cases hbrace : ∃ t, s = '\x7b' :: t
  · obtain ⟨t, rfl⟩ := hbrace
    have hline (u : List Char) : t ≠ '\n' :: u := fun h => hblock u (by rw [h])
    simp only [readArrowBody_brace _ params hline]
    exact hread.bind (.of_eq fun n => by rw [arrowOf_eq_arrow params hobject])
  · simp only [readArrowBody_other _ params (not_exists.mp hbrace)]
    exact hread.bind (.of_eq fun _ => rfl)

/-- An object in parentheses, as the body of an arrow function has it, is read as the object. -/
theorem readExpr_wrappedObject (level : Nat) {properties : List Property}
    (h : Reads (.object properties)) (hrest : Ends rest) :
    Settles (fun n => readExpr n
      ('(' :: ((renderExpr level .assignment (.object properties)).toList ++ ')' :: rest)))
      ((Expr.object properties).normal, rest) := by
  have hatom := readAtom_paren (h.render level .assignment (.of_mem (by decide) rest))
  have hplain : plainProperties properties = true := h.plain
  rw [renderExpr_tight h.plain rfl level .assignment .primary] at hatom ⊢
  exact readExpr_operand (fun n => readArrowHead_object level n hplain hrest.arrow) hrest
    (readOperand_atom hatom (hrest.settles _))

theorem reads_arrow (hplain : (Expr.arrow params result).isPlain = true) (hresult : Reads result) :
    Reads (.arrow params result) := by
  have hparams := hplain
  simp only [Expr.isPlain, Bool.and_eq_true] at hparams
  refine .of_whole hplain rfl fun level rest hrest => ?_
  simp only [Expr.normal]
  cases hobject : result.isObject with
  | true =>
    obtain ⟨properties, rfl⟩ := eq_object_of_isObject hobject
    have htext : (renderExpr level .sequence (.arrow params (.object properties))).toList ++ rest =
        '(' :: ((renderParams params).toList ++ ')' :: ' ' :: '=' :: '>' :: ' ' ::
          '(' :: ((renderExpr level .assignment (.object properties)).toList ++ ')' :: rest)) := by
      simp [toList_arrow, hobject]
    rw [htext]
    refine readExpr_arrow (readArrowHead_params hparams.1 _) (.succ ?_)
    simp only [readArrowBody_other _ params (s := '(' :: _) (by simp)]
    exact (readExpr_wrappedObject level hresult hrest).bind (.of_eq fun _ => rfl)
  | false =>
    have htext : (renderExpr level .sequence (.arrow params result)).toList ++ rest =
        '(' :: ((renderParams params).toList ++ ')' :: ' ' :: '=' :: '>' :: ' ' ::
          ((renderExpr level .assignment result).toList ++ rest)) := by
      simp [toList_arrow, hobject]
    rw [htext]
    exact readExpr_arrow (readArrowHead_params hparams.1 _)
      (readArrowBody_expr params (renderExpr_ne_block level hresult.plain .assignment rest)
        ((isObject_normal result).trans hobject) (hresult.render level .assignment hrest))

/-- The text ends a list of statements: its first line closes the block, or starts a case. -/
def EndsBody (s : List Char) : Prop := ∃ line, readLineBreak s = some line ∧ endsBody line = true

/-- The texts of statements are read back. -/
def ReadsBody (body : List Stmt) : Prop :=
  ∀ level rest, EndsBody rest →
    Settles (fun n => readBody n ((renderStmts level body).toList ++ rest)) (normalBody body, rest)

theorem toList_newLine (level : Nat) : (newLine level).toList = '\n' :: List.replicate (2 * level) ' ' := by
  simp [newLine, indentation]

/-- After a line break comes the text of the line. -/
theorem readLineBreak_newLine (level : Nat) (hs : Stops (· == ' ') s) :
    readLineBreak ((newLine level).toList ++ s) = some s := by
  rw [toList_newLine, List.cons_append, readLineBreak]
  rw [dropWhile_stops (fun c hc => by simp [List.eq_of_mem_replicate hc]) hs]

theorem endsBody_newLine (level : Nat) (rest : List Char) :
    EndsBody ((newLine level).toList ++ '\x7d' :: rest) :=
  ⟨_, readLineBreak_newLine level (stops_cons.mpr (by decide)), rfl⟩

theorem reads_blockArrow {body : List Stmt} (hplain : (Expr.blockArrow params body).isPlain = true)
    (hbody : ReadsBody body) : Reads (.blockArrow params body) := by
  have hparams := hplain
  simp only [Expr.isPlain, Bool.and_eq_true] at hparams
  refine .of_whole hplain rfl fun level rest hrest => ?_
  simp only [Expr.normal]
  cases body with
  | nil =>
    have htext : (renderExpr level .sequence (.blockArrow params [])).toList ++ rest =
        '(' :: ((renderParams params).toList ++ ')' :: ' ' :: '=' :: '>' :: ' ' ::
          '\x7b' :: '\x7d' :: rest) := by
      simp [toList_blockArrow]
    have hobject := (reads_object rfl (by simp) : Reads (.object [])).render 0 .sequence hrest
    rw [htext]
    refine readExpr_arrow (readArrowHead_params hparams.1 _) (.succ ?_)
    simp only [readArrowBody_brace _ params (s := '\x7d' :: rest) (by simp), normalBody]
    simp only [renderExpr, braced, Expr.normal, normalProperties] at hobject
    exact hobject.bind (.of_eq fun _ => rfl)
  | cons stmt more =>
    have htext : (renderExpr level .sequence (.blockArrow params (stmt :: more))).toList ++ rest =
        '(' :: ((renderParams params).toList ++ ')' :: ' ' :: '=' :: '>' :: ' ' ::
          '\x7b' :: ((renderStmts (level + 1) (stmt :: more)).toList ++
            ((newLine level).toList ++ '\x7d' :: rest))) := by
      simp [toList_blockArrow]
    obtain ⟨s, hs⟩ : ∃ s, (renderStmts (level + 1) (stmt :: more)).toList = '\n' :: s :=
      ⟨_, by rw [renderStmts]; simp [toList_newLine]; rfl⟩
    have hread := hbody (level + 1) _ (endsBody_newLine level rest)
    rw [htext]
    refine readExpr_arrow (readArrowHead_params hparams.1 _) (.succ ?_)
    simp only [hs, List.cons_append] at hread ⊢
    simp only [readArrowBody]
    refine hread.bind ?_
    refine .bind (.of_eq fun _ => readLineBreak_newLine level (stops_cons.mpr (by decide))) ?_
    exact .expect ['\x7d'] (.of_eq fun _ => rfl)

/-! ## Markup -/

/-- The text of markup is read back. -/
def ReadsMarkup (m : Markup) : Prop :=
  ∀ level inline rest,
    Settles (fun n => readMarkup n ((renderMarkup level inline m).toList ++ rest)) (m.normal inline, rest)

/-- Markup starts with an opening tag. -/
theorem renderMarkup_head (level : Nat) (inline : Bool) {m : Markup} (hplain : m.isPlain = true) :
    ∃ c s, (renderMarkup level inline m).toList = '<' :: c :: s ∧ c ≠ '/' := by
  cases m with
  | element name attributes children selfClosing =>
    simp only [Markup.isPlain, Bool.and_eq_true] at hplain
    obtain ⟨c, t, hlist, hc⟩ := isName_head hplain.1.1
    exact ⟨c, _, by simp [renderMarkup, hlist]; rfl, hc '/' (by decide)⟩
  | fragment children =>
    simp only [renderMarkup]
    split
    · exact ⟨'>', _, by simp; rfl, by decide⟩
    · exact ⟨'>', _, by simp; rfl, by decide⟩

theorem reads_markup {m : Markup} (hplain : (Expr.markup m).isPlain = true) (hm : ReadsMarkup m) :
    Reads (.markup m) := by
  refine .of_atom hplain rfl fun level rest _ => .succ ?_
  have hread := hm level false rest
  obtain ⟨c, s, hs, _⟩ := renderMarkup_head level false hplain
  simp only [renderExpr, Expr.normal, hs, List.cons_append] at hread ⊢
  simp only [readAtom]
  exact hread.bind (.of_eq fun _ => rfl)

end PugComponents.Jsx
