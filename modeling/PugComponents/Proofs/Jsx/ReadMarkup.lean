import PugComponents.Proofs.Jsx.ReadExpressions

/- Reading back markup. Children stand in a row, or one to a line. In a row, the
   characters up to the next brace or tag are one run of text; on lines, every run
   is a line break with the indentation after it, which is no child. -/
namespace PugComponents.Jsx

open Text

/-! ## Attributes -/

/-- What follows the attributes of an element. -/
def EndsAttributes (s : List Char) : Prop := (∃ t, s = '>' :: t) ∨ ∃ t, s = ' ' :: '/' :: t

/-- The texts of attributes are read back. -/
def ReadsAttributes (attributes : List Attribute) : Prop :=
  ∀ level rest, EndsAttributes rest →
    Settles (fun n => readAttributes n ((renderAttributes level attributes).toList ++ rest))
      (normalAttributes attributes, rest)

/-- After a name in a tag comes a space or the end of the tag. -/
theorem renderAttributes_head (level : Nat) (attributes : List Attribute) {rest : List Char}
    (hrest : EndsAttributes rest) :
    ∃ c t, (renderAttributes level attributes).toList ++ rest = c :: t ∧ (c = ' ' ∨ c = '>') := by
  match attributes with
  | [] =>
    obtain ⟨t, rfl⟩ | ⟨t, rfl⟩ := hrest
    · exact ⟨'>', t, by simp [renderAttributes], by decide⟩
    · exact ⟨' ', '/' :: t, by simp [renderAttributes], by decide⟩
  | .flag name :: more => exact ⟨' ', _, by rw [toList_flag]; rfl, by decide⟩
  | .value name e :: more => exact ⟨' ', _, by rw [toList_value]; rfl, by decide⟩
  | .spread e :: more => exact ⟨' ', _, by rw [toList_spread]; rfl, by decide⟩

variable {name : String} {s : List Char}

theorem readAttributes_flag (n : Nat) (hname : isName name = true) (hs : Stops Char.isAlphanum s)
    (hvalue : dropPrefix? ['=', '\x7b'] s = none) :
    readAttributes (n + 1) (' ' :: (name.toList ++ s)) =
      (readAttributes n s >>= fun x => some (.flag name :: x.1, x.2)) := by
  obtain ⟨c, t, hlist, hc⟩ := isName_head hname
  have hread := readName_append hname hs
  rw [hlist] at hread ⊢
  rw [readAttributes]
  · simp only [hread, hvalue]
  · exact fun _ h => hc '\x7b' (by decide) (List.cons.inj h).1

theorem readAttributes_value (n : Nat) (hname : isName name = true) (s : List Char) :
    readAttributes (n + 1) (' ' :: (name.toList ++ '=' :: '\x7b' :: s)) =
      (readExpr n s >>= fun x => dropPrefix? ['\x7d'] x.2 >>= fun s =>
        readAttributes n s >>= fun y => some (.value name x.1 :: y.1, y.2)) := by
  obtain ⟨c, t, hlist, hc⟩ := isName_head hname
  have hread : readName (name.toList ++ '=' :: '\x7b' :: s) = some (name, '=' :: '\x7b' :: s) :=
    readName_append hname (stops_cons.mpr (by decide))
  rw [hlist] at hread ⊢
  rw [readAttributes]
  · simp only [hread, dropPrefix?, beq_self_eq_true, if_true]
  · exact fun _ h => hc '\x7b' (by decide) (List.cons.inj h).1

theorem readsAttributes_nil : ReadsAttributes [] := by
  intro level rest hrest
  refine .succ (.of_eq fun n => ?_)
  simp only [renderAttributes, normalAttributes]
  obtain ⟨t, rfl⟩ | ⟨t, rfl⟩ := hrest
  · rfl
  · rfl

theorem readsAttributes_flag {more : List Attribute} (hname : isName name = true)
    (hmore : ReadsAttributes more) : ReadsAttributes (.flag name :: more) := by
  intro level rest hrest
  have htext : (renderAttributes level (.flag name :: more)).toList ++ rest =
      ' ' :: (name.toList ++ ((renderAttributes level more).toList ++ rest)) := by
    simp [toList_flag]
  have hnext : Stops Char.isAlphanum ((renderAttributes level more).toList ++ rest) ∧
      dropPrefix? ['=', '\x7b'] ((renderAttributes level more).toList ++ rest) = none := by
    obtain ⟨c, t, hc, rfl | rfl⟩ := renderAttributes_head level more hrest
    · rw [hc]
      exact ⟨stops_cons.mpr (by decide), by simp [dropPrefix?]⟩
    · rw [hc]
      exact ⟨stops_cons.mpr (by decide), by simp [dropPrefix?]⟩
  refine .succ ?_
  simp only [htext, readAttributes_flag _ hname hnext.1 hnext.2, normalAttributes]
  exact (hmore level rest hrest).bind (.of_eq fun _ => rfl)

variable {e : Expr}

theorem readsAttributes_value {more : List Attribute} (hname : isName name = true) (he : Reads e)
    (hmore : ReadsAttributes more) : ReadsAttributes (.value name e :: more) := by
  intro level rest hrest
  have htext : (renderAttributes level (.value name e :: more)).toList ++ rest =
      ' ' :: (name.toList ++ '=' :: '\x7b' :: ((renderExpr level .assignment e).toList ++
        '\x7d' :: ((renderAttributes level more).toList ++ rest))) := by
    simp [toList_value]
  refine .succ ?_
  simp only [htext, readAttributes_value _ hname, normalAttributes]
  refine (he.render level .assignment (.of_mem (by decide) _)).bind (.expect ['\x7d'] ?_)
  exact (hmore level rest hrest).bind (.of_eq fun _ => rfl)

theorem readsAttributes_spread {more : List Attribute} (he : Reads e) (hmore : ReadsAttributes more) :
    ReadsAttributes (.spread e :: more) := by
  intro level rest hrest
  have htext : (renderAttributes level (.spread e :: more)).toList ++ rest =
      ' ' :: '\x7b' :: '.' :: '.' :: '.' :: ((renderExpr level .assignment e).toList ++
        '\x7d' :: ((renderAttributes level more).toList ++ rest)) := by
    simp [toList_spread]
  refine .succ ?_
  rw [htext]
  simp only [readAttributes_brace, normalAttributes]
  refine .expect ['.', '.', '.'] ?_
  refine (he.render level .assignment (.of_mem (by decide) _)).bind (.expect ['\x7d'] ?_)
  exact (hmore level rest hrest).bind (.of_eq fun _ => rfl)

/-! ## Runs of text -/

variable {more : List Child}

section

variable {run : List Char} (hrun : ∀ c ∈ run, isRunChar c = true)

include hrun

theorem readChildren_close (n : Nat) (rest : List Char) :
    readChildren (n + 1) (run ++ '<' :: '/' :: rest) = some (keptRun run, '<' :: '/' :: rest) := by
  have hstop : Stops isRunChar ('<' :: '/' :: rest) := stops_cons.mpr (by decide)
  exact readChildren_closed n (takeWhile_stops hrun hstop) (dropWhile_stops hrun hstop)

theorem readChildren_markup {c : Char} (hc : c ≠ '/') {t u : List Char} {m : Markup}
    (hm : Settles (fun n => readMarkup n ('<' :: c :: s)) (m, t))
    (hmore : Settles (fun n => readChildren n t) (more, u)) :
    Settles (fun n => readChildren n (run ++ '<' :: c :: s)) (keptRun run ++ .markup m :: more, u) := by
  refine .succ ?_
  have hstop : Stops isRunChar ('<' :: c :: s) := stops_cons.mpr (by decide)
  have hopen (n : Nat) : readChildren (n + 1) (run ++ '<' :: c :: s) =
      (readMarkup n ('<' :: c :: s) >>= fun x => readChildren n x.2 >>= fun y =>
        some (keptRun run ++ .markup x.1 :: y.1, y.2)) := by
    rw [readChildren, takeWhile_stops hrun hstop, dropWhile_stops hrun hstop]
    simp only
    split
    · rename_i heq
      exact absurd (List.cons.inj (List.cons.inj heq).2).1 hc
    · rename_i heq
      rw [← (List.cons.inj heq).2]
    · rename_i heq
      exact absurd (List.cons.inj heq).1 (by decide)
    · rename_i hne _
      exact absurd rfl (hne (c :: s))
  simp only [hopen]
  exact hm.bind (hmore.bind (.of_eq fun _ => rfl))

theorem readChildren_container {t u : List Char}
    (he : Settles (fun n => readExpr n s) (e, '\x7d' :: t))
    (hmore : Settles (fun n => readChildren n t) (more, u)) :
    Settles (fun n => readChildren n (run ++ '\x7b' :: s)) (keptRun run ++ .container e :: more, u) := by
  refine .succ ?_
  have hstop : Stops isRunChar ('\x7b' :: s) := stops_cons.mpr (by decide)
  simp only [readChildren, takeWhile_stops hrun hstop, dropWhile_stops hrun hstop]
  exact he.bind (.expect ['\x7d'] (hmore.bind (.of_eq fun _ => rfl)))

end

/-- A line break between children is no child. -/
theorem newLine_isRun (level : Nat) :
    (∀ c ∈ (newLine level).toList, isRunChar c = true) ∧ keptRun (newLine level).toList = [] := by
  have hchars : ∀ c ∈ (newLine level).toList, c = '\n' ∨ c = ' ' := by
    intro c hc
    rw [toList_newLine] at hc
    rcases List.mem_cons.mp hc with hc | hc
    · exact .inl hc
    · exact .inr (List.eq_of_mem_replicate hc)
  have hblank : isBlank (newLine level).toList = true := by
    refine List.all_eq_true.mpr fun c hc => ?_
    rcases hchars c hc with rfl | rfl <;> decide
  refine ⟨fun c hc => ?_, ?_⟩
  · rcases hchars c hc with rfl | rfl <;> decide
  · rw [toList_newLine] at hblank ⊢
    simp [keptRun, hblank]

/-! ## Children -/

/-- Children are read back where they stand in a row, after the start of a run, and where they
stand one to a line. -/
structure ReadsChildren (children : List Child) : Prop where
  row (level : Nat) (run rest : List Char) : (∀ c ∈ run, isRunChar c = true) →
    Settles (fun n => readChildren n (run ++ ((renderRun level children).toList ++ '<' :: '/' :: rest)))
      (normalRun run children, '<' :: '/' :: rest)
  lines (level closing : Nat) (rest : List Char) : children.any Child.isWords = false →
    Settles (fun n => readChildren n
      ((renderLines level children).toList ++ ((newLine closing).toList ++ '<' :: '/' :: rest)))
      (normalLines children, '<' :: '/' :: rest)

theorem readsChildren_nil : ReadsChildren [] where
  row level run rest hrun := by
    refine .succ (.of_eq fun n => ?_)
    simp only [renderRun, normalRun]
    exact readChildren_close hrun n rest
  lines level closing rest _ := by
    obtain ⟨hchars, hkept⟩ := newLine_isRun closing
    refine .succ (.of_eq fun n => ?_)
    simp only [renderLines, normalLines]
    exact (readChildren_close hchars n rest).trans (by rw [hkept])

theorem isRunChar_of_not_needsBraces {value : String} (h : needsBraces value = false) :
    ∀ c ∈ value.toList, isRunChar c = true := by
  intro c hc
  have hbrace := List.any_eq_false.mp h c hc
  simp only [Bool.or_eq_true, beq_iff_eq, not_or] at hbrace
  simp [isRunChar, hbrace.1.1.1, hbrace.1.2]

theorem readsChildren_text (value : String) (hmore : ReadsChildren more) :
    ReadsChildren (.text value :: more) where
  row level run rest hrun := by
    simp only [normalRun]
    cases hbraces : needsBraces value with
    | true =>
      have htext : run ++ ((renderRun level (.text value :: more)).toList ++ '<' :: '/' :: rest) =
          run ++ '\x7b' :: ((renderExpr level .assignment (.str value)).toList ++
            '\x7d' :: ((renderRun level more).toList ++ '<' :: '/' :: rest)) := by
        rw [needsBraces] at hbraces
        simp [renderRun, renderChild, renderText, hbraces, braced, renderExpr]
      rw [htext, if_pos rfl]
      exact readChildren_container hrun
        ((reads_str value).render level .assignment (.of_mem (by decide) _))
        (hmore.row level [] rest (by simp))
    | false =>
      have htext : run ++ ((renderRun level (.text value :: more)).toList ++ '<' :: '/' :: rest) =
          (run ++ value.toList) ++ ((renderRun level more).toList ++ '<' :: '/' :: rest) := by
        rw [needsBraces] at hbraces
        simp [renderRun, renderChild, renderText, hbraces]
      -- the text joins the run before it
      rw [htext, if_neg (by decide)]
      refine hmore.row level _ rest fun c hc => ?_
      rcases List.mem_append.mp hc with hc | hc
      · exact hrun c hc
      · exact isRunChar_of_not_needsBraces hbraces c hc
  lines level closing rest hwords := by
    -- among lines there are no words: the text is blank, and left out
    simp only [List.any_cons, Bool.or_eq_false_iff, Child.isWords, Bool.not_eq_false'] at hwords
    simp only [renderLines, Child.isBlankText, normalLines, hwords.1, if_true]
    exact hmore.lines level closing rest hwords.2

theorem readsChildren_container (he : Reads e) (hmore : ReadsChildren more) :
    ReadsChildren (.container e :: more) where
  row level run rest hrun := by
    have htext : run ++ ((renderRun level (.container e :: more)).toList ++ '<' :: '/' :: rest) =
        run ++ '\x7b' :: ((renderExpr level .assignment e).toList ++
          '\x7d' :: ((renderRun level more).toList ++ '<' :: '/' :: rest)) := by
      simp [renderRun, renderChild, braced]
    simp only [htext, normalRun_container]
    exact readChildren_container hrun (he.render level .assignment (.of_mem (by decide) _))
      (hmore.row level [] rest (by simp))
  lines level closing rest hwords := by
    simp only [List.any_cons, Bool.or_eq_false_iff] at hwords
    have htext : (renderLines level (.container e :: more)).toList ++
        ((newLine closing).toList ++ '<' :: '/' :: rest) =
        (newLine level).toList ++ '\x7b' :: ((renderExpr level .assignment e).toList ++ '\x7d' ::
          ((renderLines level more).toList ++ ((newLine closing).toList ++ '<' :: '/' :: rest))) := by
      simp [renderLines, Child.isBlankText, renderChild, braced]
    obtain ⟨hchars, hkept⟩ := newLine_isRun level
    have hread := readChildren_container hchars (he.render level .assignment (.of_mem (by decide) _))
      (hmore.lines level closing rest hwords.2)
    rw [hkept, List.nil_append] at hread
    simp only [htext, normalLines_container]
    exact hread

theorem readsChildren_markup {m : Markup} (hplain : m.isPlain = true) (hm : ReadsMarkup m)
    (hmore : ReadsChildren more) : ReadsChildren (.markup m :: more) where
  row level run rest hrun := by
    have htext : run ++ ((renderRun level (.markup m :: more)).toList ++ '<' :: '/' :: rest) =
        run ++ ((renderMarkup level true m).toList ++
          ((renderRun level more).toList ++ '<' :: '/' :: rest)) := by
      simp [renderRun, renderChild]
    have hread := hm level true ((renderRun level more).toList ++ '<' :: '/' :: rest)
    obtain ⟨c, s, hs, hc⟩ := renderMarkup_head level true hplain
    simp only [htext, normalRun, hs] at hread ⊢
    exact readChildren_markup hrun hc hread (hmore.row level [] rest (by simp))
  lines level closing rest hwords := by
    simp only [List.any_cons, Bool.or_eq_false_iff] at hwords
    have htext : (renderLines level (.markup m :: more)).toList ++
        ((newLine closing).toList ++ '<' :: '/' :: rest) =
        (newLine level).toList ++ ((renderMarkup level false m).toList ++
          ((renderLines level more).toList ++ ((newLine closing).toList ++ '<' :: '/' :: rest))) := by
      simp [renderLines, Child.isBlankText, renderChild]
    have hm' := hm level false
      ((renderLines level more).toList ++ ((newLine closing).toList ++ '<' :: '/' :: rest))
    obtain ⟨c, s, hs, hc⟩ := renderMarkup_head level false hplain
    obtain ⟨hchars, hkept⟩ := newLine_isRun level
    rw [hs] at hm'
    have hread := readChildren_markup hchars hc hm' (hmore.lines level closing rest hwords.2)
    rw [hkept, List.nil_append] at hread
    simp only [htext, normalLines, hs]
    exact hread

variable {children : List Child}

theorem ReadsChildren.render (h : ReadsChildren children) (level : Nat) (inline : Bool)
    (rest : List Char) :
    Settles (fun n => readChildren n ((renderChildren level inline children).toList ++ '<' :: '/' :: rest))
      (normalChildren inline children, '<' :: '/' :: rest) := by
  unfold renderChildren normalChildren
  split
  · rename_i hblock
    simp only [isBlockLayout, Bool.and_eq_true, Bool.not_eq_true'] at hblock
    rw [String.toList_append, List.append_assoc]
    exact h.lines (level + 1) level rest hblock.2.2
  · exact h.row level [] rest (by simp)

/-! ## Elements and fragments -/

theorem readMarkup_element (n : Nat) (hname : isName name = true) (hs : Stops Char.isAlphanum s) :
    readMarkup (n + 1) ('<' :: (name.toList ++ s)) = (readAttributes n s >>= fun x =>
      match dropPrefix? [' ', '/', '>'] x.2 with
      | some s => some (.element name x.1 [] true, s)
      | none => dropPrefix? ['>'] x.2 >>= fun s => readChildren n s >>= fun y =>
        dropPrefix? ('<' :: '/' :: name.toList ++ ['>']) y.2 >>= fun s =>
          some (.element name x.1 y.1 false, s)) := by
  obtain ⟨c, t, hlist, hc⟩ := isName_head hname
  have hread := readName_append hname hs
  have htext : name.toList ++ s = c :: (t ++ s) := by rw [hlist, List.cons_append]
  rw [htext] at hread ⊢
  rw [readMarkup]
  · simp only [hread]
    rfl
  · exact fun _ h => hc '>' (by decide) (List.cons.inj h).1

theorem readsMarkup_element {attributes : List Attribute} (selfClosing : Bool)
    (hname : isName name = true) (hattributes : ReadsAttributes attributes)
    (hchildren : ReadsChildren children) :
    ReadsMarkup (.element name attributes children selfClosing) := by
  intro level inline rest
  have hnext {s : List Char} (hs : EndsAttributes s) :
      Stops Char.isAlphanum ((renderAttributes level attributes).toList ++ s) := by
    obtain ⟨c, t, hc, rfl | rfl⟩ := renderAttributes_head level attributes hs
    · exact hc ▸ stops_cons.mpr (by decide)
    · exact hc ▸ stops_cons.mpr (by decide)
  refine .succ ?_
  cases hempty : selfClosing && children.isEmpty with
  | true =>
    have htext : (renderMarkup level inline (.element name attributes children selfClosing)).toList ++ rest =
        '<' :: (name.toList ++ ((renderAttributes level attributes).toList ++
          ' ' :: '/' :: '>' :: rest)) := by
      simp [renderMarkup_element, hempty]
    have hends : EndsAttributes (' ' :: '/' :: '>' :: rest) := .inr ⟨_, rfl⟩
    simp only [htext, readMarkup_element _ hname (hnext hends)]
    refine (hattributes level _ hends).bind (.of_eq fun n => ?_)
    obtain ⟨rfl, hnil⟩ := Bool.and_eq_true_iff.mp hempty
    obtain rfl := List.isEmpty_iff.mp hnil
    simp [dropPrefix?, Markup.normal, isBlockLayout, normalRun, keptRun]
  | false =>
    have htext : (renderMarkup level inline (.element name attributes children selfClosing)).toList ++ rest =
        '<' :: (name.toList ++ ((renderAttributes level attributes).toList ++ '>' ::
          ((renderChildren level inline children).toList ++ '<' :: '/' :: (name.toList ++ '>' :: rest)))) := by
      simp [renderMarkup_element, hempty]
    have hends (s : List Char) : EndsAttributes ('>' :: s) := .inl ⟨s, rfl⟩
    simp only [htext, readMarkup_element _ hname (hnext (hends _))]
    refine (hattributes level _ (hends _)).bind ?_
    have hclosing : dropPrefix? [' ', '/', '>'] ('>' :: ((renderChildren level inline children).toList ++
        '<' :: '/' :: (name.toList ++ '>' :: rest))) = none := by simp [dropPrefix?]
    simp only [hclosing, Markup.normal, hempty]
    refine .expect ['>'] ((hchildren.render level inline _).bind ?_)
    have htag : '<' :: '/' :: (name.toList ++ '>' :: rest) =
        ('<' :: '/' :: name.toList ++ ['>']) ++ rest := by simp
    simp only [htag]
    exact .expect _ (.of_eq fun _ => rfl)

theorem readsMarkup_fragment (hchildren : ReadsChildren children) :
    ReadsMarkup (.fragment children) := by
  intro level inline rest
  have htext : (renderMarkup level inline (.fragment children)).toList ++ rest =
      '<' :: '>' :: ((renderChildren level inline children).toList ++ '<' :: '/' :: '>' :: rest) := by
    simp [renderMarkup_fragment]
  refine .succ ?_
  rw [htext]
  simp only [readMarkup, normal_fragment]
  refine (hchildren.render level inline _).bind ?_
  exact .expect ['<', '/', '>'] (.of_eq fun _ => rfl)

end PugComponents.Jsx
