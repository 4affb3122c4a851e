import PugComponents.Proofs.Jsx.Leaves

/- How the text of an expression starts, and what tells an arrow function from the
   other expressions. A list of parameters looks like an expression in
   parentheses, or like an object, for as long as only names have been read. What
   follows the names decides: after a parameter comes a comma, a closing brace or
   `) =>`, and never a member, a call or a question mark. -/
namespace PugComponents.Jsx

open Text
open Script (Strength)

/-! ## Tight and loose expressions -/

/-- An expression that stands in parentheses where an operand is required. -/
def Expr.isLoose : Expr → Bool
  | .conditional _ _ _ | .arrow _ _ | .blockArrow _ _ => true
  | _ => false

theorem renderExpr_tight {e : Expr} (hplain : e.isPlain = true) (htight : e.isLoose = false)
    (level : Nat) (required required' : Strength) :
    renderExpr level required e = renderExpr level required' e := by
  cases e with
  | embedded e => cases hplain
  | conditional | arrow | blockArrow => cases htight
  | null | str | ident | object | call | member | markup => simp only [renderExpr]

theorem renderExpr_loose {e : Expr} (hloose : e.isLoose = true) (level : Nat) :
    renderExpr level .primary e = "(" ++ renderExpr level .sequence e ++ ")" := by
  cases e with
  | conditional | arrow | blockArrow => simp only [renderExpr]; rfl
  | embedded | null | str | ident | object | call | member | markup => cases hloose

/-- Every place asks for one of two texts. -/
theorem renderExpr_cases {e : Expr} (hplain : e.isPlain = true) (level : Nat) (required : Strength) :
    renderExpr level required e = renderExpr level .primary e ∨
      renderExpr level required e = renderExpr level .sequence e := by
  cases hloose : e.isLoose with
  | false => exact .inl (renderExpr_tight hplain hloose level required .primary)
  | true =>
    cases e with
    | conditional | arrow | blockArrow =>
      simp only [renderExpr]
      cases required with
      | sequence | assignment | conditional => first | exact .inr rfl | exact .inl rfl
      | binary | unary | primary => exact .inl rfl
    | embedded | null | str | ident | object | call | member | markup => cases hloose

theorem renderExpr_binary {e : Expr} (hplain : e.isPlain = true) (level : Nat) :
    renderExpr level .binary e = renderExpr level .primary e := by
  cases e with
  | embedded e => cases hplain
  | conditional | arrow | blockArrow => simp only [renderExpr]; rfl
  | null | str | ident | object | call | member | markup => simp only [renderExpr]

theorem toList_conditional (level : Nat) {test : Expr} (hplain : test.isPlain = true)
    (consequent alternate : Expr) :
    (renderExpr level .sequence (.conditional test consequent alternate)).toList =
      (renderExpr level .primary test).toList ++ ' ' :: '?' :: ' ' ::
        ((renderExpr level .assignment consequent).toList ++ ' ' :: ':' :: ' ' ::
          (renderExpr level .assignment alternate).toList) := by
  rw [← renderExpr_binary hplain]
  simp [renderExpr, wrap_sequence]

/-! ## The first characters -/

/-- What can follow a name at the front of an expression: a member, a call or a question mark. -/
def Continues (s : List Char) : Prop :=
  (∃ t, s = '.' :: t) ∨ (∃ t, s = '(' :: t) ∨ ∃ t, s = ' ' :: '?' :: t

variable {s : List Char}

theorem Continues.append (h : Continues s) (rest : List Char) : Continues (s ++ rest) := by
  obtain ⟨t, rfl⟩ | ⟨t, rfl⟩ | ⟨t, rfl⟩ := h
  · exact .inl ⟨t ++ rest, rfl⟩
  · exact .inr (.inl ⟨t ++ rest, rfl⟩)
  · exact .inr (.inr ⟨t ++ rest, rfl⟩)

theorem Continues.stops (h : Continues s) : Stops Char.isAlphanum s := by
  obtain ⟨t, rfl⟩ | ⟨t, rfl⟩ | ⟨t, rfl⟩ := h <;> exact stops_cons.mpr (by decide)

variable {rest : List Char}

/-- An atom that ends, or continues, before a text that ends names. -/
theorem Continues.or_rest (hs : s = [] ∨ Continues s) (hrest : Stops Char.isAlphanum rest) :
    Stops Char.isAlphanum (s ++ rest) ∧ (s ++ rest = rest ∨ Continues (s ++ rest)) := by
  obtain rfl | hs := hs
  · exact ⟨hrest, .inl rfl⟩
  · have hcontinues := hs.append rest
    exact ⟨hcontinues.stops, .inr hcontinues⟩

/-- Nothing that comes after a parameter or a binding continues an expression. -/
theorem Continues.dropPrefix? (h : Continues s) :
    dropPrefix? [',', ' '] s = none ∧ dropPrefix? [' ', '\x7d'] s = none ∧
      dropPrefix? [')', ' ', '=', '>', ' '] s = none := by
  obtain ⟨t, rfl⟩ | ⟨t, rfl⟩ | ⟨t, rfl⟩ := h <;> simp [Text.dropPrefix?]

/-- The fronts of expressions, an atom each, with what continues it. -/
inductive Opens : List Char → Prop
  | quote (s : List Char) : Opens ('"' :: s)
  | tag (s : List Char) : Opens ('<' :: s)
  | name {name : String} (hname : isName name = true) {s : List Char} (hs : s = [] ∨ Continues s) :
    Opens (name.toList ++ s)
  | object (level : Nat) {properties : List Property} (hplain : plainProperties properties = true)
    {s : List Char} (hs : s = [] ∨ Continues s) :
    Opens ((renderExpr level .primary (.object properties)).toList ++ s)
  | wrapped (level : Nat) {e : Expr} (hplain : e.isPlain = true) (hloose : e.isLoose = true)
    (s : List Char) : Opens ('(' :: ((renderExpr level .sequence e).toList ++ ')' :: s))

namespace Opens

theorem append (h : Opens s) (hrest : Continues rest) : Opens (s ++ rest) := by
  have hcontinues {t : List Char} (ht : t = [] ∨ Continues t) : Continues (t ++ rest) := by
    obtain htrest | ht := (Continues.or_rest ht hrest.stops).2
    · rwa [htrest]
    · exact ht
  cases h with
  | quote s => exact .quote (s ++ rest)
  | tag s => exact .tag (s ++ rest)
  | name hname hs =>
    rw [List.append_assoc]
    exact .name hname (.inr (hcontinues hs))
  | object level hplain hs =>
    rw [List.append_assoc]
    exact .object level hplain (.inr (hcontinues hs))
  | wrapped level hplain hloose s =>
    rw [List.cons_append, List.append_assoc, List.cons_append]
    exact .wrapped level hplain hloose (s ++ rest)

theorem word {word : String} (h : isName word = true) : Opens word.toList := by
  have hopens := Opens.name (s := []) h (.inl rfl)
  rwa [List.append_nil] at hopens

end Opens

theorem opens_loose (level : Nat) {e : Expr} (hplain : e.isPlain = true) (hloose : e.isLoose = true) :
    Opens (renderExpr level .primary e).toList := by
  have htext : (renderExpr level .primary e).toList =
      '(' :: ((renderExpr level .sequence e).toList ++ [')']) := by
    simp [renderExpr_loose hloose]
  rw [htext]
  exact .wrapped level hplain hloose []

/-- An operand starts with an atom. -/
theorem opens_tight (level : Nat) : ∀ e : Expr, e.isPlain = true →
    Opens (renderExpr level .primary e).toList
  | .embedded _, hplain => nomatch hplain
  | .null, _ => by
    simp only [renderExpr]
    exact .word (by decide)
  | .str value, _ => by
    simp only [renderExpr, toList_quoted]
    exact .quote _
  | .ident name, hplain => by
    simp only [Expr.isPlain, Bool.and_eq_true] at hplain
    simp only [renderExpr]
    exact .word hplain.1
  | .object properties, hplain => by
    have hopens := Opens.object (s := []) level hplain (.inl rfl)
    rwa [List.append_nil] at hopens
  -- the recursion follows the front of the text, through callees and objects of members
  | .call callee arguments, hplain => by
    simp only [Expr.isPlain, Bool.and_eq_true] at hplain
    simp only [renderExpr, String.toList_append, List.append_assoc]
    exact (opens_tight level callee hplain.1).append (.inr (.inl ⟨_, rfl⟩))
  | .member object property, hplain => by
    simp only [Expr.isPlain, Bool.and_eq_true] at hplain
    simp only [renderExpr, String.toList_append, List.append_assoc]
    exact (opens_tight level object hplain.1).append (.inl ⟨_, rfl⟩)
  | .markup (.element name attributes children selfClosing), _ => by
    simp only [renderExpr, renderMarkup, String.toList_append]
    exact .tag _
  | .markup (.fragment children), _ => by
    simp only [renderExpr, renderMarkup]
    split
    · simp only [String.toList_append]
      exact .tag _
    · simp only [String.toList_append]
      exact .tag _
  | .conditional _ _ _, hplain | .arrow _ _, hplain | .blockArrow _ _, hplain =>
    opens_loose level hplain rfl

/-- A conditional starts with its test. -/
theorem opens_conditional (level : Nat) {test : Expr} (hplain : test.isPlain = true) (s : List Char) :
    Opens ((renderExpr level .primary test).toList ++ ' ' :: '?' :: s) :=
  (opens_tight level test hplain).append (.inr (.inr ⟨s, rfl⟩))

/-- The text of an expression starts with an atom, or it is that of an arrow function. -/
theorem opens_or_paren (level : Nat) {e : Expr} (hplain : e.isPlain = true) (required : Strength) :
    Opens (renderExpr level required e).toList ∨
      ∃ s, (renderExpr level required e).toList = '(' :: s := by
  rcases renderExpr_cases hplain level required with htext | htext
  · rw [htext]
    exact .inl (opens_tight level e hplain)
  · rw [htext]
    cases hloose : e.isLoose with
    | false =>
      rw [renderExpr_tight hplain hloose level .sequence .primary]
      exact .inl (opens_tight level e hplain)
    | true =>
      cases e with
      | conditional test consequent alternate =>
        simp only [Expr.isPlain, Bool.and_eq_true] at hplain
        left
        rw [toList_conditional level hplain.1.1]
        exact opens_conditional level hplain.1.1 _
      | arrow params result => exact .inr ⟨_, toList_arrow level params result⟩
      | blockArrow params body => exact .inr ⟨_, toList_blockArrow level params body⟩
      | embedded | null | str | ident | object | call | member | markup => cases hloose

theorem renderExpr_object_head (level : Nat) (properties : List Property) :
    ∃ c s, (renderExpr level .primary (.object properties)).toList = '\x7b' :: c :: s ∧ c ≠ '\n' := by
  cases properties with
  | nil => exact ⟨'\x7d', [], by simp [renderExpr, braced], by decide⟩
  | cons p ps => exact ⟨' ', _, by simp [renderExpr, braced]; rfl, by decide⟩

/-- No operand starts with a space, a question mark, or what closes a list, an object or a block. -/
theorem Opens.head (h : Opens s) :
    ∃ c t, s = c :: t ∧ c ≠ ' ' ∧ c ≠ ')' ∧ c ≠ '\x7d' ∧ c ≠ '?' := by
  cases h with
  | quote s | tag s => exact ⟨_, s, rfl, by decide⟩
  | @name name hname s hs =>
    obtain ⟨c, t, hlist, hc⟩ := isName_head hname
    exact ⟨c, t ++ s, by rw [hlist, List.cons_append], hc ' ' (by decide), hc ')' (by decide),
      hc '\x7d' (by decide), hc '?' (by decide)⟩
  | @object level properties hplain s hs =>
    obtain ⟨c, t, htext, _⟩ := renderExpr_object_head level properties
    rw [htext]
    exact ⟨_, _, rfl, by decide⟩
  | wrapped level hplain hloose s => exact ⟨_, _, rfl, by decide⟩

/-- No operand starts like the body of a block. -/
theorem Opens.ne_block (h : Opens s) (rest t : List Char) : s ++ rest ≠ '\x7b' :: '\n' :: t := by
  intro hs
  cases h with
  | quote | tag | wrapped => simp at hs
  | name hname _ =>
    obtain ⟨c, u, hlist, hc⟩ := isName_head hname
    rw [hlist] at hs
    exact hc '\x7b' (by decide) (List.cons.inj hs).1
  | @object level properties _ _ _ =>
    obtain ⟨c, u, htext, hc⟩ := renderExpr_object_head level properties
    rw [htext] at hs
    simp only [List.cons_append, List.cons.injEq, true_and] at hs
    exact hc hs.1

variable {word : String} {t : List Char}

/-- After the first word of an operand the operand ends, or it continues. -/
theorem Opens.readName (h : Opens s) (hrest : Stops Char.isAlphanum rest)
    (hread : readName (s ++ rest) = some (word, t)) : t = rest ∨ Continues t := by
  cases h with
  | quote | tag | wrapped =>
    rw [List.cons_append, readName_none (by decide)] at hread
    cases hread
  | @object level properties _ _ _ =>
    obtain ⟨c, u, htext, hc⟩ := renderExpr_object_head level properties
    rw [htext, List.cons_append, List.cons_append, readName_none (by decide)] at hread
    cases hread
  | name hname hs =>
    obtain ⟨hstops, hnext⟩ := Continues.or_rest hs hrest
    rw [List.append_assoc, readName_append hname hstops] at hread
    cases hread
    exact hnext

/-! ## Any text of an expression -/

section

variable (level : Nat) {e : Expr} (hplain : e.isPlain = true) (required : Strength)

include hplain

theorem renderExpr_head :
    ∃ c t, (renderExpr level required e).toList = c :: t ∧ c ≠ ' ' ∧ c ≠ ')' ∧ c ≠ '\x7d' ∧ c ≠ '?' := by
  rcases opens_or_paren level hplain required with hopens | ⟨s, hs⟩
  · exact hopens.head
  · exact ⟨'(', s, hs, by decide⟩

theorem renderExpr_ne_block (rest t : List Char) :
    (renderExpr level required e).toList ++ rest ≠ '\x7b' :: '\n' :: t := by
  rcases opens_or_paren level hplain required with hopens | ⟨s, hs⟩
  · exact hopens.ne_block rest t
  · simp [hs]

theorem readName_renderExpr (hrest : Stops Char.isAlphanum rest)
    (hread : readName ((renderExpr level required e).toList ++ rest) = some (word, t)) :
    t = rest ∨ Continues t := by
  rcases opens_or_paren level hplain required with hopens | ⟨s, hs⟩
  · exact hopens.readName hrest hread
  · rw [hs, List.cons_append, readName_none (by decide)] at hread
    cases hread

end

/-! ## Arrow functions and other expressions -/

/-- The text of a property. -/
def Property.render (level : Nat) : Property → String
  | .mk key value => propertyKey key ++ ": " ++ renderExpr level .assignment value

/-- The value of a property. -/
def Property.value : Property → Expr
  | .mk _ value => value

theorem renderProperties_eq_map (level : Nat) : ∀ properties : List Property,
    renderProperties level properties = properties.map (Property.render level)
  | [] => by simp only [renderProperties, List.map_nil]
  | .mk key value :: more => by
    simp only [renderProperties, List.map_cons, Property.render, renderProperties_eq_map level more]

theorem isPlain_value_of_mem : ∀ {properties : List Property}, plainProperties properties = true →
    ∀ p ∈ properties, p.value.isPlain = true
  | .mk key value :: more, hplain, p, hp => by
    rw [plainProperties, Bool.and_eq_true] at hplain
    cases hp with
    | head => exact hplain.1
    | tail _ hp => exact isPlain_value_of_mem hplain.2 p hp

theorem readKey_property (level : Nat) (key : String) (value : Expr) (rest : List Char) :
    readKey (((Property.mk key value).render level).toList ++ rest) =
      some (key, ':' :: ' ' :: ((renderExpr level .assignment value).toList ++ rest)) := by
  have htext : ((Property.mk key value).render level).toList ++ rest = (propertyKey key).toList ++
      ':' :: ' ' :: ((renderExpr level .assignment value).toList ++ rest) := by
    simp [Property.render]
  rw [htext]
  exact readKey_propertyKey key (stops_cons.mpr (by decide))

/-- Where a property is read as a binding, what is left follows the property, or continues its
value. -/
theorem readBinding_property (level : Nat) {p : Property} (hplain : p.value.isPlain = true)
    (hrest : Stops Char.isAlphanum rest) {b : String × String}
    (hread : readBinding ((p.render level).toList ++ rest) = some (b, t)) :
    t = rest ∨ Continues t := by
  obtain ⟨key, value⟩ := p
  simp only [readBinding, readKey_property, bind, Option.bind, Text.dropPrefix?, beq_self_eq_true,
    if_true] at hread
  cases hname : readName ((renderExpr level .assignment value).toList ++ rest) with
  | none => simp [hname] at hread
  | some word =>
    simp only [hname, Option.some.injEq, Prod.mk.injEq] at hread
    rw [← hread.2]
    exact readName_renderExpr level hplain .assignment hrest hname

/-- Where an object is read as a pattern, what is left closes the object, or continues a value. -/
theorem readSeparated_properties (level : Nat) (rest : List Char) : ∀ (properties : List Property)
    (n : Nat) (bindings : List (String × String)) (t : List Char),
    (∀ p ∈ properties, p.value.isPlain = true) → properties ≠ [] →
    readSeparated readBinding n ((joinWith ", " (properties.map (Property.render level))).toList ++
      ' ' :: '\x7d' :: rest) = some (bindings, t) →
    t = ' ' :: '\x7d' :: rest ∨ Continues t
  | _, 0, _, _, _, _, hread => nomatch hread
  | [], _, _, _, _, hne, _ => absurd rfl hne
  | [p], n + 1, bindings, t, hplain, _, hread => by
    simp only [List.map_cons, List.map_nil, joinWith] at hread
    obtain ⟨⟨b, u⟩, hb, hread⟩ := Option.bind_eq_some_iff.mp hread
    have hu := readBinding_property level (hplain p List.mem_cons_self) (stops_cons.mpr (by decide)) hb
    have hlast : dropPrefix? [',', ' '] u = none := by
      obtain rfl | hu := hu
      · simp [Text.dropPrefix?]
      · exact hu.dropPrefix?.1
    simp only [hlast, Option.some.injEq, Prod.mk.injEq] at hread
    rwa [← hread.2]
  | p :: q :: more, n + 1, bindings, t, hplain, _, hread => by
    simp only [List.map_cons, toList_joinWith_cons, List.append_assoc, List.cons_append] at hread
    obtain ⟨⟨b, u⟩, hb, hread⟩ := Option.bind_eq_some_iff.mp hread
    rcases readBinding_property level (hplain p List.mem_cons_self) (stops_cons.mpr (by decide)) hb with
      rfl | hu
    · simp only [Text.dropPrefix?, beq_self_eq_true, if_true] at hread
      obtain ⟨⟨bs, u⟩, hbs, hread⟩ := Option.bind_eq_some_iff.mp hread
      simp only [Option.some.injEq, Prod.mk.injEq] at hread
      rw [← hread.2]
      exact readSeparated_properties level rest (q :: more) n bs u
        (fun r hr => hplain r (List.mem_cons_of_mem p hr)) (by simp) hbs
    -- a value that goes on ends the list of bindings early
    · simp only [hu.dropPrefix?.1, Option.some.injEq, Prod.mk.injEq] at hread
      rw [← hread.2]
      exact .inr hu

variable {properties : List Property}

theorem toList_object (level : Nat) (hne : properties ≠ []) :
    (renderExpr level .primary (.object properties)).toList = '\x7b' :: ' ' ::
      ((joinWith ", " (properties.map (Property.render level))).toList ++ [' ', '\x7d']) := by
  simp [renderExpr, braced, hne, renderProperties_eq_map]

theorem properties_head (level : Nat) (hne : properties ≠ []) :
    ∃ c t, (joinWith ", " (properties.map (Property.render level))).toList = c :: t ∧ c ≠ ' ' := by
  match properties, hne with
  | .mk key value :: more, _ =>
    obtain ⟨t, hjoin⟩ :=
      toList_joinWith_head ((Property.mk key value).render level) (more.map (Property.render level))
    obtain ⟨c, u, hkey, hc⟩ := propertyKey_head key
    exact ⟨c, _, by rw [List.map_cons, hjoin]; simp [Property.render, hkey]; rfl, hc⟩

theorem readParam_object (level n : Nat) (hplain : plainProperties properties = true)
    (rest : List Char) {p : Param}
    (hread : readParam n ((renderExpr level .primary (.object properties)).toList ++ rest) = some (p, t)) :
    t = rest := by
  by_cases hne : properties = []
  · subst hne
    have hnone : readParam n ('\x7b' :: '\x7d' :: rest) = none := rfl
    simp [renderExpr, braced, hnone] at hread
  · obtain ⟨c, u, htext, hc⟩ := properties_head level hne
    have hproperties := readSeparated_properties level rest properties n
    rw [toList_object level hne] at hread
    simp only [htext, List.cons_append, List.append_assoc, List.nil_append,
      readParam_pattern _ hc] at hread hproperties
    obtain ⟨⟨bs, s⟩, hbs, hread⟩ := Option.bind_eq_some_iff.mp hread
    obtain ⟨s', hs', hread⟩ := Option.bind_eq_some_iff.mp hread
    cases hread
    -- a value that goes on leaves no closing brace for the pattern
    rcases hproperties bs s (isPlain_value_of_mem hplain) hne hbs with rfl | hs
    · simpa [Text.dropPrefix?] using hs'.symm
    · rw [hs.dropPrefix?.2.1] at hs'
      cases hs'

/-- Where the front of an operand is read as a parameter, the operand ends there, or it continues. -/
theorem Opens.readParam (h : Opens s) (hrest : Stops Char.isAlphanum rest) {n : Nat} {p : Param}
    (hread : readParam n (s ++ rest) = some (p, t)) : t = rest ∨ Continues t := by
  cases h with
  | quote | tag | wrapped =>
    rw [List.cons_append, readParam_ne_brace n (by decide), readName_none (by decide)] at hread
    cases hread
  | name hname hs =>
    obtain ⟨hstops, hnext⟩ := Continues.or_rest hs hrest
    rw [List.append_assoc, readParam_name n hname hstops] at hread
    cases hread
    exact hnext
  | object level hplain hs =>
    rw [List.append_assoc] at hread
    obtain rfl := readParam_object level n hplain _ hread
    exact (Continues.or_rest hs hrest).2

/-- Parentheses are no list of parameters, if after what could be the first parameter comes
neither a comma nor an arrow. -/
theorem readArrowHead_paren {n : Nat} {c : Char} (hc : c ≠ ')')
    (h : ∀ p t, readParam n (c :: s) = some (p, t) →
      dropPrefix? [',', ' '] t = none ∧ dropPrefix? [')', ' ', '=', '>', ' '] t = none) :
    readArrowHead n ('(' :: c :: s) = none := by
  rw [readArrowHead_open n hc]
  cases n with
  | zero => rfl
  | succ n =>
    cases hparam : readParam (n + 1) (c :: s) with
    | none => simp [readSeparated, hparam]
    | some p =>
      obtain ⟨hcomma, harrow⟩ := h p.1 p.2 hparam
      simp [readSeparated, hparam, hcomma, harrow]

theorem readArrowHead_ne_paren (n : Nat) {c : Char} (hc : c ≠ '(') (s : List Char) :
    readArrowHead n (c :: s) = none := by
  unfold readArrowHead
  split
  · rename_i heq
    exact absurd (List.cons.inj heq).1 hc
  · rename_i heq
    exact absurd (List.cons.inj heq).1 hc
  · rfl

/-- An expression in parentheses is no list of parameters. -/
theorem readArrowHead_wrapped (level n : Nat) {e : Expr} (hplain : e.isPlain = true)
    (hloose : e.isLoose = true) (rest : List Char) :
    readArrowHead n ('(' :: ((renderExpr level .sequence e).toList ++ rest)) = none := by
  have hparen (s : List Char) : readArrowHead n ('(' :: '(' :: s) = none := by
    refine readArrowHead_paren (by decide) fun p t hread => ?_
    rw [readParam_ne_brace n (by decide), readName_none (by decide)] at hread
    cases hread
  cases e with
  | conditional test consequent alternate =>
    simp only [Expr.isPlain, Bool.and_eq_true] at hplain
    have hopens := opens_tight level test hplain.1.1
    obtain ⟨c, s, htext, _, hc, _⟩ := hopens.head
    rw [toList_conditional level hplain.1.1, htext, List.append_assoc, List.cons_append]
    refine readArrowHead_paren hc fun p t hread => ?_
    have hquestion (s : List Char) : Continues (' ' :: '?' :: s) := .inr (.inr ⟨s, rfl⟩)
    -- the test may look like a parameter, but the question mark comes after it
    have ht : Continues t := by
      rw [← List.cons_append, ← htext] at hread
      rcases hopens.readParam (hquestion _).stops hread with rfl | ht
      · exact hquestion _
      · exact ht
    exact ⟨ht.dropPrefix?.1, ht.dropPrefix?.2.2⟩
  | arrow params result =>
    rw [toList_arrow, List.cons_append]
    exact hparen _
  | blockArrow params body =>
    rw [toList_blockArrow, List.cons_append]
    exact hparen _
  | embedded | null | str | ident | object | call | member | markup => cases hloose

/-- An operand is no arrow function. -/
theorem Opens.readArrowHead (h : Opens s) (n : Nat) (rest : List Char) :
    readArrowHead n (s ++ rest) = none := by
  cases h with
  | quote | tag => rfl
  | name hname hs =>
    obtain ⟨c, t, hlist, hc⟩ := isName_head hname
    rw [hlist]
    exact readArrowHead_ne_paren n (hc '(' (by decide)) _
  | @object level properties _ _ _ =>
    obtain ⟨c, u, htext, _⟩ := renderExpr_object_head level properties
    rw [htext]
    rfl
  | wrapped level hplain hloose s =>
    rw [List.cons_append, List.append_assoc]
    exact readArrowHead_wrapped level n hplain hloose _

/-- The body of an arrow function that is an object stands in parentheses, and these are no list of
parameters unless an arrow follows. -/
theorem readArrowHead_object (level n : Nat) (hplain : plainProperties properties = true)
    (hrest : dropPrefix? [' ', '=', '>', ' '] rest = none) :
    readArrowHead n ('(' :: ((renderExpr level .primary (.object properties)).toList ++ ')' :: rest)) =
      none := by
  obtain ⟨c, s, htext, _⟩ := renderExpr_object_head level properties
  rw [htext, List.cons_append]
  refine readArrowHead_paren (by decide) fun p t hread => ?_
  rw [← List.cons_append, ← htext] at hread
  obtain rfl := readParam_object level n hplain _ hread
  exact ⟨by simp [Text.dropPrefix?], by simpa [Text.dropPrefix?] using hrest⟩

end PugComponents.Jsx
