import PugComponents.Proofs.Template.RespacedAttributes
import PugComponents.Proofs.Text.Balanced

/- Attribute lists as they are written. A value is made of words: text in which
   white space and commas stand only in brackets and literals. White space goes
   on with a value if an operator stands before it or behind it. Attributes are
   separated by white space and commas; a value at a gap without a comma must not
   look as if it went on. Such a list is read back as it was written, without
   faults (`attributeList_written`). -/
namespace PugComponents.Template

open Text

/-! ## Values -/

/-- White space and commas stand only in brackets and literals. -/
inductive IsWord : List Char → Prop
  | nil : IsWord []
  | char {c : Char} {cs : List Char} (hc : isDelimiter c = false) (hgap : isAttributeGap c = false) :
      IsWord cs → IsWord (c :: cs)
  | literal {quote : Char} {tail cs : List Char} (hquote : isQuote quote = true)
      (htail : LiteralTail quote tail) : IsWord cs → IsWord (quote :: (tail ++ cs))
  | group {opener closer : Char} {inner cs : List Char} (hopen : closerOf? opener = some closer)
      (hinner : Balanced inner) : IsWord cs → IsWord (opener :: (inner ++ closer :: cs))

/-- An operator at the end of the word or at the front of the value joins the two. -/
def joins (word value : List Char) : Bool :=
  word.getLast?.any isOperator || value.head?.any fun c => isOperator c && c != '!'

/-- The value of an attribute: words that operators join. -/
inductive IsValue : List Char → Prop
  | word {w : List Char} (hw : IsWord w) (hne : w ≠ []) : IsValue w
  | joined {w blank v : List Char} (hw : IsWord w) (hne : w ≠ []) (hblank : isBlank blank = true)
      (hjoins : joins w v = true) : IsValue v → IsValue (w ++ (blank ++ v))

variable {w : List Char}

theorem IsWord.balanced (h : IsWord w) : Balanced w := by
  induction h with
  | nil => exact .nil
  | char hc _ _ ih => exact .char hc ih
  | literal hquote htail _ ih => exact .literal hquote htail ih
  | group hopen hinner _ ih => exact .group hopen hinner ih

variable {c : Char}

theorem isAttributeGap_of_isQuote (h : isQuote c = true) : isAttributeGap c = false := by
  simp only [isQuote, Bool.or_eq_true, beq_iff_eq] at h
  rcases h with (rfl | rfl) | rfl <;> decide

theorem isAttributeGap_of_isCloser (h : isCloser c = true) : isAttributeGap c = false := by
  simp only [isCloser, Bool.or_eq_true, beq_iff_eq] at h
  rcases h with (rfl | rfl) | rfl <;> decide

theorem isAttributeGap_of_closerOf? {closer : Char} (h : closerOf? c = some closer) :
    isAttributeGap c = false := by
  rcases closerOf?_cases h with ⟨rfl, -⟩ | ⟨rfl, -⟩ | ⟨rfl, -⟩ <;> decide

theorem isWhiteSpace_of_not_gap (h : isAttributeGap c = false) : isWhiteSpace c = false :=
  (Bool.or_eq_false_iff.mp h).1

theorem isDelimiter_of_gap (h : isAttributeGap c = true) : isDelimiter c = false := by
  rw [isDelimiter_eq_false]
  refine ⟨?_, ?_, ?_⟩
  · cases hc : isQuote c with
    | false => rfl
    | true => rw [isAttributeGap_of_isQuote hc] at h; cases h
  · cases hc : closerOf? c with
    | none => rfl
    | some closer => rw [isAttributeGap_of_closerOf? hc] at h; cases h
  · cases hc : isCloser c with
    | false => rfl
    | true => rw [isAttributeGap_of_isCloser hc] at h; cases h

theorem isAttributeGap_of_isWhiteSpace (h : isWhiteSpace c = true) : isAttributeGap c = true := by
  simp [isAttributeGap, h]

variable {blank : List Char}

theorem balanced_of_isBlank (h : isBlank blank = true) : Balanced blank :=
  .of_forall fun c hc =>
    isDelimiter_of_gap (isAttributeGap_of_isWhiteSpace (List.all_eq_true.mp h c hc))

variable {v : List Char}

theorem IsValue.balanced (h : IsValue v) : Balanced v := by
  induction h with
  | word hw _ => exact hw.balanced
  | joined hw _ hblank _ _ ih => exact hw.balanced.append ((balanced_of_isBlank hblank).append ih)

/-- The first character of a word separates nothing. -/
theorem IsWord.head (h : IsWord w) (hne : w ≠ []) :
    ∃ c cs, w = c :: cs ∧ isAttributeGap c = false := by
  cases h with
  | nil => exact absurd rfl hne
  | char hc hgap _ => exact ⟨_, _, rfl, hgap⟩
  | literal hquote _ _ => exact ⟨_, _, rfl, isAttributeGap_of_isQuote hquote⟩
  | group hopen _ _ => exact ⟨_, _, rfl, isAttributeGap_of_closerOf? hopen⟩

/-- The last character of a word is not white space. -/
theorem IsWord.last (h : IsWord w) (hne : w ≠ []) :
    ∃ front c, w = front ++ [c] ∧ isWhiteSpace c = false := by
  -- The last character is that of the rest, or of the first part if nothing follows.
  have step : ∀ (part : List Char) {cs : List Char},
      (∃ front c, part = front ++ [c] ∧ isWhiteSpace c = false) →
      (cs ≠ [] → ∃ front c, cs = front ++ [c] ∧ isWhiteSpace c = false) →
      ∃ front c, part ++ cs = front ++ [c] ∧ isWhiteSpace c = false := by
    intro part cs hpart hcs
    cases cs with
    | nil =>
      rw [List.append_nil]
      exact hpart
    | cons d ds =>
      obtain ⟨front, c, hfront, hc⟩ := hcs (List.cons_ne_nil _ _)
      exact ⟨part ++ front, c, by rw [hfront, List.append_assoc], hc⟩
  induction h with
  | nil => exact absurd rfl hne
  | @char c cs _ hgap _ ih => exact step [c] ⟨[], c, rfl, isWhiteSpace_of_not_gap hgap⟩ ih
  | @literal quote tail cs hquote htail _ ih =>
    obtain ⟨front, rfl⟩ := htail.eq_concat
    exact step (quote :: (front ++ [quote]))
      ⟨quote :: front, quote, rfl, isWhiteSpace_of_not_gap (isAttributeGap_of_isQuote hquote)⟩ ih
  | @group opener closer inner cs hopen _ _ ih =>
    have hcloser := (closerOf?_eq_some hopen).2.2.2
    have h := step (opener :: (inner ++ [closer]))
      ⟨opener :: inner, closer, rfl, isWhiteSpace_of_not_gap (isAttributeGap_of_isCloser hcloser)⟩ ih
    simpa using h

theorem IsValue.head (h : IsValue v) : ∃ c cs, v = c :: cs ∧ isAttributeGap c = false := by
  cases h with
  | word hw hne => exact hw.head hne
  | joined hw hne _ _ _ =>
    obtain ⟨c, cs, rfl, hc⟩ := hw.head hne
    exact ⟨c, _, rfl, hc⟩

theorem IsValue.last (h : IsValue v) : ∃ front c, v = front ++ [c] ∧ isWhiteSpace c = false := by
  induction h with
  | word hw hne => exact hw.last hne
  | @joined w blank v _ _ _ _ _ ih =>
    obtain ⟨front, c, rfl, hc⟩ := ih
    exact ⟨w ++ (blank ++ front), c, by simp, hc⟩

/-- White space behind a value is all that trimming removes. -/
theorem IsValue.trim_append (h : IsValue v) (hblank : isBlank blank = true) :
    trim (v ++ blank) = v := by
  have hstart : trimStart (v ++ blank) = v ++ blank := by
    obtain ⟨c, cs, rfl, hc⟩ := h.head
    exact List.dropWhile_cons_of_neg (by simp [isWhiteSpace_of_not_gap hc])
  rw [trim, hstart, Respacing.trimEnd_append_blank _ hblank]
  obtain ⟨front, c, rfl, hc⟩ := h.last
  exact Respacing.trimEnd_concat front hc

/-! ## Reading a value -/

/-- The last character that is not white space. -/
def lastInk (last : Option Char) (text : List Char) : Option Char :=
  text.foldl (fun last c => if isWhiteSpace c then last else some c) last

theorem lastInk_append (last : Option Char) (a b : List Char) :
    lastInk last (a ++ b) = lastInk (lastInk last a) b :=
  List.foldl_append

variable {text front : List Char}

theorem lastInk_of_last (h : text = front ++ [c]) (hc : isWhiteSpace c = false) (last : Option Char) :
    lastInk last text = text.getLast? := by
  subst h
  simp [lastInk, hc]

theorem appendFirst_append {β : Type} (a b : List Char) (r : List Char × β) :
    appendFirst a (appendFirst b r) = appendFirst (a ++ b) r := by
  simp [appendFirst]

/-- A value at this depth goes on over the whole text. -/
def PassedAt (depth : Nat) (text : List Char) : Prop :=
  ∀ last rest, valueFrom depth .outside last (text ++ rest) =
    appendFirst text (valueFrom depth .outside (lastInk last text) rest)

variable {depth : Nat}

theorem PassedAt.append {a b : List Char} (ha : PassedAt depth a) (hb : PassedAt depth b) :
    PassedAt depth (a ++ b) := by
  intro last rest
  rw [List.append_assoc, ha, hb, appendFirst_append, lastInk_append]

theorem valueFrom_of_not_code {quoting : Quoting} (h : quoting.isCode c = false) (depth : Nat)
    (last : Option Char) (cs : List Char) :
    valueFrom depth quoting last (c :: cs) =
      consFirst c (valueFrom depth (quoting.next c) (lastInk last [c]) cs) := by
  simp only [valueFrom, h, Bool.false_eq_true, if_false]
  rfl

variable {last : Option Char} {cs : List Char}

/-- A character of code belongs to a value, unless it is a comma or white space outside brackets that
does not carry the value on. -/
theorem valueFrom_of_code (hquote : isQuote c = false)
    (hon : depth = 0 → c ≠ ',' ∧ (isWhiteSpace c = true → carriesOn last (c :: cs) = true)) :
    valueFrom depth .outside last (c :: cs) =
      consFirst c (valueFrom (nextDepth depth c) .outside (lastInk last [c]) cs) := by
  have hstop : (depth == 0 && (c == ',' || (isWhiteSpace c && !carriesOn last (c :: cs)))) = false := by
    cases depth with
    | succ depth => rfl
    | zero =>
      obtain ⟨hcomma, hspace⟩ := hon rfl
      cases hc : isWhiteSpace c with
      | false => simp [hcomma]
      | true => simp [hcomma, hspace hc]
  simp only [valueFrom, Quoting.isCode_outside, hquote, hstop, Bool.not_false, if_true,
    Bool.false_eq_true, if_false]
  rfl

/-- What separates nothing carries every value on. -/
theorem goesOn_of_not_gap (h : isAttributeGap c = false) :
    c ≠ ',' ∧ (isWhiteSpace c = true → carriesOn last (c :: cs) = true) := by
  obtain ⟨hspace, hcomma⟩ := Bool.or_eq_false_iff.mp h
  refine ⟨beq_eq_false_iff_ne.mp hcomma, fun hc => ?_⟩
  rw [hspace] at hc
  cases hc

theorem passedAt_char (hc : isDelimiter c = false) (hgap : depth = 0 → isAttributeGap c = false) :
    PassedAt depth [c] := by
  intro last rest
  rw [List.cons_append,
    valueFrom_of_code (isDelimiter_eq_false.mp hc).1 fun h => goesOn_of_not_gap (hgap h),
    nextDepth_plain hc]
  rfl

/-- The search for the end of a value passes what stands in brackets and literals. -/
def valueScan : Scan Nat (Option Char) (List Char × List Char) where
  run := valueFrom
  next last c := if isWhiteSpace c then last else some c
  put := consFirst
  deeper _ depth := depth + 1
  Open _ := True
  Inside depth := depth ≠ 0
  open_of_inside _ := trivial
  inside_deeper _ depth := Nat.succ_ne_zero depth
  hidden h depth last cs := valueFrom_of_not_code h depth last cs
  code hc depth h last cs := passedAt_char hc (absurd · h) last cs
  opener hopen depth _ last cs := by
    rw [valueFrom_of_code (closerOf?_eq_some hopen).1 fun _ =>
      goesOn_of_not_gap (isAttributeGap_of_closerOf? hopen), nextDepth_opener hopen]
    rfl
  closer hopen depth _ last cs := by
    rw [valueFrom_of_code (closerOf?_eq_some hopen).2.1 (absurd · (Nat.succ_ne_zero depth)),
      nextDepth_closer hopen]
    rfl

theorem passedAt_of_passes (h : valueScan.Passes depth text) : PassedAt depth text :=
  fun last rest => (h last rest).trans (foldr_consFirst text _)

theorem passedAt_word (h : IsWord w) : PassedAt 0 w := by
  induction h with
  | nil => exact fun _ _ => rfl
  | char hc hgap _ ih => exact (passedAt_char hc fun _ => hgap).append ih
  | literal hquote htail _ ih => exact (passedAt_of_passes (.literal hquote htail)).append ih
  | group hopen hinner _ ih =>
    simpa using (passedAt_of_passes (.group hopen trivial hinner)).append ih

theorem trimStart_append_blank (h : isBlank blank = true) (rest : List Char) :
    trimStart (blank ++ rest) = trimStart rest :=
  List.dropWhile_append_of_pos (List.all_eq_true.mp h)

theorem carriesOn_blank (h : isBlank blank = true) (last : Option Char) (rest : List Char) :
    carriesOn last (blank ++ rest) = carriesOn last rest := by
  rw [carriesOn, trimStart_append_blank h, carriesOn]

variable {rest : List Char}

/-- A value goes on over white space that an operator carries it across. -/
theorem valueFrom_blank (hblank : isBlank blank = true) (hcarries : carriesOn last rest = true) :
    valueFrom 0 .outside last (blank ++ rest) = appendFirst blank (valueFrom 0 .outside last rest) := by
  induction blank with
  | nil => rfl
  | cons c blank ih =>
    obtain ⟨hc, hrest⟩ : isWhiteSpace c = true ∧ isBlank blank = true := by
      simpa [isBlank] using hblank
    have hplain := isDelimiter_of_gap (isAttributeGap_of_isWhiteSpace hc)
    have hcomma : c ≠ ',' := by
      rintro rfl
      exact absurd hc (by decide)
    have hon : carriesOn last (c :: (blank ++ rest)) = true := by
      rw [← List.cons_append, carriesOn_blank hblank, hcarries]
    have hlast : lastInk last [c] = last := if_pos hc
    rw [List.cons_append,
      valueFrom_of_code (isDelimiter_eq_false.mp hplain).1 fun _ => ⟨hcomma, fun _ => hon⟩,
      nextDepth_plain hplain, hlast, ih hrest]
    rfl

/-- An operator at either side of white space carries the value on. -/
theorem carriesOn_of_joins (h : joins w v = true) (hv : IsValue v) (rest : List Char) :
    carriesOn w.getLast? (v ++ rest) = true := by
  obtain ⟨c, cs, rfl, hc⟩ := hv.head
  have htrim : trimStart (c :: cs ++ rest) = c :: (cs ++ rest) :=
    List.dropWhile_cons_of_neg (by simp [isWhiteSpace_of_not_gap hc])
  rw [carriesOn, htrim]
  exact h

/-- A value is read to its end. -/
theorem valueFrom_value (h : IsValue v) (last : Option Char) (rest : List Char) :
    valueFrom 0 .outside last (v ++ rest) =
      appendFirst v (valueFrom 0 .outside v.getLast? rest) := by
  induction h generalizing last with
  | word hw hne =>
    obtain ⟨front, c, hfront, hc⟩ := hw.last hne
    rw [passedAt_word hw, lastInk_of_last hfront hc]
  | @joined w blank v hw hne hblank hjoins hv ih =>
    obtain ⟨front, c, hfront, hc⟩ := hw.last hne
    have hlast : (w ++ (blank ++ v)).getLast? = v.getLast? := by
      obtain ⟨back, d, rfl, -⟩ := hv.last
      simp [← List.append_assoc]
    rw [List.append_assoc, List.append_assoc, passedAt_word hw, lastInk_of_last hfront hc,
      valueFrom_blank hblank (carriesOn_of_joins hjoins hv rest), ih, appendFirst_append,
      appendFirst_append, hlast, List.append_assoc]

/-! ## Gaps -/

/-- White space and commas. -/
def isGap (gap : List Char) : Bool := gap.all isAttributeGap

/-- The first character of a text, if there is one, does not end the name of an attribute. -/
def startsName (text : List Char) : Bool := text.head?.all (!endsAttributeName ·)

variable {gap : List Char}

theorem balanced_of_isGap (h : isGap gap = true) : Balanced gap :=
  .of_forall fun c hc => isDelimiter_of_gap (List.all_eq_true.mp h c hc)

/-- The first character behind the white space of a gap is a comma or the first one behind the gap. -/
theorem trimStart_gap (hgap : isGap gap = true) (hrest : startsName rest = true) :
    ∀ c ∈ (trimStart (gap ++ rest)).head?, c = ',' ∨ rest.head? = some c := by
  induction gap with
  | nil =>
    intro c hc
    cases rest with
    | nil => cases hc
    | cons d rest =>
      have hd : isWhiteSpace d = false := by
        simp only [startsName, endsAttributeName, List.head?_cons, Option.all_some,
          Bool.not_eq_true', Bool.or_eq_false_iff] at hrest
        exact hrest.1.1.1
      rw [List.nil_append, trimStart, List.dropWhile_cons_of_neg (by simp [hd])] at hc
      exact .inr hc
  | cons d gap ih =>
    obtain ⟨hd, hgap⟩ : isAttributeGap d = true ∧ isGap gap = true := by simpa [isGap] using hgap
    intro c hc
    cases hspace : isWhiteSpace d with
    | true =>
      rw [List.cons_append, trimStart, List.dropWhile_cons_of_pos hspace] at hc
      exact ih hgap c hc
    | false =>
      rw [List.cons_append, trimStart, List.dropWhile_cons_of_neg (by simp [hspace])] at hc
      have hcomma : d = ',' := by simpa [isAttributeGap, hspace] using hd
      left
      rw [← hcomma]
      exact (Option.some.inj hc).symm

/-- The gap behind a value ends it: nothing follows, or a comma stands in the gap, or no operator
stands at either side of it. -/
def EndsValue (last : Option Char) (gap rest : List Char) : Prop :=
  rest = [] ∨ ',' ∈ gap ∨
    gap ≠ [] ∧ last.any isOperator = false ∧ rest.head?.any isOperator = false

theorem not_carriesOn_of_gap (hgap : isGap gap = true) (hrest : startsName rest = true)
    (hlast : last.any isOperator = false) (hoperator : rest.head?.any isOperator = false) :
    carriesOn last (gap ++ rest) = false := by
  have hfirst := trimStart_gap hgap hrest
  unfold carriesOn
  cases htrim : trimStart (gap ++ rest) with
  | nil => rfl
  | cons c cs =>
    rw [htrim] at hfirst
    have hc : isOperator c = false := by
      rcases hfirst c rfl with rfl | hc
      · decide
      · simpa [hc] using hoperator
    simp [hlast, hc]

/-- A value takes at most white space from the gap behind it. -/
theorem valueFrom_gap (hgap : isGap gap = true) (hrest : startsName rest = true)
    (h : EndsValue last gap rest) :
    ∃ blank more, isBlank blank = true ∧ isGap more = true ∧ gap = blank ++ more ∧
      (valueFrom 0 .outside last (gap ++ rest)).1 = blank := by
  induction gap with
  | nil =>
    obtain rfl : rest = [] := by
      rcases h with h | h | h
      · exact h
      · cases h
      · exact absurd rfl h.1
    exact ⟨[], [], rfl, rfl, rfl, rfl⟩
  | cons c gap ih =>
    obtain ⟨hc, hmore⟩ : isAttributeGap c = true ∧ isGap gap = true := by simpa [isGap] using hgap
    have hplain := isDelimiter_of_gap hc
    have hquote := (isDelimiter_eq_false.mp hplain).1
    by_cases hstop : c = ',' ∨ carriesOn last (c :: (gap ++ rest)) = false
    · -- The value ends here: a gap without a comma at its front is white space.
      refine ⟨[], c :: gap, rfl, hgap, rfl, ?_⟩
      have hends : (c == ',' || (isWhiteSpace c && !carriesOn last (c :: (gap ++ rest)))) = true := by
        rcases hstop with rfl | hcarries
        · rfl
        · rw [hcarries, Bool.not_false, Bool.and_true, Bool.or_comm]
          exact hc
      simp only [List.cons_append, valueFrom, Quoting.isCode_outside, hquote, hends, Bool.not_false,
        beq_self_eq_true, Bool.and_true, if_true]
    · obtain ⟨hcomma, hcarries⟩ := not_or.mp hstop
      rw [Bool.not_eq_false] at hcarries
      have hspace : isWhiteSpace c = true := by simpa [isAttributeGap, hcomma] using hc
      have hends : EndsValue last gap rest := by
        rcases h with h | h | ⟨-, hlast, hoperator⟩
        · exact .inl h
        · exact .inr (.inl (by simpa [Ne.symm hcomma] using h))
        · rw [← List.cons_append, not_carriesOn_of_gap hgap hrest hlast hoperator] at hcarries
          cases hcarries
      obtain ⟨blank, more, hblank, hrestGap, rfl, hvalue⟩ := ih hmore hends
      refine ⟨c :: blank, more, by simpa [isBlank, hspace] using hblank, hrestGap, rfl, ?_⟩
      have hlast : lastInk last [c] = last := if_pos hspace
      rw [List.cons_append, valueFrom_of_code hquote fun _ => ⟨hcomma, fun _ => hcarries⟩,
        nextDepth_plain hplain, hlast, consFirst, hvalue]

/-- A value is read back, with white space behind it. -/
theorem attributeValue_written (hv : IsValue v) (hgap : isGap gap = true)
    (hrest : startsName rest = true) (h : EndsValue v.getLast? gap rest) :
    ∃ blank more, isBlank blank = true ∧ isGap more = true ∧ gap = blank ++ more ∧
      (attributeValue (v ++ (gap ++ rest))).1 = v ++ blank := by
  obtain ⟨blank, more, hblank, hmore, heq, hvalue⟩ := valueFrom_gap hgap hrest h
  refine ⟨blank, more, hblank, hmore, heq, ?_⟩
  rw [attributeValue, valueFrom_value hv, appendFirst, hvalue]

/-! ## Names and signs -/

/-- A character of a name that is not quoted. -/
def isAttributeNamePart (c : Char) : Bool := !endsAttributeName c && !isDelimiter c

/-- A name, and how it is written: as it is, or between quotes. -/
inductive WrittenName : List Char → List Char → Prop
  | plain {name : List Char} (hne : name ≠ []) (h : name.all isAttributeNamePart = true) :
      WrittenName name name
  | quoted {quote : Char} {name : List Char} (hquote : quote = '"' ∨ quote = '\'') (hne : name ≠ [])
      (h : ∀ c ∈ name, c ≠ quote ∧ c ≠ '\\') : WrittenName (quote :: (name ++ [quote])) name

/-- The sign before a value. -/
def signOf (escaped : Bool) : List Char := if escaped then ['='] else ['!', '=']

variable {written name : List Char}

theorem WrittenName.balanced (h : WrittenName written name) : Balanced written := by
  cases h with
  | plain _ h =>
    refine .of_forall fun c hc => ?_
    have hpart := List.all_eq_true.mp h c hc
    simp only [isAttributeNamePart, Bool.and_eq_true, Bool.not_eq_true'] at hpart
    exact hpart.2
  | @quoted quote name hquote _ h =>
    have hopens : isQuote quote = true := by
      rcases hquote with rfl | rfl <;> rfl
    rw [← List.append_nil (name ++ [quote])]
    exact .literal hopens (.of_forall h) .nil

theorem WrittenName.head (h : WrittenName written name) :
    ∃ c cs, written = c :: cs ∧ endsAttributeName c = false := by
  cases h with
  | plain hne h =>
    obtain ⟨c, cs, rfl⟩ := List.exists_cons_of_ne_nil hne
    have hpart := List.all_eq_true.mp h c List.mem_cons_self
    simp only [isAttributeNamePart, Bool.and_eq_true, Bool.not_eq_true'] at hpart
    exact ⟨c, cs, rfl, hpart.1⟩
  | quoted hquote _ _ =>
    refine ⟨_, _, rfl, ?_⟩
    rcases hquote with rfl | rfl <;> rfl

theorem WrittenName.name_ne_nil (h : WrittenName written name) : name ≠ [] := by
  cases h with
  | plain hne _ => exact hne
  | quoted _ hne _ => exact hne

variable {p : Place}

theorem Place.skip_text (h : p.text = front ++ rest) : (p.skip front).text = rest := by
  rw [Place.skip, h, List.drop_left]

theorem Place.skipWhile_eq {f : Char → Bool} (h : p.text = front ++ rest)
    (hfront : front.all f = true) (hrest : rest.head?.all (!f ·) = true) :
    p.skipWhile f = p.skip front := by
  have hnone : rest.takeWhile f = [] := by
    cases rest with
    | nil => rfl
    | cons c rest => exact List.takeWhile_cons_of_neg (by simpa using hrest)
  rw [Place.skipWhile, h, List.takeWhile_append_of_pos (List.all_eq_true.mp hfront), hnone,
    List.append_nil]

variable {after : List Char}

/-- A name is read back if what follows it ends a name. -/
theorem attributeName_written (h : WrittenName written name) (hwritten : written = c :: cs)
    (hp : p.text = written ++ after) (hafter : after.head?.all endsAttributeName = true) :
    attributeName c p = .name name (p.skip written) := by
  cases h with
  | plain hne h =>
    have hpart : ∀ d ∈ written, endsAttributeName d = false ∧ isDelimiter d = false := by
      intro d hd
      simpa [isAttributeNamePart] using List.all_eq_true.mp h d hd
    have hc : isQuote c = false :=
      (isDelimiter_eq_false.mp (hpart c (by rw [hwritten]; exact List.mem_cons_self)).2).1
    have hquote : (c == '"' || c == '\'') = false := by
      simp only [isQuote, Bool.or_eq_false_iff] at hc ⊢
      exact ⟨hc.1.2, hc.1.1⟩
    have hname : (written ++ after).takeWhile (!endsAttributeName ·) = written := by
      have hnone : after.takeWhile (!endsAttributeName ·) = [] := by
        cases after with
        | nil => rfl
        | cons d after => exact List.takeWhile_cons_of_neg (by simpa using hafter)
      rw [List.takeWhile_append_of_pos (fun d hd => by simp [(hpart d hd).1]), hnone, List.append_nil]
    simp only [attributeName, hquote, hp, hname, Bool.false_eq_true, if_false]
  | @quoted quote name hquote hne h =>
    obtain ⟨rfl, rfl⟩ := List.cons.inj hwritten
    have hname : (name ++ quote :: after).takeWhile (· != quote) = name := by
      rw [List.takeWhile_append_of_pos (fun d hd => by simpa using (h d hd).1)]
      simp
    have htail : p.text.tail = name ++ quote :: after := by
      rw [hp]
      simp
    have hopens : (quote == '"' || quote == '\'') = true := by
      rcases hquote with rfl | rfl <;> rfl
    simp only [attributeName, hopens, htail, hname, if_true]
    simp

theorem valueSign_present (hblank : isBlank blank = true) {escaped : Bool}
    (hp : p.text = blank ++ (signOf escaped ++ rest)) :
    valueSign p = .present escaped (p.skip (blank ++ signOf escaped)) := by
  have hskip : p.skipWhile isWhiteSpace = p.skip blank :=
    Place.skipWhile_eq hp hblank (by cases escaped <;> rfl)
  have htext := Place.skip_text hp
  rw [valueSign, hskip, htext, ← Place.skip_skip]
  cases escaped <;> rfl

theorem valueSign_absent (hgap : isGap gap = true) (hrest : startsName rest = true)
    (hp : p.text = gap ++ rest) : valueSign p = .absent := by
  have hfirst := trimStart_gap hgap hrest
  have htext : (p.skipWhile isWhiteSpace).text = trimStart (gap ++ rest) := by
    rw [Place.skipWhile_text, hp, trimStart]
  rw [valueSign, htext]
  cases htrim : trimStart (gap ++ rest) with
  | nil => rfl
  | cons c cs =>
    rw [htrim] at hfirst
    have hends : c ≠ '=' ∧ c ≠ '!' := by
      rcases hfirst c rfl with rfl | hc
      · decide
      · simp only [startsName, endsAttributeName, hc, Option.all_some, Bool.not_eq_true',
          Bool.or_eq_false_iff, beq_eq_false_iff_ne] at hrest
        exact ⟨hrest.1.2, hrest.2⟩
    split
    · rename_i heq
      exact absurd (List.cons.inj heq).1 hends.2
    · rename_i heq
      exact absurd (List.cons.inj heq).1 hends.1
    · rename_i heq
      exact absurd (List.cons.inj heq).1 hends.2
    · rfl

/-! ## Lists -/

/-- An attribute apart from the place where it stands. -/
structure AttributeContent where
  name : String
  value : AttributeValue
  escaped : Bool
  deriving DecidableEq, Repr

def Attribute.content (a : Attribute) : AttributeContent := ⟨a.name, a.value, a.escaped⟩

/-- An attribute, and how it is written: a name alone, or with a sign and a value. -/
inductive WrittenAttribute : List Char → AttributeContent → Prop
  | flag {written name : List Char} (hname : WrittenName written name) :
      WrittenAttribute written ⟨String.ofList name, .flag, true⟩
  | valued {written name before after value : List Char} (hname : WrittenName written name)
      (hbefore : isBlank before = true) (escaped : Bool) (hafter : isBlank after = true)
      (hvalue : IsValue value) :
      WrittenAttribute (written ++ (before ++ (signOf escaped ++ (after ++ value))))
        ⟨String.ofList name, .expression (String.ofList value), escaped⟩

/-- The gap behind an attribute separates it from the next one. -/
def Separates (a : AttributeContent) (text gap rest : List Char) : Prop :=
  match a.value with
  | .flag => rest = [] ∨ gap ≠ []
  | .expression _ => EndsValue text.getLast? gap rest

/-- Attributes, and how they are written one behind the other. -/
inductive WrittenList : List Char → List AttributeContent → Prop
  | nil : WrittenList [] []
  | cons {text gap rest : List Char} {a : AttributeContent} {as : List AttributeContent}
      (ha : WrittenAttribute text a) (hgap : isGap gap = true) (hsep : Separates a text gap rest) :
      WrittenList rest as → WrittenList (text ++ (gap ++ rest)) (a :: as)

variable {a : AttributeContent}

theorem WrittenAttribute.balanced (h : WrittenAttribute text a) : Balanced text := by
  cases h with
  | flag hname => exact hname.balanced
  | valued hname hbefore escaped hafter hvalue =>
    have hsign : Balanced (signOf escaped) := by
      cases escaped with
      | true => exact .char rfl .nil
      | false => exact .char rfl (.char rfl .nil)
    exact hname.balanced.append ((balanced_of_isBlank hbefore).append
      (hsign.append ((balanced_of_isBlank hafter).append hvalue.balanced)))

variable {as : List AttributeContent}

theorem WrittenList.balanced (h : WrittenList text as) : Balanced text := by
  induction h with
  | nil => exact .nil
  | cons ha hgap _ _ ih => exact ha.balanced.append ((balanced_of_isGap hgap).append ih)

theorem WrittenAttribute.head (h : WrittenAttribute text a) :
    ∃ c cs, text = c :: cs ∧ endsAttributeName c = false := by
  cases h with
  | flag hname => exact hname.head
  | valued hname _ _ _ _ =>
    obtain ⟨c, cs, rfl, hc⟩ := hname.head
    exact ⟨c, _, rfl, hc⟩

theorem WrittenList.startsName (h : WrittenList text as) : startsName text = true := by
  cases h with
  | nil => rfl
  | cons ha _ _ _ =>
    obtain ⟨c, cs, rfl, hc⟩ := ha.head
    simp [Template.startsName, hc]

/-- A gap, or the end of the list, ends a name. -/
theorem endsName_of_gap (hgap : isGap gap = true) (h : rest = [] ∨ gap ≠ []) :
    (gap ++ rest).head?.all endsAttributeName = true := by
  cases gap with
  | nil =>
    obtain rfl : rest = [] := by simpa using h
    rfl
  | cons c gap =>
    have hc : isAttributeGap c = true := List.all_eq_true.mp hgap c List.mem_cons_self
    simp only [isAttributeGap] at hc
    simp [endsAttributeName, hc]

/-- A sign, with white space before it, ends a name. -/
theorem endsName_of_sign (hblank : isBlank blank = true) (escaped : Bool) (rest : List Char) :
    (blank ++ (signOf escaped ++ rest)).head?.all endsAttributeName = true := by
  cases blank with
  | nil => cases escaped <;> rfl
  | cons c blank =>
    have hc : isWhiteSpace c = true := List.all_eq_true.mp hblank c List.mem_cons_self
    simp [endsAttributeName, hc]

variable {lead : List Char}

/-- A step passes the gap before a name and the name. -/
theorem attributesFrom_name (hname : WrittenName written name) (hlead : isGap lead = true)
    {before : Place} (hbefore : before.text = lead ++ (written ++ after))
    (hafter : after.head?.all endsAttributeName = true) (n : Nat) :
    attributesFrom (n + 1) before =
      namedAttribute n (before.skip lead) name ((before.skip lead).skip written) := by
  obtain ⟨c, cs, hwritten, hc⟩ := hname.head
  have hgap : isAttributeGap c = false := by
    simp only [endsAttributeName, Bool.or_eq_false_iff] at hc
    simp [isAttributeGap, hc.1.1.1, hc.1.1.2]
  have hskip : before.skipWhile isAttributeGap = before.skip lead :=
    Place.skipWhile_eq hbefore hlead (by rw [hwritten]; simp [hgap])
  have hp := Place.skip_text hbefore
  have hfirst : (before.skip lead).text = c :: (cs ++ after) := by
    rw [hp, hwritten, List.cons_append]
  rw [attributesFrom_succ, hskip]
  simp only [hfirst]
  rw [attributeName_written hname hwritten hp hafter]
  obtain ⟨first, more, rfl⟩ := List.exists_cons_of_ne_nil hname.name_ne_nil
  rfl

/-- Behind a sign the value is read, with at most white space of the gap behind it. -/
theorem namedAttribute_valued {before value : List Char} {escaped : Bool}
    (hbefore : isBlank before = true) (hafter : isBlank after = true) (hvalue : IsValue value)
    (hgap : isGap gap = true) (hrest : startsName rest = true)
    (hend : EndsValue value.getLast? gap rest) {q : Place}
    (hq : q.text = before ++ (signOf escaped ++ (after ++ (value ++ (gap ++ rest))))) (n : Nat)
    (p : Place) (name : List Char) :
    ∃ span more stop, isGap more = true ∧ stop.text = more ++ rest ∧
      namedAttribute n p name q =
        consAttribute ⟨String.ofList name, .expression (String.ofList value), escaped, span⟩
          (attributesFrom n stop) := by
  obtain ⟨c, cs, hv, hc⟩ := hvalue.head
  have hne : value.isEmpty = false := by rw [hv]; rfl
  have hsign := valueSign_present hbefore hq
  have hstart : (q.skip (before ++ signOf escaped)).text = after ++ (value ++ (gap ++ rest)) := by
    refine Place.skip_text ?_
    rw [hq, List.append_assoc]
  have hspace := Place.skipWhile_eq hstart hafter (by rw [hv]; simp [isWhiteSpace_of_not_gap hc])
  have htext := Place.skip_text hstart
  obtain ⟨blank, more, hblank, hmore, rfl, hread⟩ := attributeValue_written hvalue hgap hrest hend
  simp only [namedAttribute, hsign, hspace, htext, hread, hvalue.trim_append hblank, hne,
    Bool.false_eq_true, if_false]
  refine ⟨_, more, _, hmore, ?_, rfl⟩
  refine Place.skip_text ?_
  rw [htext]
  simp

/-- One step reads one attribute, with the gap before it. -/
theorem attributesFrom_written (ha : WrittenAttribute text a) (hgap : isGap gap = true)
    (hsep : Separates a text gap rest) (hrest : startsName rest = true) (hlead : isGap lead = true)
    {before : Place} (hbefore : before.text = lead ++ (text ++ (gap ++ rest))) (n : Nat) :
    ∃ found more q, found.content = a ∧ isGap more = true ∧ q.text = more ++ rest ∧
      attributesFrom (n + 1) before = consAttribute found (attributesFrom n q) := by
  cases ha with
  | flag hname =>
    have hafter := Place.skip_text (Place.skip_text hbefore)
    rw [attributesFrom_name hname hlead hbefore (endsName_of_gap hgap hsep)]
    simp only [namedAttribute, valueSign_absent hgap hrest hafter]
    exact ⟨_, gap, _, rfl, hgap, hafter, rfl⟩
  | @valued written name blank after value hname hblank escaped hafter hvalue =>
    simp only [List.append_assoc] at hbefore
    have hlast : (written ++ (blank ++ (signOf escaped ++ (after ++ value)))).getLast? =
        value.getLast? := by
      obtain ⟨front, c, rfl, -⟩ := hvalue.last
      simp [← List.append_assoc]
    have hend : EndsValue value.getLast? gap rest := by
      rw [← hlast]
      exact hsep
    rw [attributesFrom_name hname hlead hbefore (endsName_of_sign hblank escaped _)]
    obtain ⟨span, more, stop, hmore, hstop, hread⟩ := namedAttribute_valued hblank hafter hvalue hgap
      hrest hend (Place.skip_text (Place.skip_text hbefore)) n (before.skip lead) name
    exact ⟨_, more, stop, rfl, hmore, hstop, hread⟩

/-- A list is read back attribute by attribute. -/
theorem attributesFrom_list (h : WrittenList text as) (hlead : isGap lead = true)
    (hp : p.text = lead ++ text) {n : Nat} (hn : text.length < n) :
    (attributesFrom n p).1.map Attribute.content = as ∧ (attributesFrom n p).2 = [] := by
  obtain ⟨n, rfl⟩ : ∃ m, n = m + 1 := ⟨n - 1, by omega⟩
  induction h generalizing lead p n with
  | nil =>
    have htext : (p.skipWhile isAttributeGap).text = [] := by
      rw [Place.skipWhile_eq hp hlead rfl, Place.skip_text hp]
    simp [attributesFrom_succ, htext]
  | @cons text gap rest a as ha hgap hsep hlist ih =>
    obtain ⟨found, more, q, rfl, hmore, hq, hstep⟩ :=
      attributesFrom_written ha hgap hsep hlist.startsName hlead hp n
    obtain ⟨c, cs, rfl, -⟩ := ha.head
    simp only [List.length_append, List.length_cons] at hn
    obtain ⟨n, rfl⟩ : ∃ m, n = m + 1 := ⟨n - 1, by omega⟩
    obtain ⟨hattributes, hfaults⟩ := ih hmore hq n (by omega)
    rw [hstep, consAttribute]
    exact ⟨by rw [List.map_cons, hattributes], hfaults⟩

/-- An attribute list is read back as it was written, without faults. -/
theorem attributeList_written (hlead : isGap lead = true) (h : WrittenList text as) (offset : Nat) :
    (attributeList (lead ++ text) offset).1.map Attribute.content = as ∧
      (attributeList (lead ++ text) offset).2 = [] :=
  attributesFrom_list h hlead rfl (by simp only [List.length_append]; omega)

end PugComponents.Template
